import Silkworm.Transactions

/-!
# Block headers and bodies and their RLP formats

The codec of headers, bodies and whole blocks, and the body format of the database, which
stores transaction numbers in place of the transactions.
-/

namespace Silkworm

structure BlockHeader where
  parentHash : Bytes32 := default
  ommersHash : Bytes32 := default
  beneficiary : Address := default
  stateRoot : Bytes32 := default
  transactionsRoot : Bytes32 := default
  receiptsRoot : Bytes32 := default
  logsBloom : Bloom := default
  difficulty : Uint256 := 0
  number : Uint64 := 0
  gasLimit : Uint64 := 0
  gasUsed : Uint64 := 0
  timestamp : Uint64 := 0
  extraData : Bytes := []
  mixHash : Bytes32 := default
  nonce : FixedBytes 8 := default
  deriving DecidableEq, Inhabited

structure BlockBody where
  transactions : List Transaction := []
  ommers : List BlockHeader := []
  deriving DecidableEq, Inhabited

def BlockBody.equal (a b : BlockBody) : Bool :=
  a.transactions.isEqv b.transactions Transaction.equal && a.ommers = b.ommers

structure Block extends BlockBody where
  header : BlockHeader := {}
  deriving DecidableEq, Inhabited

structure BlockWithHash where
  block : Block
  hash : Bytes32
  deriving DecidableEq, Inhabited

namespace Rlp
open ViewParsers

def rlpHeaderBlockHeader (header : BlockHeader) (forSealing : Bool) : Header where
  list := true
  payloadLength :=
    (kHashLength + 1) + (kHashLength + 1) + (kAddressLength + 1) + (kHashLength + 1) +
    (kHashLength + 1) + (kHashLength + 1) + (kBloomByteLength + lengthOfLength kBloomByteLength) +
    lengthUint header.difficulty + lengthUint header.number + lengthUint header.gasLimit +
    lengthUint header.gasUsed + lengthUint header.timestamp + lengthBytes header.extraData +
    if forSealing then 0 else (kHashLength + 1) + (8 + 1)

def lengthBlockHeader (header : BlockHeader) : ℕ :=
  let h := rlpHeaderBlockHeader header false
  lengthOfLength h.payloadLength + h.payloadLength

def encodeBlockHeaderFields (header : BlockHeader) (forSealing : Bool) : Bytes :=
  encodeFixed header.parentHash ++ encodeFixed header.ommersHash ++
    encodeFixed header.beneficiary ++ encodeFixed header.stateRoot ++
    encodeFixed header.transactionsRoot ++ encodeFixed header.receiptsRoot ++
    encodeBytes header.logsBloom.val ++ encodeUint header.difficulty ++
    encodeUint header.number ++ encodeUint header.gasLimit ++ encodeUint header.gasUsed ++
    encodeUint header.timestamp ++ encodeBytes header.extraData ++
    if forSealing then [] else encodeFixed header.mixHash ++ encodeFixed header.nonce

def encodeBlockHeaderAs (header : BlockHeader) (forSealing : Bool) : Bytes :=
  encodeHeader (rlpHeaderBlockHeader header forSealing) ++ encodeBlockHeaderFields header forSealing

def encodeBlockHeader (header : BlockHeader) : Bytes := encodeBlockHeaderAs header false

def decodeBlockHeaderFields : Decoder BlockHeader := do
  let parentHash ← decodeFixed kHashLength
  let ommersHash ← decodeFixed kHashLength
  let beneficiary ← decodeFixed kAddressLength
  let stateRoot ← decodeFixed kHashLength
  let transactionsRoot ← decodeFixed kHashLength
  let receiptsRoot ← decodeFixed kHashLength
  let logsBloom ← decodeFixed kBloomByteLength
  let difficulty ← decodeUint 256
  let number ← decodeUint 64
  let gasLimit ← decodeUint 64
  let gasUsed ← decodeUint 64
  let timestamp ← decodeUint 64
  let extraData ← decodeBytes
  let mixHash ← decodeFixed kHashLength
  let nonce ← decodeFixed 8
  pure ⟨parentHash, ommersHash, beneficiary, stateRoot, transactionsRoot, receiptsRoot, logsBloom,
    difficulty, number, gasLimit, gasUsed, timestamp, extraData, mixHash, nonce⟩

def decodeBlockHeader : Decoder BlockHeader := decodeListOf decodeBlockHeaderFields

def encodeBlockBody (body : BlockBody) : Bytes :=
  encodeHeader ⟨true, lengthVector lengthTransaction body.transactions +
      lengthVector lengthBlockHeader body.ommers⟩ ++
    (encodeVector lengthTransaction encodeTransaction body.transactions ++
      encodeVector lengthBlockHeader encodeBlockHeader body.ommers)

/-- The fields of a body, as `decode` reads them for a body and for a block. -/
def decodeBodyFields : Decoder BlockBody := do
  let transactions ← decodeVector decodeTransaction
  let ommers ← decodeVector decodeBlockHeader
  pure ⟨transactions, ommers⟩

def decodeBlockBody : Decoder BlockBody := decodeListOf decodeBodyFields

def decodeBlockFields : Decoder Block := do
  let header ← decodeBlockHeader
  let body ← decodeBodyFields
  pure ⟨body, header⟩

def decodeBlock : Decoder Block := decodeListOf decodeBlockFields

end Rlp

/-- The body as the database keeps it. -/
structure BlockBodyForStorage where
  baseTxnId : Uint64 := 0
  txnCount : Uint64 := 0
  ommers : List BlockHeader := []
  deriving DecidableEq, Inhabited

namespace Rlp
open ViewParsers

def encodeBlockBodyForStorageFields (body : BlockBodyForStorage) : Bytes :=
  encodeUint body.baseTxnId ++ encodeUint body.txnCount ++
    encodeVector lengthBlockHeader encodeBlockHeader body.ommers

def encodeBlockBodyForStorage (body : BlockBodyForStorage) : Bytes :=
  encodeHeader ⟨true, lengthUint body.baseTxnId + lengthUint body.txnCount +
      lengthVector lengthBlockHeader body.ommers⟩ ++ encodeBlockBodyForStorageFields body

def decodeStoredBlockBodyFields : Decoder BlockBodyForStorage := do
  let baseTxnId ← decodeUint 64
  let txnCount ← decodeUint 64
  let ommers ← decodeVector decodeBlockHeader
  pure ⟨baseTxnId, txnCount, ommers⟩

/-- The source throws the `DecodingResult`, which is the outcome `error` here. -/
def decodeStoredBlockBody : Decoder BlockBodyForStorage := decodeListOf decodeStoredBlockBodyFields

end Rlp
end Silkworm
