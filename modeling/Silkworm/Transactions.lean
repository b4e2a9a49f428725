import Silkworm.RlpDecoding

/-!
# Transactions and their wire formats

Legacy and EIP-2930 transactions, the packing of parity and chain id into `v`, and the two
RLP formats. Serialized EIP-2718 transactions are wrapped into a byte array in block bodies.
-/

namespace Silkworm

def kEip2930TransactionType : UInt8 := 1

structure AccessListEntry where
  account : Address
  storageKeys : List Bytes32
  deriving DecidableEq, Inhabited

/-- The fields `to` and `from` of the source are `toAddress` and `sender`. -/
structure Transaction where
  type : Option UInt8 := none
  nonce : Uint64 := 0
  gasPrice : Uint256 := 0
  gasLimit : Uint64 := 0
  toAddress : Option Address := none
  value : Uint256 := 0
  data : Bytes := []
  oddYParity : Bool := false
  chainId : Option Uint256 := none
  r : Uint256 := 0
  s : Uint256 := 0
  accessList : List AccessListEntry := []
  sender : Option Address := none
  deriving DecidableEq, Inhabited

/-- The sender is omitted, since it is derived from the signature. -/
def Transaction.equal (a b : Transaction) : Bool :=
  a.type = b.type && a.nonce = b.nonce && a.gasPrice = b.gasPrice && a.gasLimit = b.gasLimit &&
    a.toAddress = b.toAddress && a.value = b.value && a.data = b.data &&
    a.oddYParity = b.oddYParity && a.chainId = b.chainId && a.r = b.r && a.s = b.s &&
    a.accessList = b.accessList

namespace Ecdsa

def yParityAndChainIdToV (odd : Bool) (chainId : Option Uint256) : Uint256 :=
  match chainId with
  | some c => c * 2 + 35 + (if odd then 1 else 0)
  | none => if odd then 28 else 27

structure YParityAndChainId where
  odd : Bool
  chainId : Option Uint256
  deriving DecidableEq

def vToYParityAndChainId (v : Uint256) : YParityAndChainId :=
  if v = 27 ∨ v = 28 then ⟨v = 28, none⟩
  else
    let w := v - 35
    ⟨w.toNat % 2 = 1, some (w >>> 1)⟩

end Ecdsa

def Transaction.v (txn : Transaction) : Uint256 :=
  Ecdsa.yParityAndChainIdToV txn.oddYParity txn.chainId

def Transaction.setV (txn : Transaction) (v : Uint256) : Transaction :=
  let y := Ecdsa.vToYParityAndChainId v
  { txn with oddYParity := y.odd, chainId := y.chainId }

namespace Rlp
open ViewParsers

def rlpHeaderAccessListEntry (e : AccessListEntry) : Header :=
  ⟨true, kAddressLength + 1 + lengthVector lengthHash e.storageKeys⟩

def lengthAccessListEntry (e : AccessListEntry) : ℕ :=
  lengthOfLength (rlpHeaderAccessListEntry e).payloadLength + (rlpHeaderAccessListEntry e).payloadLength

def encodeAccessListEntryFields (e : AccessListEntry) : Bytes :=
  encodeFixed e.account ++ encodeVector lengthHash encodeFixed e.storageKeys

def encodeAccessListEntry (e : AccessListEntry) : Bytes :=
  encodeHeader (rlpHeaderAccessListEntry e) ++ encodeAccessListEntryFields e

def decodeAccessListEntryFields : Decoder AccessListEntry := do
  let account ← decodeFixed kAddressLength
  let storageKeys ← decodeVector (decodeFixed kHashLength)
  pure ⟨account, storageKeys⟩

def decodeAccessListEntry : Decoder AccessListEntry := decodeListOf decodeAccessListEntryFields

def encodeToAddress : Option Address → Bytes
  | some a => encodeFixed a
  | none => [byte kEmptyStringCode]

def lengthToAddress (a : Option Address) : ℕ := if a.isSome then kAddressLength + 1 else 1

def rlpHeaderTransaction (txn : Transaction) (forSigning : Bool) : Header where
  list := true
  payloadLength :=
    (if txn.type.isSome then lengthUint (txn.chainId.getD 0) else 0) +
    lengthUint txn.nonce + lengthUint txn.gasPrice + lengthUint txn.gasLimit +
    lengthToAddress txn.toAddress + lengthUint txn.value + lengthBytes txn.data +
    (if txn.type = some kEip2930TransactionType then
      lengthVector lengthAccessListEntry txn.accessList else 0) +
    (if !forSigning then
      (if txn.type.isSome then lengthBool txn.oddYParity else lengthUint txn.v) +
        lengthUint txn.r + lengthUint txn.s
    else match txn.type, txn.chainId with
      | none, some c => lengthUint c + 2
      | _, _ => 0)

def lengthTransaction (txn : Transaction) : ℕ :=
  let h := rlpHeaderTransaction txn false
  let rlpLen := lengthOfLength h.payloadLength + h.payloadLength
  if txn.type.isSome then lengthOfLength (rlpLen + 1) + rlpLen + 1 else rlpLen

/-- The fields that both formats share, from the nonce to the data. -/
def encodeCommonFields (txn : Transaction) : Bytes :=
  encodeUint txn.nonce ++ encodeUint txn.gasPrice ++ encodeUint txn.gasLimit ++
    encodeToAddress txn.toAddress ++ encodeUint txn.value ++ encodeBytes txn.data

def legacyEncode (txn : Transaction) (forSigning : Bool) : Bytes :=
  encodeHeader (rlpHeaderTransaction txn forSigning) ++ encodeCommonFields txn ++
    if !forSigning then encodeUint txn.v ++ encodeUint txn.r ++ encodeUint txn.s
    else match txn.chainId with
      | some c => encodeUint c ++ encodeUint (0 : Uint64) ++ encodeUint (0 : Uint64)
      | none => []

def eip2930Encode (txn : Transaction) (type : UInt8) (forSigning wrapIntoArray : Bool) : Bytes :=
  let h := rlpHeaderTransaction txn forSigning
  let rlpLen := lengthOfLength h.payloadLength + h.payloadLength
  (if wrapIntoArray then encodeHeader ⟨false, rlpLen + 1⟩ else []) ++ [type] ++
    encodeHeader h ++ encodeUint (txn.chainId.getD 0) ++ encodeCommonFields txn ++
    encodeVector lengthAccessListEntry encodeAccessListEntry txn.accessList ++
    if !forSigning then encodeBool txn.oddYParity ++ encodeUint txn.r ++ encodeUint txn.s else []

def encodeTransactionAs (txn : Transaction) (forSigning wrapEip2718IntoArray : Bool) : Bytes :=
  match txn.type with
  | some type => eip2930Encode txn type forSigning wrapEip2718IntoArray
  | none => legacyEncode txn forSigning

def encodeTransaction (txn : Transaction) : Bytes := encodeTransactionAs txn false true

/-- The field `to` is peeked at without a check that the view still holds a byte. -/
def decodeToAddress : Decoder (Option Address) := do
  let b ← peek
  if b = byte kEmptyStringCode then do
    removePrefix 1
    pure none
  else do
    let a ← decodeFixed kAddressLength
    pure (some a)

def legacyDecode (txn : Transaction) : Decoder Transaction := do
  let nonce ← decodeUint 64
  let gasPrice ← decodeUint 256
  let gasLimit ← decodeUint 64
  let toAddress ← decodeToAddress
  let value ← decodeUint 256
  let data ← decodeBytes
  let v ← decodeUint 256
  let r ← decodeUint 256
  let s ← decodeUint 256
  pure { txn.setV v with nonce, gasPrice, gasLimit, toAddress, value, data, r, s }

/-- The payload length that the list header announces is not compared with the fields. -/
def eip2930Decode (txn : Transaction) : Decoder Transaction := do
  let h ← decodeHeader
  if !h.list then fail .kUnexpectedString else
  let chainId ← decodeUint 256
  let nonce ← decodeUint 64
  let gasPrice ← decodeUint 256
  let gasLimit ← decodeUint 64
  let toAddress ← decodeToAddress
  let value ← decodeUint 256
  let data ← decodeBytes
  let accessList ← decodeVector decodeAccessListEntry
  let oddYParity ← decodeBool
  let r ← decodeUint 256
  let s ← decodeUint 256
  pure { txn with
    chainId := some chainId, nonce, gasPrice, gasLimit, toAddress, value, data, accessList,
    oddYParity, r, s }

/-- Decoding overwrites an existing transaction; a legacy one keeps its access list. -/
def decodeTransactionInto (txn : Transaction) : Decoder Transaction := do
  let h ← decodeHeader
  if h.list then do
    let n ← remaining
    let x ← legacyDecode { txn with type := none }
    let m ← remaining
    if m = n - h.payloadLength then pure x else fail .kListLengthMismatch
  else if h.payloadLength = 0 then fail .kInputTooShort
  else do
    let type ← peek
    removePrefix 1
    if type ≠ kEip2930TransactionType then fail .kUnsupportedEip2718Type else
    let eip2718View ← substr (h.payloadLength - 1)
    let x ← within eip2718View (eip2930Decode { txn with type := some type })
    if x.2 ≠ [] then fail .kListLengthMismatch else
    removePrefix (h.payloadLength - 1)
    pure x.1

def decodeTransaction : Decoder Transaction := decodeTransactionInto {}

end Rlp
end Silkworm
