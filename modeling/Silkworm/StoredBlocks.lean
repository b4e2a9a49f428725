import Silkworm.BlockCodec
import Silkworm.DbTables

/-!
# Blocks in the database

A block is read from the tables of headers, bodies, transactions and senders under the canonical
hash of its number. A read may throw an exception; it is undefined where an assertion fails or a
decoder leaves its view.
-/

namespace Silkworm.Db
open Rlp SortedTables ViewParsers

structure ChainTables where
  canonicalHashes : PlainTable := {}
  headers : PlainTable := {}
  blockBodies : PlainTable := {}
  ethTx : PlainTable := {}
  senders : PlainTable := {}
  migrations : PlainTable := {}

/-- The exceptions of a read. The decoder of bodies throws a `DecodingResult` itself. -/
inductive ReadError
  | missingSenders | decodingError | decodingResult
  deriving DecidableEq

abbrev Read := ExceptT ReadError Option

def undefinedRead {α : Type} : Read α := ExceptT.mk none

def decodeStored {α : Type} (error : ReadError) (decoder : Decoder α) (rlp : Bytes) : Read α :=
  match decoder rlp with
  | .ok value _ => pure value
  | .error _ _ => throw error
  | _ => undefinedRead

def blockHashKey (blockNumber : Uint64) (hash : Bytes32) : Bytes := blockKey blockNumber ++ hash.val

/-- The addresses in the value of a block. -/
def splitSenders (data : Bytes) : List Address :=
  (List.range (data.length / kAddressLength)).map fun i =>
    ⟨((data.drop (i * kAddressLength)).take kAddressLength).rightpad kAddressLength 0, by
      rw [List.rightpad, List.length_append, List.length_replicate, List.length_take]
      omega⟩

section Readers

variable (chain : ChainTables)

def readTransactions (baseId count : Uint64) : Read (List Transaction) :=
  ((chain.ethTx.seekExact (bigU64 baseId)).take count.toNat).mapM fun e =>
    decodeStored .decodingError decodeTransaction e.2

def readSenders (blockNumber : Uint64) (hash : Bytes32) : Read (List Address) :=
  match chain.senders.get (blockHashKey blockNumber hash) with
  | none => pure []
  | some data => if data.length % kAddressLength = 0 then pure (splitSenders data) else undefinedRead

/-- `read_body` with the senders. -/
def readBody (blockNumber : Uint64) (hash : Bytes32) : Read (Option BlockBody) :=
  match chain.blockBodies.get (blockHashKey blockNumber hash) with
  | none => pure none
  | some rlp => do
    let body ← decodeStored .decodingResult decodeStoredBlockBody rlp
    let transactions ← readTransactions chain body.baseTxnId body.txnCount
    let senders ← readSenders chain blockNumber hash
    if senders.length ≠ transactions.length then throw .missingSenders
    else
      pure (some
        { transactions := List.zipWith (fun txn a => { txn with sender := some a }) transactions senders
          ommers := body.ommers })

def readBlock (blockNumber : Uint64) : Read (Option Block) :=
  match chain.canonicalHashes.get (blockKey blockNumber) with
  | none => pure none
  | some hash =>
    if h : hash.length = kHashLength then
      match chain.headers.get (blockHashKey blockNumber ⟨hash, h⟩) with
      | none => pure none
      | some rlp => do
        let header ← decodeStored .decodingError decodeBlockHeader rlp
        match ← readBody chain blockNumber ⟨hash, h⟩ with
        | none => pure none
        | some body => pure (some { toBlockBody := body, header })
    else undefinedRead

end Readers

section Parts

variable {chain : ChainTables} {n : Uint64} {hash : Bytes32} {rlp : Bytes} {header : BlockHeader}
  {body : BlockBody}

end Parts

end Silkworm.Db
