import Silkworm.CollectedEntries
import Silkworm.HashedState
import Mathlib.Data.Finset.Sort
import Mathlib.Order.Lattice.Nat

/-!
# The index of the history

For every account, or every slot, the stage keeps the set of the blocks that changed it, as bitmaps
in chunks. The changes are collected in a buffer of bitmaps, which goes to the collector when it
is full, so that a key may be collected several times with different parts of its set. The collected
parts are loaded in the order of their bytes, and each is merged with the last chunk.
-/

namespace Silkworm.Db
open BigEndian SortedTables Etl

/-- The bitmaps of 64 bit numbers, and the cut that makes a chunk of them. -/
structure Roaring where
  write : Finset ℕ → Bytes
  readSafe : Bytes → Option (Finset ℕ)
  cutLeft : Finset ℕ → Finset ℕ × Finset ℕ

/-- `UINT64_MAX`, the suffix of the last chunk. -/
def kLastChunk : ℕ := 2 ^ 64 - 1

def chunkIndex (key : Bytes) (suffix : ℕ) : Bytes := key ++ bigU64 (BitVec.ofNat 64 suffix)

section Extraction

/-- A key of the index is the address with, for a slot, the location. The latter is read as a string,
that is up to the first zero, and is undefined if there is none. -/
def compositeKey (storage : Bool) (e : Entry) : Option Bytes :=
  if storage then
    if e.1.length < 8 + kAddressLength ∨ e.2.length < kHashLength then none
    else
      let compositeKeyArray := (e.1.drop 8).take kAddressLength ++ e.2.take kHashLength
      if 0 ∈ compositeKeyArray then some (compositeKeyArray.takeWhile (· ≠ 0)) else none
  else if e.2.length < kAddressLength then none
  else some (e.2.take kAddressLength)

/-- What has been read of the changes, and what went to the collector. -/
structure Extraction where
  bitmaps : HashMap Bytes (Finset ℕ) := ∅
  allocatedSpace : ℕ := 0
  blockNumber : ℕ := 0
  collected : List Entry := []

def kBitmapBufferSizeLimit : ℕ := 256 * 2 ^ 20

/-- The buffer of bitmaps is full. -/
def Extraction.overflows (x : Extraction) : Bool :=
  kBitmapBufferSizeLimit < 64 * x.bitmaps.toList.length + x.allocatedSpace

variable (r : Roaring)

def Extraction.collect (x : Extraction) : Extraction :=
  { x with
    bitmaps := ∅
    allocatedSpace := 0
    collected := x.collected ++ x.bitmaps.toList.map fun e => (e.1, r.write e.2) }

/-- One change. -/
def extractChange (storage : Bool) (overflows : Extraction → Bool) (x : Extraction) (e : Entry) :
    Option Extraction := do
  let key ← compositeKey storage e
  if e.1.length < 8 then none
  else
    let blockNumber := ofBigEndian (e.1.take 8)
    let x := { x with
      bitmaps := x.bitmaps.set key (insert blockNumber (x.bitmaps.findD key ∅))
      allocatedSpace := x.allocatedSpace + 8
      blockNumber }
    some (if overflows x then x.collect r else x)

def extract (storage : Bool) (overflows : Extraction → Bool) (changes : List Entry) :
    Option Extraction :=
  (changes.foldlM (extractChange r storage overflows) {}).map (Extraction.collect r)

end Extraction

section Loading

variable (r : Roaring)

def putChunk (append : Bool) (t : PlainTable) (key data : Bytes) : Option PlainTable :=
  if append then putAppend t key data else some (t.put key data)

/-- Cut a bitmap into chunks. A cut that takes nothing would be repeated for ever; there are no
more cuts than elements otherwise. -/
def putChunks (append : Bool) (key : Bytes) : ℕ → Finset ℕ → PlainTable → Option PlainTable
  | 0, bm, t => if bm.card = 0 then some t else none
  | cuts + 1, bm, t =>
    if bm.card = 0 then some t
    else do
      let (currentChunk, rest) := r.cutLeft bm
      let suffix := if rest.card = 0 then kLastChunk else currentChunk.sup id
      let t ← putChunk append t (chunkIndex key suffix) (r.write currentChunk)
      putChunks append key cuts rest t

/-- Merge a bitmap with the last chunk. -/
def loadBitmap (append : Bool) (t : PlainTable) (e : Entry) : Option PlainTable := do
  let bm ← r.readSafe e.2
  match t.get (chunkIndex e.1 kLastChunk) with
  | some previousBitmapBytes => do
    let previous ← r.readSafe previousBitmapBytes
    putChunks r false e.1 (bm ∪ previous).card (bm ∪ previous) t
  | none => putChunks r append e.1 bm.card bm t

end Loading

/-- The index with the number of the last block that was processed. -/
structure History where
  index : PlainTable := {}
  progress : ℕ := 0

/-- The stage, which starts with the last block that was processed, or from scratch. -/
def historyIndex (r : Roaring) (storage full : Bool) (overflows : Extraction → Bool)
    (changeset : Table) (h : History) : Option History := do
  let start : History := if full then {} else h
  let extraction ← extract r storage overflows (changeset.entries.dropWhile fun e =>
    e.1 < bigU64 (BitVec.ofNat 64 start.progress))
  if extraction.collected = [] then some h
  else
    let index ← (sortedEntries extraction.collected).foldlM
      (loadBitmap r (start.progress = 0)) start.index
    some { index, progress := extraction.blockNumber }

section Reads

variable (r : Roaring)

/-- `Table::seek`, the first entry whose key is not below a bound. -/
def seek (t : Table) (key : Bytes) : Option Entry := t.entries.find? fun e => ¬e.1 < key

/-- `bitmap::seek`, the least element from a bound on. -/
def seekBitmap (bitmap : Finset ℕ) (n : ℕ) : Option ℕ :=
  (bitmap.sort (· ≤ ·)).find? fun x => n ≤ x

def accountHistoryKey (a : Address) (blockNumber : Uint64) : Bytes := a.val ++ bigU64 blockNumber

def storageHistoryKey (a : Address) (location : Bytes32) (blockNumber : Uint64) : Bytes :=
  a.val ++ location.val ++ bigU64 blockNumber

/-- The encoding of an account at a block, if the account was changed later. -/
def historicalAccount (tables : Tables) (index : PlainTable) (a : Address) (blockNumber : Uint64) :
    Option (Option Bytes) :=
  match seek index.toTable (accountHistoryKey a blockNumber) with
  | none => some none
  | some e =>
    if a.val.isPrefixOf e.1 then do
      let bitmap ← r.readSafe e.2
      match seekBitmap bitmap blockNumber.toNat with
      | none => some none
      | some changeBlock =>
        some (tables.plainAccountChangeSet.getSuffix (blockKey (BitVec.ofNat 64 changeBlock)) a.val)
    else some none

/-- The value of a slot at a block, if the slot was changed later. -/
def historicalStorage (tables : Tables) (index : PlainTable) (a : Address) (incarnation : Uint64)
    (location : Bytes32) (blockNumber : Uint64) : Option (Option Bytes) :=
  match seek index.toTable (storageHistoryKey a location blockNumber) with
  | none => some none
  | some e =>
    if e.1.take kAddressLength ≠ a.val ∨
        (e.1.drop kAddressLength).take kHashLength ≠ location.val then some none
    else do
      let bitmap ← r.readSafe e.2
      match seekBitmap bitmap blockNumber.toNat with
      | none => some none
      | some changeBlock =>
        some (tables.plainStorageChangeSet.getSuffix
          (storageChangeKey (BitVec.ofNat 64 changeBlock) a incarnation) location.val)

/-- `read_account` with a block number. -/
def readAccountAt (tables : Tables) (index : PlainTable) (a : Address) (blockNumber : Uint64) :
    Option (Option Account) := do
  match ← historicalAccount r tables index a blockNumber with
  | none => readAccount tables a
  | some [] => some none
  | some (b :: encoded) =>
    match decodeAccountFromStorage (b :: encoded) with
    | .ok account _ => some (some (restoreCodeHash tables a account))
    | _ => none

/-- `read_storage` with a block number. -/
def readStorageAt (tables : Tables) (index : PlainTable) (a : Address) (incarnation : Uint64)
    (location : Bytes32) (blockNumber : Uint64) : Option Bytes32 := do
  match ← historicalStorage r tables index a incarnation location blockNumber with
  | none => readStorage tables a incarnation location
  | some value =>
    if h : value.length ≤ kHashLength then
      some ⟨List.replicate (kHashLength - value.length) 0 ++ value, length_word h⟩
    else none

end Reads

end Silkworm.Db
