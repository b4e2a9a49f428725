import Silkworm.ExecutionStage
import Silkworm.HistoryIndex

/-!
# The index of the logs

For every topic, and every address that emits logs, the stage keeps the set of its blocks as bitmaps
in chunks. The logs are stored as CBOR. The listener of the decoder is told of every byte string in
it, and takes those with the length of a hash for topics and those with the length of an address for
addresses. The bitmaps are collected when they are full, and the collected parts are each merged with
the last chunk of their key.
-/

namespace Silkworm.Db
open BigEndian SortedTables Etl

/-- The receipts of a block; an index of a receipt is a number of 32 bits. -/
structure BlockReceipts where
  number : Uint64
  receipts : List Receipt
  length_lt : receipts.length < 2 ^ 32

/-- The receipts of some blocks are inserted into a buffer, which is written to the table. -/
def storeLogs (engine : Engine) (logs : PlainTable) (blocks : List BlockReceipts) : PlainTable :=
  (Buffer.flush (blocks.foldl (fun b block =>
    b.insertReceipts engine block.number block.receipts) {}) { logs }).logs

section Listener

/-- The bitmaps of the topics, or of the addresses, and what went to the collector. -/
structure BitmapBuffer where
  bitmaps : HashMap Bytes (Finset ℕ) := ∅
  allocated : ℕ := 0
  collected : List Entry := []

/-- The bitmaps hold numbers of 32 bits. -/
def BitmapBuffer.add (x : BitmapBuffer) (blockNumber : Uint64) (key : Bytes) : BitmapBuffer :=
  { x with
    bitmaps := x.bitmaps.set key (insert (blockNumber.toNat % 2 ^ 32) (x.bitmaps.findD key ∅))
    allocated := x.allocated + key.length }

def BitmapBuffer.flush (r : Roaring) (x : BitmapBuffer) : BitmapBuffer :=
  { x with
    bitmaps := ∅
    collected := x.collected ++ x.bitmaps.toList.map fun e => (e.1, r.write e.2) }

/-- `kBitmapBufferSizeLimit` of the stage. -/
def kLogBitmapLimit : ℕ := 512 * 2 ^ 20

def BitmapBuffer.flushFull (r : Roaring) (x : BitmapBuffer) : BitmapBuffer :=
  if kLogBitmapLimit < x.allocated then { x.flush r with allocated := 0 } else x

structure ListenerLogIndex where
  blockNumber : Uint64 := 0
  topics : BitmapBuffer := {}
  addrs : BitmapBuffer := {}

namespace ListenerLogIndex

def onBytes (l : ListenerLogIndex) (data : Bytes) : ListenerLogIndex :=
  if data.length = kHashLength then { l with topics := l.topics.add l.blockNumber data }
  else if data.length = kAddressLength then { l with addrs := l.addrs.add l.blockNumber data }
  else l

variable (r : Roaring) (byteStrings : Bytes → List Bytes)

/-- One entry of the table of the logs. -/
def extract (l : ListenerLogIndex) (e : Entry) : ListenerLogIndex :=
  let l := (byteStrings e.2).foldl onBytes
    { l with blockNumber := BitVec.ofNat 64 (ofBigEndian (e.1.take 8)) }
  { l with topics := l.topics.flushFull r, addrs := l.addrs.flushFull r }

end ListenerLogIndex

end Listener

section Loading

/-- `UINT32_MAX`, the suffix of the last chunk. -/
def kLastLogChunk : ℕ := 2 ^ 32 - 1

def logChunkIndex (key : Bytes) (suffix : ℕ) : Bytes :=
  key ++ fixedBigEndian 4 (BitVec.ofNat 32 suffix).toNat

variable (r : Roaring)

/-- Cut a bitmap into chunks. -/
def putLogChunks (append : Bool) (key : Bytes) : ℕ → Finset ℕ → PlainTable → Option PlainTable
  | 0, bm, t => if bm.card = 0 then some t else none
  | cuts + 1, bm, t =>
    if bm.card = 0 then some t
    else do
      let (currentChunk, rest) := r.cutLeft bm
      let suffix := if rest.card = 0 then kLastLogChunk else currentChunk.sup id
      let t ← putChunk append t (logChunkIndex key suffix) (r.write currentChunk)
      putLogChunks append key cuts rest t

/-- The loader: merge a bitmap with the last chunk. -/
def loadLogBitmap (append : Bool) (t : PlainTable) (e : Entry) : Option PlainTable := do
  let bm ← r.readSafe e.2
  match t.get (logChunkIndex e.1 kLastLogChunk) with
  | some previousBitmapBytes => do
    let previous ← r.readSafe previousBitmapBytes
    putLogChunks r false e.1 (bm ∪ previous).card (bm ∪ previous) t
  | none => putLogChunks r append e.1 bm.card bm t

def loadLogBitmaps (append : Bool) (x : BitmapBuffer) (t : PlainTable) : Option PlainTable :=
  (sortedEntries x.collected).foldlM (loadLogBitmap r append) t

end Loading

/-- The two indices with the number of the last block that was processed. -/
structure LogIndexes where
  topics : PlainTable := {}
  addresses : PlainTable := {}
  lastProcessedBlockNumber : Uint64 := 0

/-- Where a run starts. -/
def LogIndexes.start (full : Bool) (h : LogIndexes) : LogIndexes := if full then {} else h

/-- What a run reads. -/
def readLogs (r : Roaring) (byteStrings : Bytes → List Bytes) (logs : PlainTable)
    (lastProcessedBlockNumber : Uint64) : ListenerLogIndex :=
  let l := (logs.entries.dropWhile fun e => e.1 < bigU64 lastProcessedBlockNumber).foldl
    (ListenerLogIndex.extract r byteStrings) {}
  { l with topics := l.topics.flush r, addrs := l.addrs.flush r }

/-- The stage, which starts with the last block that was processed, or from scratch. -/
def logIndex (r : Roaring) (byteStrings : Bytes → List Bytes) (full : Bool) (logs : PlainTable)
    (h : LogIndexes) : Option LogIndexes := do
  let h := h.start full
  let l := readLogs r byteStrings logs h.lastProcessedBlockNumber
  let append := h.lastProcessedBlockNumber = 0
  let topics ← loadLogBitmaps r append l.topics h.topics
  let addresses ← loadLogBitmaps r append l.addrs h.addresses
  some { topics, addresses, lastProcessedBlockNumber := l.blockNumber }

end Silkworm.Db
