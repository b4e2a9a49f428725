import Silkworm.RunMerging
import Silkworm.SortedTables

/-!
# The collector of extracted entries

Entries are collected in a buffer, which is sorted and written to a file whenever it is full.
They are loaded in order, from the buffer or from a merge of the files. Files can be opened and
written, and a file that is open has an index below the number of file descriptors: an index
fits into its type.
-/

namespace Silkworm.Etl
open BigEndian SortedTables

section Buffers

structure Buffer where
  optimalSize : ℕ
  entries : List Entry := []

namespace Buffer

/-- The size of the data, without that of the entries themselves. -/
def size (b : Buffer) : ℕ := (b.entries.map fun e => e.1.length + e.2.length).sum

def put (b : Buffer) (e : Entry) : Buffer := { b with entries := b.entries ++ [e] }

def clear (b : Buffer) : Buffer := { b with entries := [] }

def overflows (b : Buffer) : Bool := b.optimalSize ≤ b.size

def sort (b : Buffer) : Buffer :=
  { b with entries := b.entries.mergeSort fun e e' => !decide (Before e' e) }

end Buffer

end Buffers

section Files

inductive EtlError where
  | invalidFileHandle | readFailed | outOfRange

/-- A length in the head of an entry, in the byte order of the machine. -/
def storeLength (n : ℕ) : Bytes :=
  [UInt8.ofNat n, UInt8.ofNat (n / 2 ^ 8), UInt8.ofNat (n / 2 ^ 16), UInt8.ofNat (n / 2 ^ 24)]

def loadLength (b : Bytes) : ℕ := b.foldr (fun x n => x.toNat + 2 ^ 8 * n) 0

def storeEntry (e : Entry) : Bytes :=
  storeLength e.1.length ++ (storeLength e.2.length ++ (e.1 ++ e.2))

/-- The file is what has not been read yet. -/
structure FileProvider where
  id : ℕ
  file : Bytes := []
  fileSize : ℕ := 0
  isOpen : Bool := false

namespace FileProvider

def reset (p : FileProvider) : FileProvider := { p with fileSize := 0, isOpen := false }

def flush (b : Buffer) (p : FileProvider) : FileProvider :=
  { p with
    file := b.entries.flatMap storeEntry
    fileSize := b.size + b.entries.length * 8
    isOpen := true }

/-- The next entry with the index of its provider, or nothing at the end of the file. -/
def readEntry (p : FileProvider) : Except EtlError (Option (Entry × ℕ) × FileProvider) :=
  if p.isOpen = false ∨ p.fileSize = 0 then .error .invalidFileHandle
  else if p.file.length < 8 then .ok (none, p.reset)
  else
    let keyLength := loadLength (p.file.take 4)
    let valueLength := loadLength ((p.file.drop 4).take 4)
    let data := p.file.drop 8
    if data.length < keyLength + valueLength then .error .readFailed
    else
      .ok (some (((data.take keyLength), (data.drop keyLength).take valueLength), p.id),
        { p with file := data.drop (keyLength + valueLength) })

end FileProvider

end Files

/-- A queue with a smallest element on top, whichever of several equal ones that is. -/
structure PriorityQueue where
  top : List (Entry × ℕ) → Option (Entry × ℕ)
  mem : ∀ q x, top q = some x → x ∈ q
  isSome : ∀ q, q ≠ [] → (top q).isSome
  smallest : ∀ q x, top q = some x → ∀ y ∈ q, ¬Before y.1 x.1

/-- A provider that has been read to the end is deleted. -/
structure Collector where
  buffer : Buffer
  fileProviders : List (Option FileProvider) := []
  size : ℕ := 0

namespace Collector

def init (optimalSize : ℕ) : Collector where
  buffer := { optimalSize }

def flushBuffer (c : Collector) : Collector :=
  if c.buffer.size ≠ 0 then
    let buffer := c.buffer.sort
    let provider := FileProvider.flush buffer { id := c.fileProviders.length }
    { c with fileProviders := c.fileProviders ++ [some provider], buffer := buffer.clear }
  else c

def collect (e : Entry) (c : Collector) : Collector :=
  let c := { c with buffer := c.buffer.put e, size := c.size + 1 }
  if c.buffer.overflows then c.flushBuffer else c

/-- Read from the provider of an index, which has to be there. -/
def readFrom (providers : List (Option FileProvider)) (i : ℕ) :
    Except EtlError (Option (Entry × ℕ) × FileProvider) :=
  match providers[i]? with
  | some (some p) => p.readEntry
  | _ => .error .outOfRange

/-- The first entry of each provider. -/
def fillQueue : List (Option FileProvider) →
    Except EtlError (List (Entry × ℕ) × List (Option FileProvider))
  | [] => .ok ([], [])
  | none :: _ => .error .outOfRange
  | some p :: ps => do
    let (item, p) ← p.readEntry
    let (queue, ps) ← fillQueue ps
    .ok (item.toList ++ queue, some p :: ps)

/-- Each round takes an entry out of the queue or a part of a file; the fuel bounds both. -/
def mergeLoop {T : Type} (pq : PriorityQueue) (loadFunc : Entry → T → T) :
    ℕ → List (Entry × ℕ) → List (Option FileProvider) → T →
      Except EtlError (T × List (Option FileProvider))
  | 0, queue, providers, table =>
    if queue = [] then .ok (table, providers) else .error .outOfRange
  | fuel + 1, queue, providers, table =>
    match pq.top queue with
    | none => .ok (table, providers)
    | some x => do
      let table := loadFunc x.1 table
      let (next, provider) ← readFrom providers x.2
      let queue := queue.erase x
      match next with
      | some item => mergeLoop pq loadFunc fuel (item :: queue) (providers.set x.2 (some provider)) table
      | none => mergeLoop pq loadFunc fuel queue (providers.set x.2 none) table

/-- What can be read from the files at most. -/
def fileLengths (providers : List (Option FileProvider)) : ℕ :=
  (providers.map fun p => (p.map fun p => p.file.length).getD 0).sum

/-- Load the collected entries into a table. -/
def load {T : Type} (pq : PriorityQueue) (loadFunc : Entry → T → T) (table : T) (c : Collector) :
    Except EtlError (T × Collector) :=
  if c.size = 0 then .ok (table, c)
  else if c.fileProviders = [] then
    let buffer := c.buffer.sort
    .ok (buffer.entries.foldl (fun table e => loadFunc e table) table, { c with buffer := buffer.clear })
  else do
    let c := c.flushBuffer
    let (queue, providers) ← fillQueue c.fileProviders
    let (table, providers) ← mergeLoop pq loadFunc (queue.length + fileLengths providers) queue
      providers table
    .ok (table, { c with fileProviders := providers, size := 0 })

end Collector

end Silkworm.Etl
