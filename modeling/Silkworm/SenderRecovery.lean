import Silkworm.DbTables
import Silkworm.Runs
import Silkworm.TransactionValidity

/-!
# The recovery of senders

A farm reads the blocks of the canonical chain, packs their transactions into batches, and hands
these to workers, each of which has a thread of its own. The results are collected batch by batch
under the keys of the blocks. The threads of the farm and of the workers take their steps in any
order.
-/

namespace Silkworm.Senders
open BigEndian Db SortedTables

section Recovery

/-- The chain, and the libraries for hashes and signatures. -/
structure Crypto where
  config : ChainConfig
  keccak : Bytes → Bytes32
  recover : Bytes32 → Bytes → Bool → Option Bytes

structure Package where
  blockNum : Uint64
  hash : Bytes32
  oddYParity : Bool
  signature : Bytes

variable (c : Crypto)

/-- A transaction as it is packed by `fill_batch`, which refuses some signatures. -/
def package (blockNum : Uint64) (txn : Transaction) : Option Package :=
  let rev := c.config.revision blockNum
  let package : Package :=
    { blockNum
      hash := c.keccak (Rlp.encodeTransactionAs txn true false)
      oddYParity := txn.oddYParity
      signature := fixedBigEndian 32 txn.r.toNat ++ fixedBigEndian 32 txn.s.toNat }
  if Ecdsa.isValidSignature txn.r txn.s (.homestead ≤ rev) = false then none
  else
    match txn.chainId with
    | none => some package
    | some chainId =>
      if ¬.spuriousDragon ≤ rev then none
      else if chainId ≠ c.config.chainId.setWidth 256 then none
      else some package

def fillBatch (blockNum : Uint64) (transactions : List Transaction) : Option (List Package) :=
  transactions.mapM (package c blockNum)

/-- The last bytes of the hash of an uncompressed key. -/
def sender (p : Package) : Option Address :=
  match c.recover p.hash p.signature p.oddYParity with
  | some (b :: key) =>
    if b = 4 then
      some ⟨(c.keccak key).val.drop (kHashLength - kAddressLength), by
        rw [List.length_drop, (c.keccak key).property]
        rfl⟩
    else none
  | _ => none

end Recovery

section Workers

inductive WorkerStatus
  | idle | working | resultsReady | error
  deriving DecidableEq

/-- Where the thread of a worker is: before it clears its kick, in `wait_for_kick`, at its batch, in
`signal_completed`, or behind it. -/
inductive ThreadPoint
  | starting | waiting | working | signalling | signalled
  deriving DecidableEq

structure RecoveryWorker where
  batchId : ℕ := 0
  batch : Option (List Package) := none
  results : List (Uint64 × Bytes) := []
  status : WorkerStatus := .idle
  kicked : Bool := false
  point : ThreadPoint := .starting

variable (c : Crypto)

/-- The senders of each block in a row; the loop ends at a signature that yields none. -/
def recoverBatch (blockNum : Uint64) (current : Bytes) (results : List (Uint64 × Bytes)) :
    List Package → List (Uint64 × Bytes) × WorkerStatus
  | [] => (if current ≠ [] then results ++ [(blockNum, current)] else results, .resultsReady)
  | p :: ps =>
    let results' := if blockNum ≠ p.blockNum then results ++ [(blockNum, current)] else results
    let current' := if blockNum ≠ p.blockNum then [] else current
    match sender c p with
    | some a => recoverBatch p.blockNum (current' ++ a.val) results' ps
    | none => (results', .error)

/-- A step of the thread, but for the signal. It is undefined on a batch that is not there, or that
does not fit into the memory for the results. -/
def RecoveryWorker.next (maxBatchSize : ℕ) (w : RecoveryWorker) : Option RecoveryWorker :=
  match w.point with
  | .starting => some { w with kicked := false, point := .waiting }
  | .waiting =>
    if w.kicked then some { w with kicked := false, results := [], point := .working } else none
  | .working =>
    match w.batch with
    | some (p :: ps) =>
      if (p :: ps).length ≤ maxBatchSize then
        let result := recoverBatch c p.blockNum [] [] (p :: ps)
        some { w with results := result.1, status := result.2, point := .signalling }
      else none
    | _ => none
  | .signalling => none
  | .signalled => some { w with batch := none, point := .waiting }

end Workers

/-- A block with its body, in the order of the table of the bodies. -/
structure StoredBlock where
  number : Uint64
  hash : Bytes32
  transactions : List Transaction

inductive Status
  | succeded | headerNotFound | badHeaderHash | badHeaderSequence | blockNotFound | badBlockSequence
  | recoveryError
  deriving DecidableEq

/-- Where the thread of the farm is: at the next row, in `dispatch_batch` before a block or at the
end, in `bufferize_workers_results` called from there, in `wait_workers_completion`, or in the last
call of `bufferize_workers_results`. -/
inductive FarmPoint
  | reading
  | dispatching (next : Option StoredBlock)
  | bufferizing (next : Option StoredBlock)
  | waiting
  | collecting
  | done

structure RecoveryFarm where
  maxWorkers : ℕ
  maxBatchSize : ℕ
  workers : List RecoveryWorker := []
  /-- `headers_` from `headers_it_1_` on, and from `headers_it_2_` on. -/
  headersForReading : List Bytes32
  headersForResults : List Bytes32
  rows : List StoredBlock
  expectedBlockNum : Uint64
  batch : List Package := []
  batchId : ℕ := 0
  completedBatchId : ℕ := 0
  batchesCompleted : List (ℕ × ℕ) := []
  collected : List Entry := []
  ret : Status := .succeded
  point : FarmPoint := .reading

/-- All headers to the end of the table; the last one has to be the last of the segment. -/
def collectHeaders (heightTo : Uint64) (expected reached : Uint64) (headers : List Bytes32) :
    List (Uint64 × Bytes32) → Except Status (List Bytes32)
  | [] => if reached ≠ heightTo then .error .headerNotFound else .ok headers
  | (number, hash) :: rows =>
    if number ≠ expected then .error .badHeaderSequence
    else collectHeaders heightTo (expected + 1) number (headers ++ [hash]) rows

def fillCanonicalHeaders (hashes : List (Uint64 × Bytes32)) (heightFrom heightTo : Uint64) :
    Except Status (List Bytes32) :=
  match hashes.dropWhile fun row => row.1 ≠ heightFrom with
  | [] => .error .headerNotFound
  | row :: rows => collectHeaders heightTo heightFrom 0 [] (row :: rows)

/-- `recover` up to its loop, for a segment that the stages allow. -/
def startRecovery (hashes : List (Uint64 × Bytes32)) (bodies : List StoredBlock)
    (heightFrom heightTo : Uint64) (maxWorkers maxBatchSize : ℕ) : Except Status RecoveryFarm :=
  match fillCanonicalHeaders hashes heightFrom heightTo with
  | .error status => .error status
  | .ok headers =>
    if headers.length ≠ (heightTo - heightFrom + 1).toNat then .error .headerNotFound
    else
      match bodies.dropWhile fun row => ¬(row.number = heightFrom ∧ some row.hash = headers.head?) with
      | [] => .error .blockNotFound
      | row :: rows => .ok
        { maxWorkers, maxBatchSize
          headersForReading := headers
          headersForResults := headers
          rows := row :: rows
          expectedBlockNum := heightFrom }

namespace RecoveryFarm

variable (c : Crypto) (s : RecoveryFarm)

section Reading

/-- An exception in the loop: the results are not collected any more. -/
def fail : RecoveryFarm := { s with ret := .recoveryError, point := .waiting }

/-- The last batch is dispatched, unless it is empty. -/
def endOfBlocks : RecoveryFarm :=
  if s.batch.isEmpty then { s with point := .waiting } else { s with point := .dispatching none }

/-- Go on to the next header. -/
def advance : RecoveryFarm :=
  match s.headersForReading with
  | _ :: hash :: hashes =>
    { s with
      headersForReading := hash :: hashes
      expectedBlockNum := s.expectedBlockNum + 1
      point := .reading }
  | _ => endOfBlocks { s with headersForReading := [] }

def fill (row : StoredBlock) : RecoveryFarm :=
  match fillBatch c row.number row.transactions with
  | some packages => advance { s with batch := s.batch ++ packages }
  | none => s.fail

/-- The body of the loop over the bodies. -/
def read : RecoveryFarm :=
  match s.rows with
  | [] => s.endOfBlocks
  | row :: rows =>
    let s := { s with rows }
    if row.number < s.expectedBlockNum then s
    else if s.expectedBlockNum < row.number then { s with ret := .badBlockSequence, point := .done }
    else if some row.hash ≠ s.headersForReading.head? then s
    else if row.transactions.isEmpty then s.advance
    -- an empty batch is not dispatched
    else if s.maxBatchSize < s.batch.length + row.transactions.length ∧ ¬s.batch.isEmpty then
      { s with point := .dispatching (some row) }
    else s.fill c row

end Reading

section Dispatching

def firstIdle : Option ℕ := s.workers.findIdx? fun w => w.status = .idle

def setWorker (i : ℕ) (w : RecoveryWorker) : RecoveryFarm := { s with workers := s.workers.set i w }

/-- `set_work` on a worker, and what follows in `recover`. -/
def dispatch (i : ℕ) (w : RecoveryWorker) (next : Option StoredBlock) : RecoveryFarm :=
  let w := { w with batch := some s.batch, batchId := s.batchId, status := .working, kicked := true }
  let s := { s.setWorker i w with batchId := s.batchId + 1, batch := [] }
  match next with
  | some row => s.fill c row
  | none => { s with point := .waiting }

/-- The results of a worker get the next hashes of headers in turn. -/
def collect (results : List (Uint64 × Bytes)) : Option RecoveryFarm :=
  if results.length ≤ s.headersForResults.length then
    some { s with
      collected := s.collected ++ List.zipWith
        (fun (result : Uint64 × Bytes) (hash : Bytes32) =>
          (blockKey result.1 ++ hash.val, result.2)) results s.headersForResults
      headersForResults := s.headersForResults.drop results.length }
  else none

/-- One round of the loop of `bufferize_workers_results`. -/
def pull : Option RecoveryFarm :=
  match s.batchesCompleted with
  | [] => none
  | (i, _) :: batches =>
    let s := { s with batchesCompleted := batches }
    match s.workers[i]? with
    | none => none
    | some w =>
      match w.status with
      | .resultsReady => (s.setWorker i { w with status := .idle, results := [] }).collect w.results
      | .error =>
        match s.point with
        | .collecting => some { s with point := .done }
        | _ => some s.fail
      | _ => some s

end Dispatching

inductive Event
  | read | spawn | dispatch | pull | resume | settle
  | thread (i : ℕ)
  deriving DecidableEq

/-- A step of the thread of a worker. The signal waits for the signals of earlier batches. -/
def threadStep (i : ℕ) : Option RecoveryFarm :=
  match s.workers[i]? with
  | none => none
  | some w =>
    match w.point with
    | .signalling =>
      if s.completedBatchId = w.batchId then
        some { s.setWorker i { w with point := .signalled } with
          batchesCompleted := s.batchesCompleted ++ [(i, w.batchId)]
          completedBatchId := s.completedBatchId + 1 }
      else none
    | _ => (w.next c s.maxBatchSize).map (s.setWorker i)

/-- A step of the farm or of a worker. Where the farm only waits, it takes no step. -/
def exec : Event → Option RecoveryFarm
  | .read =>
    match s.point with
    | .reading => some (s.read c)
    | _ => none
  | .spawn =>
    match s.point with
    | .dispatching _ =>
      if s.firstIdle = none ∧ (s.workers.length = 0 ∨ s.workers.length ≠ s.maxWorkers) then
        some { s with workers := s.workers ++ [{}] }
      else none
    | _ => none
  | .dispatch =>
    match s.point, s.firstIdle with
    | .dispatching next, some i => s.workers[i]?.map fun w => s.dispatch c i w next
    | _, _ => none
  | .pull =>
    match s.point with
    | .dispatching next =>
      -- there are results of a worker, and no worker is idle
      if s.firstIdle = none ∧ s.workers.any fun w => w.status = .resultsReady ∨ w.status = .error then
        pull { s with point := .bufferizing next }
      else none
    | .bufferizing _ => s.pull
    | .collecting => s.pull
    | _ => none
  | .resume =>
    if s.batchesCompleted.isEmpty then
      match s.point with
      | .bufferizing next => some { s with point := .dispatching next }
      | .collecting => some { s with point := .done }
      | _ => none
    else none
  | .settle =>
    match s.point with
    | .waiting =>
      if s.workers.all fun w => w.status ≠ .working then
        some { s with point := if s.ret = .succeded then .collecting else .done }
      else none
    | _ => none
  | .thread i => s.threadStep c i

def Step (s : RecoveryFarm) (e : Event) (s' : RecoveryFarm) : Prop := s.exec c e = some s'

/-- What the steps do, and when they are taken. -/
inductive Took : Event → RecoveryFarm → Prop
  | read (hp : s.point = .reading) : Took .read (s.read c)
  | spawn {next : Option StoredBlock} (hp : s.point = .dispatching next)
      (hmax : s.workers.length = 0 ∨ s.workers.length ≠ s.maxWorkers) :
      Took .spawn { s with workers := s.workers ++ [{}] }
  | dispatch {next : Option StoredBlock} {i : ℕ} {w : RecoveryWorker}
      (hp : s.point = .dispatching next) (hi : s.firstIdle = some i) (hw : s.workers[i]? = some w) :
      Took .dispatch (s.dispatch c i w next)
  | pullEarly {next : Option StoredBlock} {s' : RecoveryFarm} (hp : s.point = .dispatching next)
      (hpull : pull { s with point := .bufferizing next } = some s') : Took .pull s'
  | pull {s' : RecoveryFarm}
      (hp : (∃ next, s.point = .bufferizing next) ∨ s.point = .collecting)
      (hpull : s.pull = some s') : Took .pull s'
  | resume {next : Option StoredBlock} (hp : s.point = .bufferizing next)
      (hq : s.batchesCompleted = []) : Took .resume { s with point := .dispatching next }
  | finish (hp : s.point = .collecting) (hq : s.batchesCompleted = []) :
      Took .resume { s with point := .done }
  | settle (hp : s.point = .waiting) (hwork : ∀ w ∈ s.workers, w.status ≠ .working) :
      Took .settle { s with point := if s.ret = .succeded then .collecting else .done }
  | thread {i : ℕ} {s' : RecoveryFarm} (h : s.threadStep c i = some s') : Took (.thread i) s'

theorem took_of_step {c : Crypto} {s s' : RecoveryFarm} {e : Event} (h : s.Step c e s') :
    s.Took c e s' := by
  rw [Step] at h
  cases e with
  | read =>
    cases hp : s.point with
    | reading =>
      simp only [exec, hp, Option.some.injEq] at h
      exact h ▸ .read hp
    | _ => simp [exec, hp] at h
  | spawn =>
    cases hp : s.point with
    | dispatching next =>
      simp only [exec, hp] at h
      split_ifs at h with hguard
      cases h
      rw [← hp]
      exact .spawn hp hguard.2
    | _ => simp [exec, hp] at h
  | dispatch =>
    cases hp : s.point with
    | dispatching next =>
      cases hi : s.firstIdle with
      | none => simp [exec, hp, hi] at h
      | some i =>
        simp only [exec, hp, hi] at h
        obtain ⟨w, hw, rfl⟩ := Option.map_eq_some_iff.mp h
        exact .dispatch hp hi hw
    | _ => simp [exec, hp] at h
  | pull =>
    cases hp : s.point with
    | dispatching next =>
      simp only [exec, hp] at h
      split_ifs at h
      exact .pullEarly hp h
    | bufferizing next =>
      simp only [exec, hp] at h
      exact .pull (.inl ⟨next, hp⟩) h
    | collecting =>
      simp only [exec, hp] at h
      exact .pull (.inr hp) h
    | _ => simp [exec, hp] at h
  | resume =>
    rw [exec] at h
    split_ifs at h with hq
    have hq := List.isEmpty_iff.mp hq
    cases hp : s.point with
    | bufferizing next =>
      simp only [hp, Option.some.injEq] at h
      exact h ▸ .resume hp hq
    | collecting =>
      simp only [hp, Option.some.injEq] at h
      exact h ▸ .finish hp hq
    | _ => simp [hp] at h
  | settle =>
    cases hp : s.point with
    | waiting =>
      simp only [exec, hp] at h
      by_cases hwork : (s.workers.all fun w => w.status ≠ .working) = true
      · rw [if_pos hwork] at h
        cases h
        exact .settle hp (by simpa using hwork)
      · rw [if_neg hwork] at h
        cases h
    | _ => simp [exec, hp] at h
  | thread i => exact .thread h

/-- Work is given to a thread that waits for it, and the last results are collected when all
batches have been announced. -/
def Calm : Event → Prop
  | .dispatch => ∀ i w, s.firstIdle = some i → s.workers[i]? = some w → w.point = .waiting
  | .settle => ∀ w ∈ s.workers, w.point ≠ .signalling
  | _ => True

def CalmStep (s : RecoveryFarm) (e : Event) (s' : RecoveryFarm) : Prop := s.Calm e ∧ s.Step c e s'

end RecoveryFarm

end Silkworm.Senders
