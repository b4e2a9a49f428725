import Silkworm.AccountHistory
import Silkworm.IndexedLogs

/-!
# Runs of the stage for the logs

The receipts of blocks are stored, and the stage is run in between. After every run the indices hold
the blocks of all byte strings in the stored logs with the length of a hash, or of an address.
-/

namespace Silkworm.Db
open BigEndian SortedTables Etl ChunkedSets

/-- Blocks whose receipts are stored, and the run of the stage after them. -/
structure LogRun where
  full : Bool := false
  blocks : List BlockReceipts

/-- The logs and their indices. -/
structure LogDatabase where
  logs : PlainTable := {}
  indexes : LogIndexes := {}

section Runs

variable (engine : Engine) (r : Roaring) (byteStrings : Bytes → List Bytes)

def runLogIndex (x : LogDatabase) (run : LogRun) : Option LogDatabase :=
  let logs := storeLogs engine x.logs run.blocks
  (logIndex r byteStrings run.full logs x.indexes).map (LogDatabase.mk logs)

def runLogIndexes (x : LogDatabase) (runs : List LogRun) : Option LogDatabase :=
  runs.foldlM (runLogIndex engine r byteStrings) x

/-- In a run every part fits into its index, and keys are only appended where there are none. -/
structure LogRunFits (logs : PlainTable) (h : LogIndexes) : Prop where
  topics : LoadsFitLogs r (h.lastProcessedBlockNumber = 0) h.topics
    (sortedEntries (readLogs r byteStrings logs h.lastProcessedBlockNumber).topics.collected)
  addresses : LoadsFitLogs r (h.lastProcessedBlockNumber = 0) h.addresses
    (sortedEntries (readLogs r byteStrings logs h.lastProcessedBlockNumber).addrs.collected)
  untouched : h.lastProcessedBlockNumber = 0 → h.topics.entries = [] ∧ h.addresses.entries = []

/-- Every run fits. -/
def LogRunsFit : LogDatabase → List LogRun → Prop
  | _, [] => True
  | x, run :: runs =>
    LogRunFits r byteStrings (storeLogs engine x.logs run.blocks) (x.indexes.start run.full) ∧
    ∀ x', runLogIndex engine r byteStrings x run = some x' → LogRunsFit x' runs

/-- An index holds the blocks of the byte strings with a length. -/
def IndexesLogs (size : ℕ) (logs t : PlainTable) : Prop :=
  ∃ s, LogsIndexed r size t s ∧
    ∀ key m, m ∈ s key ↔ ReadIn size (stringsOf byteStrings logs.entries) key m

/-- The number of the last entry. -/
def lastNumber (logs : PlainTable) : Uint64 := (logs.entries.getLast?.map entryNumber).getD 0

/-- The logs of the blocks are stored, and all of them are in the indices. -/
structure LogsUpToDate (blocks : List BlockReceipts) (x : LogDatabase) : Prop where
  stores : StoresLogs engine blocks x.logs
  topics : IndexesLogs r byteStrings kHashLength x.logs x.indexes.topics
  addresses : IndexesLogs r byteStrings kAddressLength x.logs x.indexes.addresses
  progress : x.indexes.lastProcessedBlockNumber = lastNumber x.logs

end Runs

section Reading

variable {engine : Engine} {r : Roaring} {byteStrings : Bytes → List Bytes}
  {blocks : List BlockReceipts} {logs : PlainTable}

theorem StoresLogs.key (h : StoresLogs engine blocks logs) {e : Entry} (he : e ∈ logs.entries) :
    ∃ i value, e = (logKey (entryNumber e) i, value) := by
  obtain ⟨block, -, he⟩ := List.mem_flatMap.mp ((h e).mp he)
  obtain ⟨i, receipt, -, -, rfl⟩ := mem_logEntries.mp he
  exact ⟨_, _, by rw [entryNumber_logKey]⟩

/-- An entry is passed if its block is before the one that is sought. -/
theorem StoresLogs.lt_iff (h : StoresLogs engine blocks logs) {e : Entry} (he : e ∈ logs.entries)
    (n : Uint64) : e.1 < bigU64 n ↔ (entryNumber e).toNat < n.toNat := by
  obtain ⟨i, value, heq⟩ := h.key he
  rw [heq, entryNumber_logKey]
  exact logKey_lt_iff

theorem StoresLogs.le_lastNumber (h : StoresLogs engine blocks logs) {e : Entry}
    (he : e ∈ logs.entries) : (entryNumber e).toNat ≤ (lastNumber logs).toNat := by
  cases hlast : logs.entries.getLast? with
  | none =>
    rw [List.getLast?_eq_none_iff.mp hlast] at he
    cases he
  | some last =>
    have hin : last ∈ logs.entries := List.mem_of_getLast? hlast
    obtain ⟨i, value, heq⟩ := h.key he
    obtain ⟨j, value', heq'⟩ := h.key hin
    have hnot : ¬last.1 < e.1 := le_of_getLast? hlast he
    rw [lastNumber, hlast, Option.map_some, Option.getD_some]
    by_contra hlt
    rw [heq, heq', logKey, logKey] at hnot
    exact hnot (append_lt_append_of_lt (bigU64_lt_iff.mpr (not_le.mp hlt))
      (by rw [length_bigU64, length_bigU64]) _ _)

theorem lastNumber_cases (logs : PlainTable) : logs.entries = [] ∧ lastNumber logs = 0 ∨
    ∃ e ∈ logs.entries, entryNumber e = lastNumber logs := by
  rw [lastNumber]
  cases hlast : logs.entries.getLast? with
  | none => exact .inl ⟨List.getLast?_eq_none_iff.mp hlast, rfl⟩
  | some last => exact .inr ⟨last, List.mem_of_getLast? hlast, rfl⟩

/-- What a run reads are the entries from a block on, of which the last is that of the table. -/
theorem exists_readLogs (r : Roaring) (byteStrings : Bytes → List Bytes)
    (h : StoresLogs engine blocks logs) (n : Uint64)
    (hn : n = 0 ∨ ∃ e ∈ logs.entries, n.toNat ≤ (entryNumber e).toNat) :
    ∃ l, (∀ e, e ∈ l ↔ e ∈ logs.entries ∧ n.toNat ≤ (entryNumber e).toNat) ∧
      (∃ parts, Gathered r kHashLength (stringsOf byteStrings l) parts
        (readLogs r byteStrings logs n).topics) ∧
      (∃ parts, Gathered r kAddressLength (stringsOf byteStrings l) parts
        (readLogs r byteStrings logs n).addrs) ∧
      (readLogs r byteStrings logs n).topics.bitmaps = ∅ ∧
      (readLogs r byteStrings logs n).addrs.bitmaps = ∅ ∧
      (readLogs r byteStrings logs n).blockNumber = lastNumber logs := by
  have hstart : Listened (fun size strings x => ∃ parts, Gathered r size strings parts x) [] {} :=
    ⟨⟨[], gathered_nil r _⟩, [], gathered_nil r _⟩
  obtain ⟨⟨⟨topics, htopics⟩, addrs, haddrs⟩, hnumber⟩ := hstart.foldl_extract
    (keptByReads_gathered r) byteStrings (logs.entries.dropWhile fun e => e.1 < bigU64 n)
  obtain ⟨topics', htopics', hnoTopics⟩ := htopics.flush
  obtain ⟨addrs', haddrs', hnoAddrs⟩ := haddrs.flush
  have hmem : ∀ e, e ∈ (logs.entries.dropWhile fun e => e.1 < bigU64 n) ↔
      e ∈ logs.entries ∧ n.toNat ≤ (entryNumber e).toNat := by
    intro e
    constructor
    · intro he
      have hin := List.dropWhile_subset _ he
      have hnot := not_lt_of_mem_dropWhile logs.sorted he
      rw [h.lt_iff hin, not_lt] at hnot
      exact ⟨hin, hnot⟩
    · rintro ⟨hin, hle⟩
      refine mem_dropWhile_of_not hin ?_
      rw [decide_eq_true_eq, h.lt_iff hin]
      exact not_lt.mpr hle
  refine ⟨_, hmem, ⟨topics', htopics'⟩, ⟨addrs', haddrs'⟩, hnoTopics, hnoAddrs, ?_⟩
  refine hnumber.trans ?_
  rw [lastNumber]
  obtain ⟨before, hbefore⟩ := List.dropWhile_suffix (l := logs.entries) fun e =>
    decide (e.1 < bigU64 n)
  cases hlast : (logs.entries.dropWhile fun e => e.1 < bigU64 n).getLast? with
  | some last =>
    have : logs.entries.getLast? = some last := by
      rw [← hbefore, List.getLast?_append, hlast, Option.some_or]
    rw [this]
  | none =>
    have hnone := List.getLast?_eq_none_iff.mp hlast
    have hall : logs.entries = [] := by
      rw [List.eq_nil_iff_forall_not_mem]
      intro e he
      obtain rfl | ⟨e', he', hle⟩ := hn
      · have := (hmem e).mpr ⟨he, Nat.zero_le _⟩
        rw [hnone] at this
        cases this
      · have := (hmem e').mpr ⟨he', hle⟩
        rw [hnone] at this
        cases this
    rw [hall]
    rfl

end Reading

/-- An index holds the blocks of the entries before a number, and perhaps of others. -/
structure StartsFrom (r : Roaring) (byteStrings : Bytes → List Bytes) (size : ℕ)
    (logs t : PlainTable) (n : Uint64) (s : Bytes → Finset ℕ) : Prop where
  indexed : LogsIndexed r size t s
  sound : ∀ key m, m ∈ s key → ReadIn size (stringsOf byteStrings logs.entries) key m
  complete : ∀ e ∈ logs.entries, (entryNumber e).toNat < n.toNat → ∀ key ∈ byteStrings e.2,
    key.length = size → (entryNumber e).toNat % 2 ^ 32 ∈ s key

section Steps

variable {engine : Engine} {r : Roaring} (hr : r.Lawful) {byteStrings : Bytes → List Bytes}
  {blocks : List BlockReceipts} {size : ℕ} {logs t : PlainTable} {s : Bytes → Finset ℕ}
  {n : Uint64}

theorem startsFrom_zero (r : Roaring) (byteStrings : Bytes → List Bytes) (size : ℕ)
    (logs : PlainTable) : StartsFrom r byteStrings size logs {} 0 fun _ => ∅ where
  indexed := logsIndexed_empty r size
  sound _ m hm := absurd hm (Finset.notMem_empty m)
  complete _ _ hlt := absurd hlt (Nat.not_lt_zero _)

/-- An index that holds all old entries holds those before the last of them when new ones have been
stored. -/
theorem IndexesLogs.startsFrom {old : PlainTable} (h : IndexesLogs r byteStrings size old t)
    (hold : ∀ e ∈ old.entries, e ∈ logs.entries)
    (hnew : ∀ e ∈ logs.entries, (entryNumber e).toNat < n.toNat → e ∈ old.entries) :
    ∃ s, StartsFrom r byteStrings size logs t n s := by
  obtain ⟨s, hindexed, hs⟩ := h
  refine ⟨s, hindexed, fun key m hm => ?_, fun e he hlt key hkey hlen => ?_⟩
  · obtain ⟨hlen, e, he, hread⟩ := readIn_stringsOf.mp ((hs key m).mp hm)
    exact readIn_stringsOf.mpr ⟨hlen, e, hold e he, hread⟩
  · rw [hs, readIn_stringsOf]
    exact ⟨hlen, e, hnew e he hlt, hkey, rfl⟩

include hr

/-- What was read from the number on is loaded. -/
theorem StartsFrom.exists_load {append : Bool} {x : BitmapBuffer} {l : List Entry}
    {parts : List (Bytes × Finset ℕ)} (h : StartsFrom r byteStrings size logs t n s)
    (hl : ∀ e, e ∈ l ↔ e ∈ logs.entries ∧ n.toNat ≤ (entryNumber e).toNat)
    (hx : Gathered r size (stringsOf byteStrings l) parts x) (hflushed : x.bitmaps = ∅)
    (hfit : LoadsFitLogs r append t (sortedEntries x.collected))
    (happend : append = true → t.entries = []) :
    ∃ t', loadLogBitmaps r append x t = some t' ∧ IndexesLogs r byteStrings size logs t' := by
  obtain ⟨t', s', hload, hindexed, hs'⟩ :=
    exists_loadLogBitmaps hr h.indexed hx hflushed hfit happend
  refine ⟨t', hload, s', hindexed, fun key m => ?_⟩
  rw [hs', readIn_stringsOf, readIn_stringsOf]
  constructor
  · rintro (hm | ⟨hlen, e, he, hread⟩)
    · exact readIn_stringsOf.mp (h.sound key m hm)
    · exact ⟨hlen, e, ((hl e).mp he).1, hread⟩
  · rintro ⟨hlen, e, he, hkey, rfl⟩
    rcases Nat.lt_or_ge (entryNumber e).toNat n.toNat with hlt | hle
    · exact .inl (h.complete e he hlt key hkey hlen)
    · exact .inr ⟨hlen, e, (hl e).mpr ⟨he, hle⟩, hkey, rfl⟩

/-- A run of the stage brings both indices up to date. -/
theorem exists_logIndex (h : StoresLogs engine blocks logs) {indexes : LogIndexes} {full : Bool}
    {topics addresses : Bytes → Finset ℕ}
    (htopics : StartsFrom r byteStrings kHashLength logs (indexes.start full).topics
      (indexes.start full).lastProcessedBlockNumber topics)
    (haddresses : StartsFrom r byteStrings kAddressLength logs (indexes.start full).addresses
      (indexes.start full).lastProcessedBlockNumber addresses)
    (hnumber : (indexes.start full).lastProcessedBlockNumber = 0 ∨ ∃ e ∈ logs.entries,
      (indexes.start full).lastProcessedBlockNumber.toNat ≤ (entryNumber e).toNat)
    (hfit : LogRunFits r byteStrings logs (indexes.start full)) :
    ∃ indexes', logIndex r byteStrings full logs indexes = some indexes' ∧
      IndexesLogs r byteStrings kHashLength logs indexes'.topics ∧
      IndexesLogs r byteStrings kAddressLength logs indexes'.addresses ∧
      indexes'.lastProcessedBlockNumber = lastNumber logs := by
  obtain ⟨l, hl, ⟨topicParts, htopicParts⟩, ⟨addressParts, haddressParts⟩, hnoTopics,
    hnoAddresses, hlast⟩ := exists_readLogs r byteStrings h _ hnumber
  obtain ⟨topics', hloadTopics, htopics'⟩ := htopics.exists_load hr hl htopicParts hnoTopics
    hfit.topics fun happend => (hfit.untouched (of_decide_eq_true happend)).1
  obtain ⟨addresses', hloadAddresses, haddresses'⟩ := haddresses.exists_load hr hl haddressParts
    hnoAddresses hfit.addresses fun happend => (hfit.untouched (of_decide_eq_true happend)).2
  refine ⟨⟨topics', addresses', _⟩, ?_, htopics', haddresses', hlast⟩
  rw [logIndex, hloadTopics, Option.bind_eq_bind, Option.bind_some, hloadAddresses]
  rfl

end Steps

section Runs

variable {engine : Engine} {r : Roaring} (hr : r.Lawful) {byteStrings : Bytes → List Bytes}
  {blocks : List BlockReceipts} {x : LogDatabase}

theorem logsUpToDate_start (engine : Engine) (r : Roaring) (byteStrings : Bytes → List Bytes) :
    LogsUpToDate engine r byteStrings [] {} := by
  have hempty (size : ℕ) : IndexesLogs r byteStrings size {} {} := by
    refine ⟨_, logsIndexed_empty r size, fun key m => iff_of_false (Finset.notMem_empty m) ?_⟩
    rw [readIn_stringsOf]
    rintro ⟨-, e, he, -⟩
    cases he
  exact ⟨fun e => Iff.rfl, hempty _, hempty _, rfl⟩

theorem StoresLogs.mem_storeLogs {logs : PlainTable} {new : List BlockReceipts}
    (h : StoresLogs engine blocks logs)
    (hsorted : (blocks ++ new).Pairwise fun block block' =>
      block.number.toNat < block'.number.toNat) {e : Entry} (he : e ∈ logs.entries) :
    e ∈ (Db.storeLogs engine logs new).entries := by
  rw [h.storeLogs hsorted, List.flatMap_append]
  exact List.mem_append_left _ ((h e).mp he)

/-- The block that a run starts with is the first one or has logs. -/
theorem LogsUpToDate.start_number (h : LogsUpToDate engine r byteStrings blocks x) {run : LogRun}
    (hsorted : (blocks ++ run.blocks).Pairwise fun block block' =>
      block.number.toNat < block'.number.toNat) :
    (x.indexes.start run.full).lastProcessedBlockNumber = 0 ∨
      ∃ e ∈ (storeLogs engine x.logs run.blocks).entries,
        (x.indexes.start run.full).lastProcessedBlockNumber.toNat ≤ (entryNumber e).toNat := by
  cases run.full with
  | true => exact .inl rfl
  | false =>
    rw [LogIndexes.start, if_neg Bool.false_ne_true, h.progress]
    rcases lastNumber_cases x.logs with ⟨-, hzero⟩ | ⟨last, hlast, hnumber⟩
    · exact .inl hzero
    · exact .inr ⟨last, h.stores.mem_storeLogs hsorted hlast, by rw [hnumber]⟩

/-- An index of no logs is empty. -/
theorem IndexesLogs.entries_eq_nil {size : ℕ} {logs t : PlainTable}
    (h : IndexesLogs r byteStrings size logs t) (hlogs : logs.entries = []) : t.entries = [] := by
  obtain ⟨s, hindexed, hs⟩ := h
  refine hindexed.entries_eq_nil fun key _ => Finset.eq_empty_of_forall_notMem fun m hm => ?_
  obtain ⟨-, e, he, -⟩ := readIn_stringsOf.mp ((hs key m).mp hm)
  rw [hlogs] at he
  cases he

include hr

/-- The receipts of new blocks are stored and indexed. -/
theorem LogsUpToDate.exists_runLogIndex (h : LogsUpToDate engine r byteStrings blocks x)
    {run : LogRun}
    (hsorted : (blocks ++ run.blocks).Pairwise fun block block' =>
      block.number.toNat < block'.number.toNat)
    (hfit : LogRunFits r byteStrings (storeLogs engine x.logs run.blocks)
      (x.indexes.start run.full)) :
    ∃ x', runLogIndex engine r byteStrings x run = some x' ∧
      LogsUpToDate engine r byteStrings (blocks ++ run.blocks) x' := by
  have hstores := h.stores.storeLogs hsorted
  have hold : ∀ e ∈ x.logs.entries, e ∈ (storeLogs engine x.logs run.blocks).entries :=
    fun e he => h.stores.mem_storeLogs hsorted he
  -- the entries of the new blocks are not before the last of the old ones
  have hnew : ∀ e ∈ (storeLogs engine x.logs run.blocks).entries,
      (entryNumber e).toNat < (lastNumber x.logs).toNat → e ∈ x.logs.entries := by
    intro e he hlt
    rw [hstores, List.flatMap_append, List.mem_append] at he
    rcases he with he | he
    · exact (h.stores e).mpr he
    · obtain ⟨block, hblock, he⟩ := List.mem_flatMap.mp he
      rcases lastNumber_cases x.logs with ⟨-, hzero⟩ | ⟨last, hlast, hnumber⟩
      · rw [hzero] at hlt
        exact absurd hlt (Nat.not_lt_zero _)
      · obtain ⟨block', hblock', hlast⟩ := List.mem_flatMap.mp ((h.stores last).mp hlast)
        have := (List.pairwise_append.mp hsorted).2.2 block' hblock' block hblock
        rw [← hnumber, entryNumber_of_mem he, entryNumber_of_mem hlast] at hlt
        omega
  have hstart : (∃ topics, StartsFrom r byteStrings kHashLength
        (storeLogs engine x.logs run.blocks) (x.indexes.start run.full).topics
        (x.indexes.start run.full).lastProcessedBlockNumber topics) ∧
      ∃ addresses, StartsFrom r byteStrings kAddressLength
        (storeLogs engine x.logs run.blocks) (x.indexes.start run.full).addresses
        (x.indexes.start run.full).lastProcessedBlockNumber addresses := by
    cases run.full with
    | true => exact ⟨⟨_, startsFrom_zero ..⟩, _, startsFrom_zero ..⟩
    | false =>
      rw [LogIndexes.start, if_neg Bool.false_ne_true, h.progress]
      exact ⟨h.topics.startsFrom hold hnew, h.addresses.startsFrom hold hnew⟩
  obtain ⟨⟨topics, htopics⟩, addresses, haddresses⟩ := hstart
  obtain ⟨indexes', hrun, htopics', haddresses', hprogress⟩ :=
    exists_logIndex hr hstores htopics haddresses (h.start_number hsorted) hfit
  refine ⟨⟨_, indexes'⟩, ?_, hstores, htopics', haddresses', hprogress⟩
  rw [runLogIndex, hrun]
  rfl

/-- After runs that fit the indices are up to date. -/
theorem LogsUpToDate.exists_runLogIndexes {runs : List LogRun}
    (h : LogsUpToDate engine r byteStrings blocks x)
    (hsorted : (blocks ++ runs.flatMap LogRun.blocks).Pairwise fun block block' =>
      block.number.toNat < block'.number.toNat)
    (hfit : LogRunsFit engine r byteStrings x runs) :
    ∃ x', runLogIndexes engine r byteStrings x runs = some x' ∧
      LogsUpToDate engine r byteStrings (blocks ++ runs.flatMap LogRun.blocks) x' := by
  induction runs generalizing blocks x with
  | nil =>
    refine ⟨x, rfl, ?_⟩
    rw [List.flatMap_nil, List.append_nil]
    exact h
  | cons run runs ih =>
    rw [List.flatMap_cons, ← List.append_assoc] at hsorted ⊢
    obtain ⟨x', hrun, h'⟩ := h.exists_runLogIndex hr (List.pairwise_append.mp hsorted).1 hfit.1
    obtain ⟨x'', hruns, h''⟩ := ih h' hsorted (hfit.2 x' hrun)
    refine ⟨x'', ?_, h''⟩
    rw [runLogIndexes, List.foldlM_cons, hrun]
    exact hruns

end Runs

end Silkworm.Db
