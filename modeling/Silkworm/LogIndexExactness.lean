import Silkworm.ExecutionProgress
import Silkworm.HistoryRounds
import Silkworm.SmallLogRuns

/-!
# What the indices of the logs hold

The listener of the decoder takes the data of a log for a topic, or for an address, if it has the
length of one, and numbers of blocks are cut to 32 bits. If the data is among the topics, or the
addresses, of its block and the numbers have 32 bits, the indices are exact, and else they are not.
-/

namespace Silkworm.Db
open BigEndian SortedTables Etl ChunkedSets

/-- The byte strings in the encoding of a log. -/
def logStrings (log : Log) : List Bytes :=
  log.address.val :: (log.topics.map Subtype.val ++ [log.data])

/-- The logs of a block. -/
def BlockReceipts.logs (block : BlockReceipts) : List Log := block.receipts.flatMap Receipt.logs

/-- Every byte string of the encoding is reported in order. -/
def ReportsStrings (engine : Engine) (byteStrings : Bytes → List Bytes) (block : BlockReceipts) :
    Prop :=
  ∀ receipt ∈ block.receipts,
    byteStrings (engine.cbor.encodeLogs receipt.logs) = receipt.logs.flatMap logStrings

/-- A chunk of the key has the number. -/
def HasBlock (r : Roaring) (t : PlainTable) (key : Bytes) (m : ℕ) : Prop :=
  ∃ k ≤ kLastLogChunk, ∃ v c, t.get (logChunkIndex key k) = some v ∧ r.readSafe v = some c ∧ m ∈ c

/-- The chunks of a topic, or of an address, have the blocks with a log that has it. -/
structure LogIndexExact (r : Roaring) (blocks : List BlockReceipts) (indexes : LogIndexes) :
    Prop where
  topics : ∀ (topic : Bytes32) (n : Uint64), HasBlock r indexes.topics topic.val n.toNat ↔
    ∃ block ∈ blocks, block.number = n ∧ ∃ log ∈ block.logs, topic ∈ log.topics
  addresses : ∀ (a : Address) (n : Uint64), HasBlock r indexes.addresses a.val n.toNat ↔
    ∃ block ∈ blocks, block.number = n ∧ ∃ log ∈ block.logs, log.address = a

/-- The data of no log is taken for a topic, or for an address, that the block does not have, and the
number of the block has 32 bits if there are any logs. -/
structure BlockReceipts.Indexable (block : BlockReceipts) : Prop where
  number : block.logs ≠ [] → block.number.toNat < 2 ^ 32
  topics : ∀ log ∈ block.logs, ∀ topic : Bytes32, log.data = topic.val →
    ∃ log' ∈ block.logs, topic ∈ log'.topics
  addresses : ∀ log ∈ block.logs, ∀ a : Address, log.data = a.val →
    ∃ log' ∈ block.logs, log'.address = a

section Exactness

variable {engine : Engine} {r : Roaring} (hr : r.Lawful) {byteStrings : Bytes → List Bytes}
  {blocks : List BlockReceipts} {size : ℕ} {t logs : PlainTable}

/-- The chunks of a key make up its set. -/
theorem LogsIndexed.hasBlock_iff {s : Bytes → Finset ℕ} (h : LogsIndexed r size t s) {key : Bytes}
    (hlen : key.length = size) {m : ℕ} : HasBlock r t key m ↔ m ∈ s key := by
  rw [(h.holds key hlen).unites.mem_iff]
  constructor
  · rintro ⟨k, hk, v, c, hv, hc, hm⟩
    refine ⟨k, c, ?_, hm⟩
    rw [logChunkMap, if_pos hk, hv, Option.bind_some, hc]
  · rintro ⟨k, c, hc, hm⟩
    have hk := logChunkMap_bound hc
    rw [logChunkMap, if_pos hk, Option.bind_eq_some_iff] at hc
    obtain ⟨v, hv, hc⟩ := hc
    exact ⟨k, hk, v, c, hv, hc, hm⟩

/-- The index has the blocks with the key among the byte strings of a log. -/
theorem IndexesLogs.hasBlock_iff (h : IndexesLogs r byteStrings size logs t)
    (hstores : StoresLogs engine blocks logs)
    (hreports : ∀ block ∈ blocks, ReportsStrings engine byteStrings block) {key : Bytes}
    (hlen : key.length = size) {m : ℕ} : HasBlock r t key m ↔
      ∃ block ∈ blocks, block.number.toNat % 2 ^ 32 = m ∧ ∃ log ∈ block.logs, key ∈ logStrings log := by
  obtain ⟨s, hindexed, hs⟩ := h
  rw [hindexed.hasBlock_iff hlen, hs, readIn_stringsOf]
  constructor
  · rintro ⟨-, e, he, hkey, rfl⟩
    obtain ⟨block, hblock, he⟩ := List.mem_flatMap.mp ((hstores e).mp he)
    obtain ⟨i, receipt, hi, -, rfl⟩ := mem_logEntries.mp he
    have hreceipt := List.mem_of_getElem? hi
    rw [hreports block hblock receipt hreceipt] at hkey
    obtain ⟨log, hlog, hkey⟩ := List.mem_flatMap.mp hkey
    exact ⟨block, hblock, by rw [entryNumber_logKey], log,
      List.mem_flatMap.mpr ⟨receipt, hreceipt, hlog⟩, hkey⟩
  · rintro ⟨block, hblock, rfl, log, hlog, hkey⟩
    obtain ⟨receipt, hreceipt, hlog⟩ := List.mem_flatMap.mp hlog
    obtain ⟨i, hi⟩ := List.mem_iff_getElem?.mp hreceipt
    have he : (logKey block.number (BitVec.ofNat 32 i), engine.cbor.encodeLogs receipt.logs) ∈
        logEntries engine block :=
      mem_logEntries.mpr ⟨i, receipt, hi, List.ne_nil_of_mem hlog, rfl⟩
    refine ⟨hlen, _, (hstores _).mpr (List.mem_flatMap.mpr ⟨block, hblock, he⟩), ?_, ?_⟩
    · rw [hreports block hblock receipt hreceipt]
      exact List.mem_flatMap.mpr ⟨log, hlog, hkey⟩
    · rw [entryNumber_logKey]

theorem mem_logStrings_topic {log : Log} {topic : Bytes32} :
    topic.val ∈ logStrings log ↔ topic ∈ log.topics ∨ log.data = topic.val := by
  have hne : topic.val ≠ log.address.val := by
    intro heq
    have := congrArg List.length heq
    rw [topic.property, log.address.property] at this
    exact absurd this (by decide)
  rw [logStrings, List.mem_cons, or_iff_right hne, List.mem_append, List.mem_singleton, eq_comm,
    List.mem_map_of_injective Subtype.val_injective]

theorem mem_logStrings_address {log : Log} {a : Address} :
    a.val ∈ logStrings log ↔ log.address = a ∨ log.data = a.val := by
  have hnot : a.val ∉ log.topics.map Subtype.val := by
    intro hin
    obtain ⟨topic, -, heq⟩ := List.mem_map.mp hin
    have := congrArg List.length heq
    rw [topic.property, a.property] at this
    exact absurd this (by decide)
  rw [logStrings, List.mem_cons, List.mem_append, or_iff_right hnot, List.mem_singleton,
    Subtype.val_inj, eq_comm, eq_comm (a := a.val)]

variable {x : LogDatabase} (h : LogsUpToDate engine r byteStrings blocks x)
  (hreports : ∀ block ∈ blocks, ReportsStrings engine byteStrings block)

include h hreports

/-- The chunks of a topic have the blocks with a log that has it, as a topic or as data. -/
theorem LogsUpToDate.hasTopic_iff {topic : Bytes32} {m : ℕ} :
    HasBlock r x.indexes.topics topic.val m ↔ ∃ block ∈ blocks, block.number.toNat % 2 ^ 32 = m ∧
      ∃ log ∈ block.logs, topic ∈ log.topics ∨ log.data = topic.val := by
  simp only [h.topics.hasBlock_iff h.stores hreports topic.property, mem_logStrings_topic]

theorem LogsUpToDate.hasAddress_iff {a : Address} {m : ℕ} :
    HasBlock r x.indexes.addresses a.val m ↔ ∃ block ∈ blocks, block.number.toNat % 2 ^ 32 = m ∧
      ∃ log ∈ block.logs, log.address = a ∨ log.data = a.val := by
  simp only [h.addresses.hasBlock_iff h.stores hreports a.property, mem_logStrings_address]

/-- If nothing is taken for what it is not, the indices are exact. -/
theorem LogsUpToDate.exact_of_indexable (hblocks : ∀ block ∈ blocks, block.Indexable) :
    LogIndexExact r blocks x.indexes := by
  have hnumber {block : BlockReceipts} (hblock : block ∈ blocks) {log : Log}
      (hlog : log ∈ block.logs) : block.number.toNat % 2 ^ 32 = block.number.toNat :=
    Nat.mod_eq_of_lt ((hblocks block hblock).number (List.ne_nil_of_mem hlog))
  refine ⟨fun topic n => ?_, fun a n => ?_⟩
  · rw [h.hasTopic_iff hreports]
    apply exists_congr
    intro block
    apply and_congr_right
    intro hblock
    constructor
    · rintro ⟨hn, log, hlog, htopic⟩
      rw [hnumber hblock hlog] at hn
      refine ⟨BitVec.eq_of_toNat_eq hn, ?_⟩
      rcases htopic with htopic | hdata
      · exact ⟨log, hlog, htopic⟩
      · exact (hblocks block hblock).topics log hlog topic hdata
    · rintro ⟨rfl, log, hlog, htopic⟩
      exact ⟨hnumber hblock hlog, log, hlog, .inl htopic⟩
  · rw [h.hasAddress_iff hreports]
    apply exists_congr
    intro block
    apply and_congr_right
    intro hblock
    constructor
    · rintro ⟨hn, log, hlog, ha⟩
      rw [hnumber hblock hlog] at hn
      refine ⟨BitVec.eq_of_toNat_eq hn, ?_⟩
      rcases ha with ha | hdata
      · exact ⟨log, hlog, ha⟩
      · exact (hblocks block hblock).addresses log hlog a hdata
    · rintro ⟨rfl, log, hlog, ha⟩
      exact ⟨hnumber hblock hlog, log, hlog, .inl ha⟩

/-- If the indices are exact, nothing was taken for what it is not. -/
theorem LogsUpToDate.indexable_of_exact (hexact : LogIndexExact r blocks x.indexes)
    (hsorted : blocks.Pairwise fun block block' => block.number.toNat < block'.number.toNat)
    {block : BlockReceipts} (hblock : block ∈ blocks) : block.Indexable := by
  have hnumber (hlogs : block.logs ≠ []) : block.number.toNat < 2 ^ 32 := by
    obtain ⟨log, hlog⟩ := List.exists_mem_of_ne_nil _ hlogs
    have hhas := (hexact.addresses log.address block.number).mpr ⟨block, hblock, rfl, log, hlog, rfl⟩
    obtain ⟨block', -, hmod, -⟩ := (h.hasAddress_iff hreports).mp hhas
    rw [← hmod]
    exact Nat.mod_lt _ (Nat.two_pow_pos 32)
  have hmod {log : Log} (hlog : log ∈ block.logs) :
      block.number.toNat % 2 ^ 32 = block.number.toNat :=
    Nat.mod_eq_of_lt (hnumber (List.ne_nil_of_mem hlog))
  have hnodup : (blocks.map BlockReceipts.number).Nodup :=
    List.pairwise_map.mpr (hsorted.imp fun hlt heq => hlt.ne (congrArg BitVec.toNat heq))
  have hsame {block' : BlockReceipts} (hblock' : block' ∈ blocks)
      (hn : block'.number = block.number) : block' = block :=
    List.inj_on_of_nodup_map hnodup hblock' hblock hn
  refine ⟨hnumber, fun log hlog topic hdata => ?_, fun log hlog a hdata => ?_⟩
  · have hhas := (h.hasTopic_iff hreports).mpr ⟨block, hblock, hmod hlog, log, hlog, .inr hdata⟩
    obtain ⟨block', hblock', hn, hemits⟩ := (hexact.topics topic block.number).mp hhas
    rw [hsame hblock' hn] at hemits
    exact hemits
  · have hhas := (h.hasAddress_iff hreports).mpr ⟨block, hblock, hmod hlog, log, hlog, .inr hdata⟩
    obtain ⟨block', hblock', hn, hemits⟩ := (hexact.addresses a block.number).mp hhas
    rw [hsame hblock' hn] at hemits
    exact hemits

end Exactness

/-- In runs in which the bitmaps are not full, and with numbers of 32 bits, whether the indices
are exact depends on the data alone. -/
theorem runLogIndexes_exact_iff_of_small {engine : Engine} {r : Roaring} (hr : r.Lawful)
    {byteStrings : Bytes → List Bytes} {runs : List LogRun}
    (hsorted : (runs.flatMap LogRun.blocks).Pairwise fun block block' =>
      block.number.toNat < block'.number.toNat)
    (hnumbers : ∀ block ∈ runs.flatMap LogRun.blocks,
      0 < block.number.toNat ∧ block.number.toNat < 2 ^ 32)
    (hreports : ∀ block ∈ runs.flatMap LogRun.blocks, ReportsStrings engine byteStrings block)
    (hsmall : LogRunsSmall engine r byteStrings {} runs) :
    ∃ x, runLogIndexes engine r byteStrings {} runs = some x ∧
      (LogIndexExact r (runs.flatMap LogRun.blocks) x.indexes ↔
        ∀ block ∈ runs.flatMap LogRun.blocks, block.Indexable) := by
  have hstart := logsUpToDate_start engine r byteStrings
  obtain ⟨x, hrun, h⟩ := hstart.exists_runLogIndexes hr hsorted
    (hstart.logRunsFit hr (indexesBounded_empty r) hsorted hnumbers hsmall)
  rw [List.nil_append] at h
  exact ⟨x, hrun, fun hexact block hblock => h.indexable_of_exact hreports hexact hsorted hblock,
    h.exact_of_indexable hreports⟩

/-- The indices are exact after all runs if and only if, in every block, no data is taken for a topic
or an address that is not there, and the number has 32 bits. -/
theorem runLogIndexes_exact_iff {engine : Engine} {r : Roaring} (hr : r.Lawful)
    {byteStrings : Bytes → List Bytes} {runs : List LogRun}
    (hsorted : (runs.flatMap LogRun.blocks).Pairwise fun block block' =>
      block.number.toNat < block'.number.toNat)
    (hreports : ∀ block ∈ runs.flatMap LogRun.blocks, ReportsStrings engine byteStrings block)
    (hfit : LogRunsFit engine r byteStrings {} runs) :
    (∃ x, runLogIndexes engine r byteStrings {} runs = some x ∧
      LogIndexExact r (runs.flatMap LogRun.blocks) x.indexes) ↔
    ∀ block ∈ runs.flatMap LogRun.blocks, block.Indexable := by
  obtain ⟨x, hrun, h⟩ :=
    (logsUpToDate_start engine r byteStrings).exists_runLogIndexes hr hsorted hfit
  rw [List.nil_append] at h
  constructor
  · rintro ⟨x', hrun', hexact⟩ block hblock
    cases hrun.symm.trans hrun'
    exact h.indexable_of_exact hreports hexact hsorted hblock
  · intro hblocks
    exact ⟨x, hrun, h.exact_of_indexable hreports hblocks⟩

section Examples

/-- The first byte, or bytes, of an item of CBOR with its type and argument. -/
def cborHead (type n : ℕ) : Bytes :=
  if n < 24 then [UInt8.ofNat (32 * type + n)]
  else if n < 2 ^ 8 then UInt8.ofNat (32 * type + 24) :: fixedBigEndian 1 n
  else if n < 2 ^ 16 then UInt8.ofNat (32 * type + 25) :: fixedBigEndian 2 n
  else if n < 2 ^ 32 then UInt8.ofNat (32 * type + 26) :: fixedBigEndian 4 n
  else UInt8.ofNat (32 * type + 27) :: fixedBigEndian 8 n

def cborItems : CborEncoder where
  null := [0xf6]
  array n := cborHead 4 n
  int v := cborHead 0 v.toNat
  bytes bs := cborHead 2 bs.length ++ bs

/-- The byte strings among the items. -/
def cborStrings : ℕ → Bytes → List Bytes
  | items + 1, first :: rest =>
    let size := if first.toNat % 32 < 24 then 0 else 2 ^ (first.toNat % 32 - 24)
    let n := if first.toNat % 32 < 24 then first.toNat % 32 else ofBigEndian (rest.take size)
    let rest := rest.drop size
    if first.toNat / 32 = 2 then rest.take n :: cborStrings items (rest.drop n)
    else cborStrings items rest
  | _, _ => []

def cborEngine : Engine := { idleEngine with cbor := cborItems }

def wordBytes (x : ℕ) : Bytes :=
  [UInt8.ofNat x, UInt8.ofNat (x / 2 ^ 8), UInt8.ofNat (x / 2 ^ 16), UInt8.ofNat (x / 2 ^ 24)]

def words : Bytes → List ℕ
  | a :: b :: c :: d :: rest =>
    (a.toNat + 2 ^ 8 * b.toNat + 2 ^ 16 * c.toNat + 2 ^ 24 * d.toNat) :: words rest
  | _ => []

/-- Numbers below 2^16 are in the format of one container, and others as they are. -/
def wordBitmaps : Roaring where
  write s :=
    if ∀ x ∈ s, x < 65536 then
      [0x3a, 0x30, 0, 0, 1, 0, 0, 0, 0, 0, UInt8.ofNat (s.card - 1),
        UInt8.ofNat ((s.card - 1) / 256), 0x10, 0, 0, 0] ++
        s.sort.flatMap fun x => [UInt8.ofNat x, UInt8.ofNat (x / 256)]
    else 0 :: s.sort.flatMap wordBytes
  readSafe bytes :=
    match bytes with
    | 0 :: rest => some (words rest).toFinset
    | bytes => some (containerValues (bytes.drop 16)).toFinset
  cutLeft := (arrayBitmaps []).cutLeft

theorem words_flatMap {values : List ℕ} (h : ∀ x ∈ values, x ≤ kLastLogChunk) :
    words (values.flatMap wordBytes) = values := by
  induction values with
  | nil => rfl
  | cons x values ih =>
    obtain ⟨hx, hvalues⟩ := List.forall_mem_cons.mp h
    rw [kLastLogChunk] at hx
    rw [List.flatMap_cons, wordBytes, List.cons_append, List.cons_append, List.cons_append,
      List.cons_append, List.nil_append, words, ih hvalues]
    congr 1
    simp only [UInt8.toNat_ofNat']
    omega

theorem words_le (bytes : Bytes) : ∀ x ∈ words bytes, x ≤ kLastLogChunk := by
  fun_induction words bytes with
  | case1 a b c d rest ih =>
    intro x hx
    rcases List.mem_cons.mp hx with rfl | hx
    · have := a.toNat_lt
      have := b.toNat_lt
      have := c.toNat_lt
      have := d.toNat_lt
      rw [kLastLogChunk]
      omega
    · exact ih x hx
  | case2 => simp

theorem containerValues_le (bytes : Bytes) : ∀ x ∈ containerValues bytes, x ≤ kLastLogChunk := by
  fun_induction containerValues bytes with
  | case1 low high rest ih =>
    intro x hx
    rcases List.mem_cons.mp hx with rfl | hx
    · have := low.toNat_lt
      have := high.toNat_lt
      rw [kLastLogChunk]
      omega
    · exact ih x hx
  | case2 => simp

theorem lawful_wordBitmaps : wordBitmaps.Lawful where
  roundTrips s hs := by
    by_cases hsmall : ∀ x ∈ s, x < 65536
    · have hvalues : ∀ x ∈ s.sort, x < 65536 := fun x hx => hsmall x ((Finset.mem_sort _).mp hx)
      refine (congrArg wordBitmaps.readSafe (if_pos hsmall)).trans (congrArg some ?_)
      change (containerValues (s.sort.flatMap fun x => _)).toFinset = s
      rw [containerValues_flatMap hvalues, Finset.sort_toFinset]
    · have hvalues : ∀ x ∈ s.sort, x ≤ kLastLogChunk := fun x hx => hs x ((Finset.mem_sort _).mp hx)
      refine (congrArg wordBitmaps.readSafe (if_neg hsmall)).trans (congrArg some ?_)
      rw [words_flatMap hvalues, Finset.sort_toFinset]
  bounded {bytes s} h n hn := by
    have hread : ∃ values : List ℕ, s = values.toFinset ∧ ∀ x ∈ values, x ≤ kLastLogChunk := by
      rw [wordBitmaps] at h
      dsimp only at h
      split at h
      · exact ⟨_, (Option.some.inj h).symm, words_le _⟩
      · exact ⟨_, (Option.some.inj h).symm, containerValues_le _⟩
    obtain ⟨values, rfl, hvalues⟩ := hread
    exact hvalues n (List.mem_toFinset.mp hn)
  cutsLeft := cutsLeft_arrayBitmaps []

/-- A block with a log whose topic is zero. -/
def loggingBlock (data : Bytes) : BlockReceipts where
  number := 1
  receipts := [{ logs := [{ address := default, topics := [default], data }] }]
  length_lt := Nat.one_lt_two_pow (by decide)

def oneData : Bytes32 := FixedBytes.replicate 32 1

def reportedStrings (bytes : Bytes) : List Bytes := cborStrings bytes.length bytes

theorem reportsStrings_logging {data : Bytes} (h : data ∈ [default, oneData].map Subtype.val) :
    ReportsStrings cborEngine reportedStrings (loggingBlock data) := by
  intro receipt hreceipt
  cases List.mem_singleton.mp hreceipt
  clear hreceipt
  revert data
  decide

theorem logRunsSmall_logging {data : Bytes} (h : data ∈ [default, oneData].map Subtype.val) :
    LogRunsSmall cborEngine wordBitmaps reportedStrings {} [{ blocks := [loggingBlock data] }] := by
  have hentries : (storeLogs cborEngine {} [loggingBlock data]).entries =
      [(logKey 1 0, cborEngine.cbor.encodeLogs
        [{ address := default, topics := [default], data }])] := rfl
  have hsum : ((stringsOf reportedStrings ((storeLogs cborEngine {} [loggingBlock data]).entries.dropWhile
      fun e => e.1 < bigU64 0)).map fun x => x.2.length).sum = 84 := by
    rw [hentries]
    clear hentries
    revert data
    decide
  refine ⟨fun size => (allocatedSize_le size _).trans ?_, fun _ _ => trivial⟩
  exact hsum.le.trans (by decide)

theorem indexable_logging {data : Bytes} (h : data = (default : Bytes32).val) :
    (loggingBlock data).Indexable := by
  subst h
  refine ⟨fun _ => by decide, fun log hlog topic hdata => ?_, fun log hlog a hdata => ?_⟩
  · cases List.mem_singleton.mp hlog
    exact ⟨_, List.mem_singleton_self _, List.mem_singleton.mpr (Subtype.ext hdata.symm)⟩
  · cases List.mem_singleton.mp hlog
    have := congrArg List.length hdata
    rw [a.property] at this
    exact absurd this (by decide)

def loggingRuns (data : Bytes) : List LogRun := [{ blocks := [loggingBlock data] }]

theorem logRunsFit_logging {data : Bytes} (h : data ∈ [default, oneData].map Subtype.val) :
    LogRunsFit cborEngine wordBitmaps reportedStrings {} (loggingRuns data) := by
  refine (logsUpToDate_start ..).logRunsFit lawful_wordBitmaps (indexesBounded_empty _)
    (List.pairwise_singleton _ _) (fun block hblock => ?_) (logRunsSmall_logging h)
  cases List.mem_singleton.mp hblock
  exact ⟨Nat.one_pos, Nat.one_lt_two_pow (by decide)⟩

theorem runLogIndexes_exact_logging :
    ∃ x, runLogIndexes cborEngine wordBitmaps reportedStrings {}
        (loggingRuns (default : Bytes32).val) = some x ∧
      LogIndexExact wordBitmaps [loggingBlock (default : Bytes32).val] x.indexes := by
  have hdata : (default : Bytes32).val ∈ [default, oneData].map Subtype.val := List.mem_cons_self
  refine (runLogIndexes_exact_iff lawful_wordBitmaps (List.pairwise_singleton _ _)
    (fun block hblock => ?_) (logRunsFit_logging hdata)).mpr fun block hblock => ?_
  · cases List.mem_singleton.mp hblock
    exact reportsStrings_logging hdata
  · cases List.mem_singleton.mp hblock
    exact indexable_logging rfl

/-- The data of the log is found as a topic. -/
theorem not_logIndexExact_oneData :
    wordBitmaps.Lawful ∧ ReportsStrings cborEngine reportedStrings (loggingBlock oneData.val) ∧
    ∃ x, runLogIndexes cborEngine wordBitmaps reportedStrings {} (loggingRuns oneData.val) = some x ∧
      HasBlock wordBitmaps x.indexes.topics oneData.val 1 ∧
      (∀ log ∈ (loggingBlock oneData.val).logs, oneData ∉ log.topics) ∧
      ¬LogIndexExact wordBitmaps [loggingBlock oneData.val] x.indexes := by
  have hdata : oneData.val ∈ [default, oneData].map Subtype.val :=
    List.mem_cons_of_mem _ List.mem_cons_self
  have hreports : ∀ block ∈ [loggingBlock oneData.val],
      ReportsStrings cborEngine reportedStrings block := by
    intro block hblock
    cases List.mem_singleton.mp hblock
    exact reportsStrings_logging hdata
  have htopics : ∀ log ∈ (loggingBlock oneData.val).logs, oneData ∉ log.topics := by
    decide
  obtain ⟨x, hrun, h⟩ := (logsUpToDate_start cborEngine wordBitmaps
    reportedStrings).exists_runLogIndexes lawful_wordBitmaps (List.pairwise_singleton _ _)
    (logRunsFit_logging hdata)
  have hhas : HasBlock wordBitmaps x.indexes.topics oneData.val 1 :=
    (h.hasTopic_iff hreports).mpr ⟨_, List.mem_singleton_self _, rfl, _,
      List.mem_singleton_self _, .inr rfl⟩
  refine ⟨lawful_wordBitmaps, reportsStrings_logging hdata, x, hrun, hhas, htopics, fun hexact => ?_⟩
  obtain ⟨block, hblock, -, log, hlog, htopic⟩ := (hexact.topics oneData 1).mp hhas
  cases List.mem_singleton.mp hblock
  exact htopics log hlog htopic

end Examples

end Silkworm.Db
