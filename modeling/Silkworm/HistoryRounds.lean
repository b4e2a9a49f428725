import Silkworm.HistoryReads

/-!
# Rounds of execution and indexing

Blocks are executed, and the index is built in runs of the stage in between. If every part of a set
fits into the index that it is loaded into, the index holds all changes after every run, and the
accounts are read as they were at the beginning of any block.
-/

namespace Silkworm.Db
open BigEndian SortedTables Etl ChunkedSets MemoryBuffer

/-- Batches of blocks, and the run of the stage after them. -/
structure Round where
  batches : List (List ExecutedBlock)
  full : Bool := false
  overflows : Extraction → Bool

/-- The tables of the state with the index of accounts. -/
structure Database where
  tables : Tables
  history : History := {}

variable (r : Roaring)

def runRound (x : Database) (round : Round) : Option Database :=
  let tables := executeBatches x.tables round.batches
  (historyIndex r false round.full round.overflows tables.plainAccountChangeSet x.history).map
    (Database.mk tables)

def runRounds (x : Database) (rounds : List Round) : Option Database := rounds.foldlM (runRound r) x

/-- In every run every part fits into the index. -/
def RoundsFit : Database → List Round → Prop
  | _, [] => True
  | x, round :: rounds =>
    RunFits r round.full round.overflows
      (executeBatches x.tables round.batches).plainAccountChangeSet x.history ∧
    ∀ x', runRound r x round = some x' → RoundsFit x' rounds

/-- The blocks of all rounds. -/
def roundBlocks (rounds : List Round) : List ExecutedBlock :=
  (rounds.flatMap Round.batches).flatten

/-- The numbers of blocks. -/
def blockNumbers (blocks : List ExecutedBlock) : Set ℕ :=
  fun m => ∃ block ∈ blocks, block.1.toNat = m

/-- The index has for every address the chunks of the set of its changes, and accounts are read as
they were at the beginning of a block. -/
structure HistoryCorrect (w : World) (blocks : List ExecutedBlock) (x : Database) : Prop where
  chunks : ∃ s : Address → Finset ℕ, Indexed r x.history.index s ∧
    ∀ a m, m ∈ s a ↔ HasChange x.tables.plainAccountChangeSet.entries a m
  reads : ∀ (a : Address) (n : Uint64), ∃ account,
    readAccountAt r x.tables x.history.index a n = some account ∧
      account.map values = ((worldAt w blocks n.toNat).account a).map values

section Runs

variable {r} (hcut : CutsLeft r.cutLeft) {tables : Tables}
  (hempty : tables.plainAccountChangeSet.entries = [])

/-- The index holds the changes of the blocks that have been executed. -/
structure UpToDate (tables : Tables) (batches : List (List ExecutedBlock)) (x : Database) : Prop where
  tables : x.tables = executeBatches tables batches
  indexed : ∃ s : Address → Finset ℕ, Indexed r x.history.index s ∧
    ∀ a m, m ∈ s a ↔ HasChange x.tables.plainAccountChangeSet.entries a m
  progress : x.history.progress = 0 ∨
    ∃ a, HasChange x.tables.plainAccountChangeSet.entries a x.history.progress
  bounded : ∀ a m, HasChange x.tables.plainAccountChangeSet.entries a m → m ≤ x.history.progress

theorem executeBatches_append (tables : Tables) (batches batches' : List (List ExecutedBlock)) :
    executeBatches tables (batches ++ batches') =
      executeBatches (executeBatches tables batches) batches' :=
  List.foldl_append

theorem UpToDate.nextTables {batches : List (List ExecutedBlock)} {x : Database}
    (h : UpToDate (r := r) tables batches x) (batches' : List (List ExecutedBlock)) :
    executeBatches x.tables batches' = executeBatches tables (batches ++ batches') := by
  rw [h.tables, executeBatches_append]

theorem blockNumbers_le (blocks : List ExecutedBlock) : ∀ m ∈ blockNumbers blocks, m ≤ kLastChunk := by
  rintro m ⟨block, -, rfl⟩
  exact toNat_le_kLastChunk block.1

theorem blockNumbers_flatten_append_subset (batches batches' : List (List ExecutedBlock)) :
    blockNumbers batches.flatten ⊆ blockNumbers (batches ++ batches').flatten := by
  intro m hm
  obtain ⟨block, hb, heq⟩ := hm
  rw [List.flatten_append]
  exact ⟨block, List.mem_append_left _ hb, heq⟩

include hempty

theorem upToDate_start (r : Roaring) : UpToDate (r := r) tables [] { tables } := by
  have hnone : ∀ a m, ¬HasChange tables.plainAccountChangeSet.entries a m := by
    rintro a m ⟨n, bytes, hm, -⟩
    rw [hempty] at hm
    cases hm
  refine ⟨rfl, ⟨fun _ => ∅, indexed_empty r, fun a m => ?_⟩, .inl rfl, fun a m hm =>
    absurd hm (hnone a m)⟩
  exact iff_of_false (Finset.notMem_empty m) (hnone a m)

include hcut

/-- A round whose parts fit is run. -/
theorem UpToDate.exists_runRound {batches : List (List ExecutedBlock)} {x : Database}
    (h : UpToDate (r := r) tables batches x) {round : Round}
    (hsorted : (batches ++ round.batches).flatten.Pairwise fun block block' =>
      block.1.toNat < block'.1.toNat)
    (hround : r.RoundTrips (blockNumbers (batches ++ round.batches).flatten))
    (hfits : RunFits r round.full round.overflows
      (executeBatches x.tables round.batches).plainAccountChangeSet x.history) :
    ∃ x', runRound r x round = some x' ∧
      UpToDate (r := r) tables (batches ++ round.batches) x' := by
  obtain ⟨s, hindexed, hs⟩ := h.indexed
  have htables := h.nextTables round.batches
  rw [List.flatten_append, List.pairwise_append] at hsorted
  have hkept : ∀ a m, HasChange x.tables.plainAccountChangeSet.entries a m →
      HasChange (executeBatches x.tables round.batches).plainAccountChangeSet.entries a m := by
    rintro a m ⟨n, bytes, hm, heq⟩
    exact ⟨n, bytes, mem_executeBatches mem_accountChanges_flush hm round.batches, heq⟩
  -- the changes before the progress were there before the round
  have hbefore : ∀ a m,
      HasChange (executeBatches x.tables round.batches).plainAccountChangeSet.entries a m →
      m < x.history.progress → HasChange x.tables.plainAccountChangeSet.entries a m := by
    rintro a _ ⟨n, bytes, hm, rfl⟩ hlt
    rcases exists_update_of_mem mem_accountChanges_flush hm with hold | ⟨block, hb, u, -, k, _, -, he⟩
    · exact ⟨n, bytes, hold, rfl⟩
    · have hn : block.1 = n := by
        cases k with
        | account a' => exact bigU64_injective (Prod.mk.inj (Option.some.inj he)).1
        | slot a' i location => cases he
      rcases h.progress with hzero | ⟨a', hprogress⟩
      · omega
      · rw [h.tables] at hprogress
        obtain ⟨block', hb', heq⟩ := exists_block_of_hasChange hempty hprogress
        have := hsorted.2.2 block' hb' block hb
        rw [hn] at this
        omega
  have hnumbers : ∀ a m,
      HasChange (executeBatches x.tables round.batches).plainAccountChangeSet.entries a m →
      m ∈ blockNumbers (batches ++ round.batches).flatten := by
    intro a m hm
    rw [htables] at hm
    exact exists_block_of_hasChange hempty hm
  have hprogress : x.history.progress ≤ kLastChunk := by
    rcases h.progress with hzero | ⟨a, hchange⟩
    · rw [hzero]
      exact Nat.zero_le _
    · exact blockNumbers_le _ _ (hnumbers a _ (hkept a _ hchange))
  have hformat : AccountChanges (executeBatches x.tables round.batches).plainAccountChangeSet.entries := by
    rw [htables]
    exact accountChanges_executeBatches hempty
  obtain ⟨h', s', hrun, hindexed', hs', hprogress', hbounded⟩ := exists_historyIndex hcut hround (blockNumbers_le _) hformat
    hnumbers ⟨hindexed, fun a m hm => hkept a m ((hs a m).mp hm),
      fun a m hm hlt => (hs a m).mpr (hbefore a m hm hlt)⟩ hprogress hfits
  refine ⟨⟨_, h'⟩, ?_, htables, ⟨s', hindexed', hs'⟩, ?_, hbounded⟩
  · rw [runRound, hrun]
    rfl
  · rcases hprogress' with heq | hchange
    · dsimp only
      rw [heq]
      exact h.progress.imp_right fun ⟨a, hchange⟩ => ⟨a, hkept a _ hchange⟩
    · exact .inr hchange

/-- Rounds whose parts fit are run. -/
theorem UpToDate.exists_runRounds {batches : List (List ExecutedBlock)} {x : Database}
    (h : UpToDate (r := r) tables batches x) {rounds : List Round}
    (hsorted : (batches ++ rounds.flatMap Round.batches).flatten.Pairwise fun block block' =>
      block.1.toNat < block'.1.toNat)
    (hround : r.RoundTrips (blockNumbers (batches ++ rounds.flatMap Round.batches).flatten))
    (hfits : RoundsFit r x rounds) :
    ∃ x', runRounds r x rounds = some x' ∧
      UpToDate (r := r) tables (batches ++ rounds.flatMap Round.batches) x' := by
  induction rounds generalizing batches x with
  | nil =>
    refine ⟨x, rfl, ?_⟩
    rw [List.flatMap_nil, List.append_nil]
    exact h
  | cons round rounds ih =>
    rw [List.flatMap_cons, ← List.append_assoc] at hsorted hround ⊢
    have hsorted' := hsorted
    rw [List.flatten_append, List.pairwise_append] at hsorted'
    have hround' := hround.mono (blockNumbers_flatten_append_subset (batches ++ round.batches) _)
    obtain ⟨x', hrun, h'⟩ := h.exists_runRound hcut hempty hsorted'.1 hround' hfits.1
    obtain ⟨x'', hruns, h''⟩ := ih h' hsorted hround (hfits.2 x' hrun)
    refine ⟨x'', ?_, h''⟩
    rw [runRounds, List.foldlM_cons, hrun]
    exact hruns

/-- As long as the buffer of bitmaps does not overflow, everything fits in all rounds. -/
theorem UpToDate.roundsFit {batches : List (List ExecutedBlock)} {x : Database}
    (h : UpToDate (r := r) tables batches x) {rounds : List Round}
    (hnone : ∀ round ∈ rounds, round.overflows = fun _ => false)
    (hsorted : (batches ++ rounds.flatMap Round.batches).flatten.Pairwise fun block block' =>
      block.1.toNat < block'.1.toNat)
    (hpos : ∀ block ∈ (batches ++ rounds.flatMap Round.batches).flatten, 0 < block.1.toNat)
    (hround : r.RoundTrips (blockNumbers (batches ++ rounds.flatMap Round.batches).flatten)) :
    RoundsFit r x rounds := by
  induction rounds generalizing batches x with
  | nil => trivial
  | cons round rounds ih =>
    obtain ⟨hnever, hnone⟩ := List.forall_mem_cons.mp hnone
    rw [List.flatMap_cons, ← List.append_assoc] at hsorted hround hpos
    have hsorted' := hsorted
    rw [List.flatten_append, List.pairwise_append] at hsorted'
    have hround' := hround.mono (blockNumbers_flatten_append_subset (batches ++ round.batches) _)
    have hfits : RunFits r round.full round.overflows
        (executeBatches x.tables round.batches).plainAccountChangeSet x.history := by
      obtain ⟨s, hindexed, hs⟩ := h.indexed
      have hold : ∀ a, ∀ m ∈ s a, m ∈ blockNumbers (batches ++ round.batches).flatten ∧
          m ≤ x.history.progress ∧ 0 < m := by
        intro a m hm
        have hchange := (hs a m).mp hm
        have hle := h.bounded a m hchange
        rw [h.tables] at hchange
        obtain ⟨block, hb, rfl⟩ := exists_block_of_hasChange hempty hchange
        rw [List.flatten_append] at hpos ⊢
        refine ⟨⟨block, List.mem_append_left _ hb, rfl⟩, hle, hpos block ?_⟩
        rw [List.flatten_append]
        exact List.mem_append_left _ (List.mem_append_left _ hb)
      rw [hnever, h.nextTables]
      have hchanges : ∀ a m, HasChange (executeBatches tables
          (batches ++ round.batches)).plainAccountChangeSet.entries a m →
          m ∈ blockNumbers (batches ++ round.batches).flatten :=
        fun a m hm => exists_block_of_hasChange hempty hm
      cases round.full with
      | true =>
        exact runFits_of_no_overflow hcut hround' (blockNumbers_le _)
          (accountChanges_executeBatches hempty) hchanges (indexed_empty r)
          (fun a m hm => absurd hm (Finset.notMem_empty m)) (Nat.zero_le _) fun _ => rfl
      | false =>
        have hprogress : x.history.progress ≤ kLastChunk := by
          rcases h.progress with hzero | ⟨a, hchange⟩
          · rw [hzero]
            exact Nat.zero_le _
          · exact blockNumbers_le _ _ (hold a _ ((hs a _).mpr hchange)).1
        refine runFits_of_no_overflow hcut hround' (blockNumbers_le _)
          (accountChanges_executeBatches hempty) hchanges hindexed
          (fun a m hm => ⟨(hold a m hm).1, (hold a m hm).2.1⟩) hprogress fun hzero => ?_
        refine hindexed.entries_eq_nil fun a => Finset.eq_empty_of_forall_notMem fun m hm => ?_
        have hle : m ≤ x.history.progress := (hold a m hm).2.1
        have hzero : x.history.progress = 0 := hzero
        have := (hold a m hm).2.2
        omega
    obtain ⟨x', hrun, h'⟩ := h.exists_runRound hcut hempty hsorted'.1 hround' hfits
    refine ⟨hfits, fun x'' hrun' => ?_⟩
    cases hrun.symm.trans hrun'
    exact ih h' hnone hsorted hpos hround

variable {w : World} (hstores : Stores w tables.plainState) {rounds : List Round}
  (hf : Faithful w (roundBlocks rounds))
  (hsorted : (roundBlocks rounds).Pairwise fun block block' => block.1.toNat < block'.1.toNat)
  (hround : r.RoundTrips (blockNumbers (roundBlocks rounds)))

include hstores hf hsorted hround

omit hcut hround in
theorem UpToDate.historyCorrect {x : Database}
    (h : UpToDate (r := r) tables (rounds.flatMap Round.batches) x) :
    HistoryCorrect r w (roundBlocks rounds) x := by
  obtain ⟨s, hindexed, hs⟩ := h.indexed
  refine ⟨⟨s, hindexed, hs⟩, fun a n => ?_⟩
  rw [h.tables] at hs ⊢
  exact exists_readAccountAt hstores hempty hf hsorted hindexed hs a n

/-- If every part fits, every account is read as it was at the beginning of every block. -/
theorem runRounds_correct (hfits : RoundsFit r { tables } rounds) :
    ∃ x, runRounds r { tables } rounds = some x ∧ HistoryCorrect r w (roundBlocks rounds) x := by
  obtain ⟨x, hrun, h⟩ := (upToDate_start hempty r).exists_runRounds hcut hempty hsorted hround hfits
  exact ⟨x, hrun, h.historyCorrect hempty hstores hf hsorted⟩

/-- Without an overflow the history is correct. -/
theorem runRounds_correct_of_no_overflow (hnone : ∀ round ∈ rounds, round.overflows = fun _ => false)
    (hpos : ∀ block ∈ roundBlocks rounds, 0 < block.1.toNat) :
    ∃ x, runRounds r { tables } rounds = some x ∧ HistoryCorrect r w (roundBlocks rounds) x := by
  have hstart := upToDate_start hempty r
  obtain ⟨x, hrun, h⟩ := hstart.exists_runRounds hcut hempty hsorted hround
    (hstart.roundsFit hcut hempty hnone hsorted hpos hround)
  exact ⟨x, hrun, h.historyCorrect hempty hstores hf hsorted⟩

end Runs

section Examples

/-- A bitmap of the given numbers below 2^16, in the format of one container. -/
def arrayBytes (values : List ℕ) : Bytes :=
  [1, 0, 0, 0, 0, 0, 0, 0, 0, 0, 0, 0, 0x3a, 0x30, 0, 0, 1, 0, 0, 0, 0, 0,
    UInt8.ofNat (values.length - 1), UInt8.ofNat ((values.length - 1) / 256), 0x10, 0, 0, 0] ++
  values.flatMap fun x => [UInt8.ofNat x, UInt8.ofNat (x / 256)]

def containerValues : Bytes → List ℕ
  | low :: high :: rest => (low.toNat + 256 * high.toNat) :: containerValues rest
  | _ => []

/-- The bitmaps of some numbers, of which a cut takes the first two. -/
def arrayBitmaps (numbers : List ℕ) : Roaring where
  write s := arrayBytes (numbers.filter (· ∈ s))
  readSafe bytes := some (containerValues (bytes.drop 28)).toFinset
  cutLeft s := (s.filter fun x => (s.filter (· < x)).card < 2,
    s.filter fun x => ¬(s.filter (· < x)).card < 2)

theorem containerValues_flatMap {values : List ℕ} (h : ∀ x ∈ values, x < 65536) :
    containerValues (values.flatMap fun x => [UInt8.ofNat x, UInt8.ofNat (x / 256)]) = values := by
  induction values with
  | nil => rfl
  | cons x values ih =>
    obtain ⟨hx, hvalues⟩ := List.forall_mem_cons.mp h
    rw [List.flatMap_cons, List.cons_append, List.cons_append, List.nil_append, containerValues,
      ih hvalues]
    congr 1
    simp only [UInt8.toNat_ofNat']
    omega

theorem roundTrips_arrayBitmaps {numbers : List ℕ} (h : ∀ x ∈ numbers, x < 65536) {set : Set ℕ}
    (hset : ∀ x ∈ set, x ∈ numbers) : (arrayBitmaps numbers).RoundTrips set := by
  intro s hs
  have hdrop : ((arrayBitmaps numbers).write s).drop 28 =
      (numbers.filter (· ∈ s)).flatMap fun x => [UInt8.ofNat x, UInt8.ofNat (x / 256)] := rfl
  have hvalues : ∀ x ∈ numbers.filter (· ∈ s), x < 65536 := fun x hx => h x (List.mem_filter.mp hx).1
  refine congrArg some ?_
  rw [hdrop, containerValues_flatMap hvalues]
  ext x
  rw [List.mem_toFinset, List.mem_filter, decide_eq_true_eq]
  exact ⟨fun hx => hx.2, fun hx => ⟨hset x (hs x hx), hx⟩⟩

theorem cutsLeft_arrayBitmaps (numbers : List ℕ) : CutsLeft (arrayBitmaps numbers).cutLeft := by
  intro s hs
  refine ⟨?_, Finset.filter_union_filter_not_eq _ s, fun x hx y hy => ?_⟩
  · refine ⟨s.min' hs, Finset.mem_filter.mpr ⟨s.min'_mem hs, ?_⟩⟩
    have hempty : (s.filter (· < s.min' hs)) = ∅ := by
      rw [Finset.filter_eq_empty_iff]
      exact fun x hx => not_lt.mpr (s.min'_le x hx)
    rw [hempty]
    exact Nat.zero_lt_two
  · by_contra hle
    have hsub : s.filter (· < y) ⊆ s.filter (· < x) :=
      Finset.monotone_filter_right s fun z _ hz => hz.trans_le (not_lt.mp hle)
    exact (Finset.mem_filter.mp hy).2 ((Finset.card_le_card hsub).trans_lt (Finset.mem_filter.mp hx).2)

def paid (k : ℕ) : Option Account := if k = 0 then none else some { nonce := BitVec.ofNat 64 k }

/-- A block that changes one account. -/
def accountPaid (initial current : Option Account) : IntraBlockState where
  objects := HashMap.set ∅ default { initial, current }

/-- Every block pays to the account. -/
def payments : List Uint64 → ℕ → List ExecutedBlock
  | [], _ => []
  | n :: ns, k => (n, accountPaid (paid k) (paid (k + 1))) :: payments ns (k + 1)

theorem faithful_payments {w : World} {k : ℕ} (hw : w.account default = paid k) (ns : List Uint64) :
    Faithful w (payments ns k) := by
  have hupdates (k : ℕ) : (accountPaid (paid k) (paid (k + 1))).updates =
      [.account default (paid k) (paid (k + 1))] := by
    cases k <;> rfl
  induction ns generalizing w k with
  | nil => trivial
  | cons n ns ih =>
    refine ⟨fun u hu => ?_, ih ?_⟩
    · rw [hupdates] at hu
      cases List.mem_singleton.mp hu
      exact hw.symm
    · rw [afterBlock]
      dsimp only
      rw [hupdates, List.foldl_cons, List.foldl_nil, Update.onWorld]
      dsimp only
      rw [if_pos rfl]

/-- The buffer is full once, after three of six payments. -/
def overflowRound : Round where
  batches := [payments [1, 2, 3, 256, 257, 258] 0]
  overflows x := x.blockNumber = 3

def overflowBitmaps : Roaring := arrayBitmaps [1, 2, 3, 256, 257, 258]

/-- The part with the later blocks is loaded first. -/
def overflowIndex : PlainTable :=
  ((({} : PlainTable).put (chunkIndex (default : Address).val 2) (arrayBytes [1, 2])).put
    (chunkIndex (default : Address).val 257) (arrayBytes [256, 257])).put
    (chunkIndex (default : Address).val kLastChunk) (arrayBytes [3, 258])

def overflowExtraction : Extraction where
  blockNumber := 258
  collected := [((default : Address).val, arrayBytes [1, 2, 3]),
    ((default : Address).val, arrayBytes [256, 257, 258])]

theorem historyIndex_overflow {changeset : Table}
    (h : changeset = (executeBatches {} overflowRound.batches).plainAccountChangeSet) :
    historyIndex overflowBitmaps false false overflowRound.overflows changeset {} =
      some ⟨overflowIndex, 258⟩ := by
  have hextract : extract overflowBitmaps false overflowRound.overflows
      (changeset.entries.dropWhile fun e =>
        e.1 < bigU64 (BitVec.ofNat 64 (startOf false {}).progress)) = some overflowExtraction := by
    rw [h]
    rfl
  have hsorted : [((default : Address).val, arrayBytes [256, 257, 258]),
      ((default : Address).val, arrayBytes [1, 2, 3])] = sortedEntries overflowExtraction.collected :=
    eq_sortedEntries (by decide) (List.Perm.swap ..)
  refine historyIndex_eq_some hextract (List.cons_ne_nil _ _) ?_
  rw [← hsorted]
  rfl

theorem runRounds_overflow : runRounds overflowBitmaps { tables := {} } [overflowRound] =
    some ⟨executeBatches {} overflowRound.batches, overflowIndex, 258⟩ := by
  have hround : runRound overflowBitmaps { tables := {} } overflowRound =
      some ⟨executeBatches {} overflowRound.batches, overflowIndex, 258⟩ :=
    congrArg (Option.map _) (historyIndex_overflow rfl)
  rw [runRounds, List.foldlM_cons, hround]
  rfl

/-- The account is read as it was at the beginning of block 256, and not of block 3. -/
theorem readAccountAt_overflow :
    readAccountAt overflowBitmaps (executeBatches {} overflowRound.batches) overflowIndex default 3 =
      some (paid 3) := by
  have hseek : seek overflowIndex.toTable (accountHistoryKey default 3) =
      some (chunkIndex (default : Address).val 257, arrayBytes [256, 257]) := by
    rfl
  have hread : overflowBitmaps.readSafe (arrayBytes [256, 257]) = some {256, 257} := by
    rfl
  have hnext : seekBitmap {256, 257} (3 : Uint64).toNat = some 256 :=
    seekBitmap_eq_some (by decide) (by decide) (by decide)
  have hhistory : historicalAccount overflowBitmaps (executeBatches {} overflowRound.batches)
      overflowIndex default 3 = some (some (encodedInitial (paid 3) (paid 4))) := by
    rw [historicalAccount, hseek]
    dsimp only
    rw [if_pos (chunkIndex_isPrefix_iff.mpr rfl), hread, Option.bind_eq_bind, Option.bind_some]
    rw [hnext]
    rfl
  rw [readAccountAt, hhistory]
  rfl

/-- The chunks are mixed up when the parts of a set are loaded in the order of their bytes. -/
theorem not_historyCorrect_overflow :
    CutsLeft overflowBitmaps.cutLeft ∧
    overflowBitmaps.RoundTrips (blockNumbers (roundBlocks [overflowRound])) ∧
    Stores noWorld ({} : Tables).plainState ∧
    ({} : Tables).plainAccountChangeSet.entries = [] ∧
    Faithful noWorld (roundBlocks [overflowRound]) ∧
    ((roundBlocks [overflowRound]).Pairwise fun block block' => block.1.toNat < block'.1.toNat) ∧
    ∃ x, runRounds overflowBitmaps { tables := {} } [overflowRound] = some x ∧
      readAccountAt overflowBitmaps x.tables x.history.index default 3 = some (paid 3) ∧
      (worldAt noWorld (roundBlocks [overflowRound]) 3).account default = paid 2 ∧
      ¬HistoryCorrect overflowBitmaps noWorld (roundBlocks [overflowRound]) x := by
  have hblocks : roundBlocks [overflowRound] = payments [1, 2, 3, 256, 257, 258] 0 := by
    rfl
  have hworld : (worldAt noWorld (roundBlocks [overflowRound]) 3).account default = paid 2 := by
    rfl
  refine ⟨cutsLeft_arrayBitmaps _, roundTrips_arrayBitmaps (by decide) ?_, stores_empty, rfl,
    ?_, ?_, _, runRounds_overflow, readAccountAt_overflow, hworld, fun h => ?_⟩
  · rintro m ⟨block, hb, rfl⟩
    revert block
    rw [hblocks]
    decide
  · rw [hblocks]
    exact faithful_payments rfl _
  · rw [hblocks]
    decide
  · obtain ⟨account, hread, hvalues⟩ := h.reads default 3
    cases readAccountAt_overflow.symm.trans hread
    have hthree : (3 : Uint64).toNat = 3 := rfl
    rw [hthree, hworld] at hvalues
    exact absurd hvalues (by decide)

/-- Two payments are processed in one run. -/
def paidRound : Round where
  batches := [payments [1, 2] 0]
  overflows _ := false

theorem runRounds_correct_paid :
    ∃ x, runRounds (arrayBitmaps [1, 2]) { tables := {} } [paidRound] = some x ∧
      HistoryCorrect (arrayBitmaps [1, 2]) noWorld (roundBlocks [paidRound]) x := by
  have hblocks : roundBlocks [paidRound] = payments [1, 2] 0 := by
    rfl
  refine runRounds_correct (cutsLeft_arrayBitmaps _) rfl stores_empty ?_ ?_
    (roundTrips_arrayBitmaps (by decide) ?_) ⟨fun x hx => ?_, fun x' _ => trivial⟩
  · rw [hblocks]
    exact faithful_payments rfl _
  · rw [hblocks]
    decide
  · rintro m ⟨block, hb, rfl⟩
    revert block
    rw [hblocks]
    decide
  · have hextract : extract (arrayBitmaps [1, 2]) false paidRound.overflows
        ((executeBatches {} paidRound.batches).plainAccountChangeSet.entries.dropWhile fun e =>
          e.1 < bigU64 (BitVec.ofNat 64 0)) = some
        { blockNumber := 2, collected := [((default : Address).val, arrayBytes [1, 2])] } := by
      rfl
    cases hextract.symm.trans hx
    rw [sortedEntries, List.mergeSort_singleton]
    refine ⟨⟨fun bm _ k _ v c hv => ?_, fun _ _ e he => ?_⟩, fun t' _ => trivial⟩
    · cases hv
    · cases he

end Examples

end Silkworm.Db
