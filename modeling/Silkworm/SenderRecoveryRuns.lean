import Silkworm.Keccak
import Silkworm.SenderAssignments

/-!
# Runs of the recovery of senders

The blocks of the segment are, in their order, in the batches that were dispatched, in the batch
that is being filled, and among the rows that are still to be read. This holds after every step, and
the farm is done when all of them have been collected.
-/

namespace Silkworm.Senders
open Db SortedTables

/-- Blocks without transactions come last. -/
def EmptyLast (segment : List StoredBlock) : Prop :=
  segment.Pairwise fun b b' => b.transactions = [] → b'.transactions = []

/-- The blocks fit into a batch. -/
def Fits (maxBatchSize : ℕ) (segment : List StoredBlock) : Prop :=
  ∀ b ∈ segment, b.transactions.length ≤ maxBatchSize

namespace RecoveryFarm

/-- Where the farm is, and which blocks are there. -/
def AtPoint (s : RecoveryFarm) (cur rest : List StoredBlock) (pulled total : ℕ) : Prop :=
  let next (b : StoredBlock) (bs : List StoredBlock) : Prop :=
    s.headersForReading = (b :: bs).map StoredBlock.hash ∧ s.expectedBlockNum = b.number
  match s.point with
  | .reading => ∃ b bs, rest = b :: bs ∧ Reads (b :: bs) s.rows ∧ next b bs
  | .dispatching (some b) | .bufferizing (some b) =>
    ∃ bs, rest = b :: bs ∧ Reads bs s.rows ∧ next b bs ∧ cur ≠ [] ∧ b.transactions ≠ []
  | .dispatching none | .bufferizing none => rest = [] ∧ cur ≠ []
  | .waiting => rest = [] ∧ cur = []
  | .collecting => rest = [] ∧ cur = [] ∧ pulled + s.batchesCompleted.length = total
  | .done => rest = [] ∧ cur = [] ∧ pulled = total

/-- The batches `batches` were dispatched and `pulled` of them collected, which recovered, `cur` is
in the batch, and `rest` is still to be read. -/
structure Base (c : Crypto) (segment : List StoredBlock) (s : RecoveryFarm)
    (batches : List (List StoredBlock)) (cur rest : List StoredBlock) (pulled : ℕ) : Prop where
  consecutive : segment.IsChain fun b b' => b'.number.toNat = b.number.toNat + 1
  emptyLast : EmptyLast segment
  maxWorkers : 1 ≤ s.maxWorkers
  assigned : Assigned (s.workers.map RecoveryWorker.phase) s.batchesCompleted pulled batches.length
  completed : s.completedBatchId = pulled + s.batchesCompleted.length
  batchId : s.batchId = batches.length
  valid : ∀ w ∈ s.workers, w.Valid c batches
  workersLe : s.workers.length ≤ s.maxWorkers
  packed : ∀ b ∈ batches.flatten ++ cur, Packed c b
  recovered : ∀ b ∈ (batches.take pulled).flatten, Recovers c b
  batchesFit : ∀ bs ∈ batches, bs ≠ [] ∧
    (Fits s.maxBatchSize segment → (bs.flatMap (packages c)).length ≤ s.maxBatchSize)
  blocks : nonEmpty segment = batches.flatten ++ cur ++ nonEmpty rest
  suffix : rest <:+ segment
  batch : s.batch = cur.flatMap (packages c)
  batchFits : Fits s.maxBatchSize segment → s.batch.length ≤ s.maxBatchSize
  ret : s.ret = .succeded
  collected : s.collected = (batches.take pulled).flatten.map (entry c)
  headers : s.headersForResults =
    (segment.drop (batches.take pulled).flatten.length).map StoredBlock.hash

structure InvAt (c : Crypto) (segment : List StoredBlock) (s : RecoveryFarm)
    (batches : List (List StoredBlock)) (cur rest : List StoredBlock) (pulled : ℕ) : Prop
    extends Base c segment s batches cur rest pulled where
  point : s.AtPoint cur rest pulled batches.length

/-- The blocks of the segment are where the farm is, for some batches. -/
def Inv (c : Crypto) (segment : List StoredBlock) (s : RecoveryFarm) : Prop :=
  ∃ batches cur rest pulled, InvAt c segment s batches cur rest pulled

/-- The farm has given up, and collects nothing any more. -/
def Failed (s : RecoveryFarm) : Prop := s.ret ≠ .succeded ∧ (s.point = .waiting ∨ s.point = .done)

/-- The farm has given up on a signature that does not recover. -/
def GivesUp (c : Crypto) (segment : List StoredBlock) (s : RecoveryFarm) : Prop :=
  s.Failed ∧ ¬∀ b ∈ segment, Recovers c b

/-- The batch that is to be collected next did not recover. -/
def frontFailed (s : RecoveryFarm) : Bool :=
  s.batchesCompleted.head?.any fun x => s.workers[x.1]?.any fun w => w.status = .error

section Blocks

variable {c : Crypto} {segment : List StoredBlock} {s : RecoveryFarm}
  {batches : List (List StoredBlock)} {cur rest bs : List StoredBlock} {pulled maxBatchSize : ℕ}
  {b : StoredBlock}

theorem pairwise_number_nonEmpty
    (hchain : segment.IsChain fun b b' => b'.number.toNat = b.number.toNat + 1) :
    (nonEmpty segment).Pairwise fun b b' => b.number ≠ b'.number := by
  have hlt : segment.Pairwise fun b b' => b.number ≠ b'.number := by
    induction segment with
    | nil => exact List.Pairwise.nil
    | cons b bs ih =>
      refine List.pairwise_cons.mpr ⟨fun b' hb' heq => ?_, ih hchain.tail⟩
      have hlt := lt_of_consecutive hchain b' hb'
      rw [heq] at hlt
      exact BitVec.lt_irrefl _ hlt
  exact hlt.sublist List.filter_sublist

theorem Base.batchable (h : Base c segment s batches cur rest pulled) :
    ∀ bs ∈ batches, Batchable c bs ∧ bs ≠ [] := by
  intro bs hbs
  have hsub : bs.Sublist (nonEmpty segment) := by
    rw [h.blocks, List.append_assoc]
    exact (List.sublist_flatten_of_mem hbs).trans (List.sublist_append_left _ _)
  refine ⟨⟨fun b hb => ?_, fun b hb => ?_, ?_⟩, (h.batchesFit bs hbs).1⟩
  · exact h.packed b (List.mem_append_left _ (List.mem_flatten_of_mem hbs hb))
  · exact (mem_nonEmpty.mp (hsub.subset hb)).2
  · exact (pairwise_number_nonEmpty h.consecutive).sublist hsub

/-- The next block is passed if it is empty. -/
theorem Base.pass (h : Base c segment s batches cur (b :: bs) pulled) (ht : b.transactions = []) :
    Base c segment s batches cur bs pulled :=
  { h with
    blocks := by
      rw [h.blocks, nonEmpty, List.filter_cons_of_neg (by simp [ht])]
      rfl
    suffix := (List.suffix_cons b bs).trans h.suffix }

/-- The next block is packed. -/
theorem Base.fill {ps : List Package} (h : Base c segment s batches cur (b :: bs) pulled)
    (ht : b.transactions ≠ [])
    (hfits : Fits s.maxBatchSize segment → s.batch.length + b.transactions.length ≤ s.maxBatchSize)
    (hps : fillBatch c b.number b.transactions = some ps) :
    Base c segment { s with batch := s.batch ++ ps } batches (cur ++ [b]) bs pulled := by
  have hpacked := packed_of_fillBatch hps
  obtain ⟨hfill, hlen⟩ := fillBatch_of_packed hpacked
  cases hps.symm.trans hfill
  refine { h with packed := ?_, blocks := ?_, suffix := ?_, batch := ?_, batchFits := ?_ }
  · intro x hx
    rw [← List.append_assoc] at hx
    rcases List.mem_append.mp hx with hx | hx
    · exact h.packed x hx
    · exact List.mem_singleton.mp hx ▸ hpacked
  · rw [h.blocks, nonEmpty, List.filter_cons_of_pos (by simp [ht])]
    simp [nonEmpty]
  · exact (List.suffix_cons b bs).trans h.suffix
  · rw [h.batch]
    simp
  · intro hf
    rw [List.length_append, hlen]
    exact hfits hf

/-- A batch of blocks with transactions has packages. -/
theorem Base.batch_isEmpty (h : Base c segment s batches cur rest pulled) : s.batch.isEmpty = true ↔ cur = [] := by
  rw [h.batch, List.isEmpty_iff]
  constructor
  · intro hnil
    refine List.eq_nil_iff_forall_not_mem.mpr fun b hb => ?_
    have hmem : b ∈ nonEmpty segment := by
      rw [h.blocks]
      simp [hb]
    have hlen := (fillBatch_of_packed (h.packed b (List.mem_append_right _ hb))).2
    rw [List.flatMap_eq_nil_iff.mp hnil b hb] at hlen
    exact (mem_nonEmpty.mp hmem).2 (List.length_eq_zero_iff.mp hlen.symm)
  · rintro rfl
    rfl

/-- After a block the farm is at the next one, or at the last batch. -/
theorem Base.advance (h : Base c segment s batches cur bs pulled) (hsuffix : b :: bs <:+ segment)
    (hrows : Reads bs s.rows) (hheaders : s.headersForReading = (b :: bs).map StoredBlock.hash)
    (hnum : s.expectedBlockNum = b.number) :
    InvAt c segment s.advance batches cur bs pulled := by
  cases bs with
  | nil =>
    have hempty := h.batch_isEmpty
    rw [RecoveryFarm.advance, hheaders]
    simp only [List.map_cons, List.map_nil, endOfBlocks]
    split_ifs with hb
    · exact ⟨{ h with }, rfl, hempty.mp hb⟩
    · exact ⟨{ h with }, rfl, fun hcur => hb (hempty.mpr hcur)⟩
  | cons b' bs =>
    have hchain := h.consecutive.suffix hsuffix
    have hnext : s.expectedBlockNum + 1 = b'.number := by
      apply BitVec.eq_of_toNat_eq
      have hsucc := (List.isChain_cons_cons.mp hchain).1
      rw [hsucc, hnum, BitVec.toNat_add_of_lt]
      · rfl
      · exact hsucc ▸ b'.number.isLt
    rw [RecoveryFarm.advance, hheaders]
    exact ⟨{ h with }, b', bs, rfl, hrows, rfl, hnext⟩

/-- A block that fits into the batch, unless a signature of it is refused. -/
theorem Base.fill_advance (h : Base c segment s batches cur (b :: bs) pulled)
    (ht : b.transactions ≠ [])
    (hfits : Fits s.maxBatchSize segment → s.batch.length + b.transactions.length ≤ s.maxBatchSize)
    (hrows : Reads bs s.rows)
    (hheaders : s.headersForReading = (b :: bs).map StoredBlock.hash)
    (hnum : s.expectedBlockNum = b.number) :
    Inv c segment (s.fill c b) ∨ GivesUp c segment (s.fill c b) := by
  rw [RecoveryFarm.fill]
  cases hps : fillBatch c b.number b.transactions with
  | none =>
    refine .inr ⟨⟨by simp [fail], .inl rfl⟩, fun hrec => ?_⟩
    have hb : b ∈ segment := h.suffix.subset List.mem_cons_self
    have hfill := (fillBatch_of_packed (hrec b hb).packed).1
    rw [hps] at hfill
    cases hfill
  | some ps =>
    exact .inl ⟨_, _, _, _, (h.fill ht hfits hps).advance h.suffix hrows hheaders hnum⟩

end Blocks

section Steps

variable {c : Crypto} {segment : List StoredBlock} {s s' : RecoveryFarm}
  {batches : List (List StoredBlock)} {cur rest : List StoredBlock} {pulled : ℕ}

theorem threadStep_next {i : ℕ} {w : RecoveryWorker} (hw : s.workers[i]? = some w)
    (hp : w.point ≠ .signalling) :
    s.threadStep c i = (w.next c s.maxBatchSize).map (s.setWorker i) := by
  rw [threadStep, hw]
  dsimp only
  cases hpoint : w.point with
  | signalling => exact absurd hpoint hp
  | _ => rfl

theorem threadStep_signal {i : ℕ} {w : RecoveryWorker} (hw : s.workers[i]? = some w)
    (hp : w.point = .signalling) :
    s.threadStep c i =
      if s.completedBatchId = w.batchId then
        some { s.setWorker i { w with point := .signalled } with
          batchesCompleted := s.batchesCompleted ++ [(i, w.batchId)]
          completedBatchId := s.completedBatchId + 1 }
      else none := by
  rw [threadStep, hw]
  dsimp only
  rw [hp]

/-- A row is passed, a block without transactions too, or the block is packed, or it waits until the
batch is dispatched. -/
theorem InvAt.read (h : InvAt c segment s batches cur rest pulled) (hp : s.point = .reading) :
    Inv c segment (s.read c) ∨ GivesUp c segment (s.read c) := by
  have hat := h.point
  rw [AtPoint, hp] at hat
  obtain ⟨b, bs, rfl, hreads, hheaders, hnum⟩ := hat
  have hsuffix := h.suffix
  cases hr : s.rows with
  | nil =>
    rw [hr] at hreads
    cases hreads
  | cons row rows =>
    rw [hr] at hreads
    have hbase : Base c segment { s with rows } batches cur (b :: bs) pulled := { h.toBase with }
    cases hreads with
    | skip hskip hreads =>
      have hread : s.read c = { s with rows } := by
        rw [RecoveryFarm.read, hr]
        dsimp only
        rw [hnum, hheaders]
        rcases hskip with hlt | ⟨heq, hne⟩
        · rw [if_pos hlt]
        · rw [heq, if_neg (BitVec.lt_irrefl _), if_neg (BitVec.lt_irrefl _), if_pos]
          simpa using hne
      rw [hread]
      refine .inl ⟨batches, cur, b :: bs, pulled, hbase, ?_⟩
      rw [AtPoint, hp]
      exact ⟨b, bs, rfl, hreads, hheaders, hnum⟩
    | block hreads =>
      have hread : s.read c =
          if b.transactions.isEmpty then { s with rows }.advance
          else if s.maxBatchSize < s.batch.length + b.transactions.length ∧ ¬s.batch.isEmpty then
            { s with rows, point := .dispatching (some b) }
          else { s with rows }.fill c b := by
        rw [RecoveryFarm.read, hr]
        dsimp only
        rw [hnum, hheaders, if_neg (BitVec.lt_irrefl _), if_neg (BitVec.lt_irrefl _), if_neg (by simp)]
      rw [hread]
      split_ifs with ht hlarge
      · have ht : b.transactions = [] := List.isEmpty_iff.mp ht
        exact .inl ⟨batches, cur, bs, pulled,
          (hbase.pass ht).advance h.suffix hreads hheaders hnum⟩
      · refine .inl ⟨batches, cur, b :: bs, pulled, { hbase with }, bs, rfl, hreads,
          ⟨hheaders, hnum⟩, fun hcur => ?_, ?_⟩
        · exact hlarge.2 ((h.batch_isEmpty).mpr hcur)
        · exact fun hnil => ht (List.isEmpty_iff.mpr hnil)
      · have ht : b.transactions ≠ [] := fun hnil => ht (List.isEmpty_iff.mpr hnil)
        refine hbase.fill_advance ht (fun hfits => ?_) hreads hheaders hnum
        by_cases hempty : s.batch.isEmpty
        · have hb := hfits b (h.suffix.subset List.mem_cons_self)
          simpa [List.isEmpty_iff.mp hempty] using hb
        · exact Nat.le_of_not_lt fun hlt => hlarge ⟨hlt, hempty⟩

/-- A new worker is idle. -/
theorem Base.spawn (h : Base c segment s batches cur rest pulled)
    (hlen : s.workers.length = 0 ∨ s.workers.length ≠ s.maxWorkers) :
    Base c segment { s with workers := s.workers ++ [{}] } batches cur rest pulled :=
  { h with
    assigned := by
      rw [List.map_append]
      exact h.assigned.spawn
    valid := fun w hw => by
      rcases List.mem_append.mp hw with hw | hw
      · exact h.valid w hw
      · rw [List.mem_singleton.mp hw]
        exact .free rfl rfl (.inl rfl)
    workersLe := by
      have hmax := h.maxWorkers
      have hle := h.workersLe
      simp only [List.length_append, List.length_singleton]
      omega }

theorem getElem?_map_phase {w : RecoveryWorker} {i : ℕ} (hw : s.workers[i]? = some w) :
    (s.workers.map RecoveryWorker.phase)[i]? = some w.phase := by
  rw [List.getElem?_map, hw, Option.map_some]

/-- The worker that gets the batch, when its thread waits for it. -/
theorem Base.dispatch {w : RecoveryWorker} {i : ℕ} (h : Base c segment s batches cur rest pulled)
    (hcur : cur ≠ []) (hw : s.workers[i]? = some w) (hidle : w.status = .idle)
    (hpoint : w.point = .waiting) :
    Base c segment
      { s.setWorker i { w with
          batch := some s.batch, batchId := s.batchId, status := .working, kicked := true } with
        batchId := s.batchId + 1, batch := [] } (batches ++ [cur]) [] rest pulled := by
  have hle : pulled ≤ batches.length := (Nat.le_add_right _ _).trans h.assigned.le
  have hassigned := h.assigned.dispatch
    ((getElem?_map_phase hw).trans (congrArg some (RecoveryWorker.phase_eq_free.mpr hidle)))
  refine
    { h with
      assigned := ?_
      batchId := ?_
      valid := ?_
      workersLe := ?_
      packed := ?_
      recovered := ?_
      batchesFit := ?_
      blocks := ?_
      batch := rfl
      batchFits := fun _ => Nat.zero_le _
      collected := ?_
      headers := ?_ }
  · rw [List.length_append, List.length_singleton]
    simp only [setWorker, List.map_set]
    rw [h.batchId]
    exact hassigned
  · simp [h.batchId]
  · intro v hv
    rcases List.mem_or_eq_of_mem_set hv with hv | rfl
    · exact (h.valid v hv).append cur
    · refine .assigned cur rfl ?_ (congrArg some h.batch) (.inl ⟨hpoint, rfl⟩)
      rw [h.batchId]
      simp
  · simp only [setWorker, List.length_set]
    exact h.workersLe
  · simpa using h.packed
  · rw [List.take_append_of_le_length hle]
    exact h.recovered
  · intro bs hbs
    rcases List.mem_append.mp hbs with hbs | hbs
    · exact h.batchesFit bs hbs
    · rw [List.mem_singleton.mp hbs, ← h.batch]
      exact ⟨hcur, h.batchFits⟩
  · rw [h.blocks]
    simp
  · rw [List.take_append_of_le_length hle]
    exact h.collected
  · rw [List.take_append_of_le_length hle]
    exact h.headers

theorem InvAt.dispatch {w : RecoveryWorker} {i : ℕ} {next : Option StoredBlock}
    (h : InvAt c segment s batches cur rest pulled) (hp : s.point = .dispatching next)
    (hw : s.workers[i]? = some w) (hidle : w.status = .idle) (hpoint : w.point = .waiting) :
    Inv c segment (s.dispatch c i w next) ∨ GivesUp c segment (s.dispatch c i w next) := by
  have hat := h.point
  rw [AtPoint, hp] at hat
  cases next with
  | none =>
    obtain ⟨rfl, hcur⟩ := hat
    exact .inl ⟨_, [], [], pulled, { h.dispatch hcur hw hidle hpoint with }, rfl, rfl⟩
  | some b =>
    obtain ⟨bs, rfl, hreads, ⟨hheaders, hnum⟩, hcur, ht⟩ := hat
    refine (h.dispatch hcur hw hidle hpoint).fill_advance ht (fun hfits => ?_) hreads hheaders hnum
    have hb := hfits b (h.suffix.subset List.mem_cons_self)
    simpa [setWorker] using hb

/-- The blocks with transactions are the first ones. -/
theorem nonEmpty_isPrefix (h : EmptyLast segment) : nonEmpty segment <+: segment := by
  have htake : segment.takeWhile (fun b => !b.transactions.isEmpty) = nonEmpty segment := by
    apply takeWhile_eq_filter
    exact h.imp fun himp => by simpa using himp
  rw [← htake]
  exact List.takeWhile_prefix _

theorem Base.segment_eq {bs : List StoredBlock} (h : Base c segment s batches cur rest pulled)
    (hbs : batches[pulled]? = some bs) :
    ∃ more, segment = (batches.take pulled).flatten ++ (bs ++ more) := by
  have hsplit : batches.flatten =
      (batches.take pulled).flatten ++ (bs ++ (batches.drop (pulled + 1)).flatten) := by
    obtain ⟨hlt, hget⟩ := List.getElem?_eq_some_iff.mp hbs
    conv_lhs => rw [← List.take_append_drop pulled batches, List.drop_eq_getElem_cons hlt, hget]
    rw [List.flatten_append, List.flatten_cons]
  obtain ⟨empty, hempty⟩ := nonEmpty_isPrefix h.emptyLast
  refine ⟨(batches.drop (pulled + 1)).flatten ++ cur ++ nonEmpty rest ++ empty, ?_⟩
  rw [← hempty, h.blocks, hsplit]
  simp only [List.append_assoc]

theorem zipWith_results (bs more : List StoredBlock) :
    List.zipWith (fun (result : Uint64 × Bytes) (hash : Bytes32) =>
        (blockKey result.1 ++ hash.val, result.2)) (bs.map (result c))
      ((bs ++ more).map StoredBlock.hash) = bs.map (entry c) := by
  induction bs with
  | nil => simp
  | cons b bs ih =>
    simp only [List.map_cons, List.cons_append, List.zipWith_cons_cons, ih]
    rfl

theorem collect_results (bs more : List StoredBlock)
    (h : s.headersForResults = (bs ++ more).map StoredBlock.hash) :
    s.collect (bs.map (result c)) = some { s with
      collected := s.collected ++ bs.map (entry c)
      headersForResults := more.map StoredBlock.hash } := by
  have hlen : (bs.map (result c)).length ≤ s.headersForResults.length := by
    rw [h]
    simp
  rw [RecoveryFarm.collect, if_pos hlen, h, zipWith_results]
  simp

/-- The worker whose batch comes next is through with it. -/
theorem Base.announced {i k : ℕ} {queue : List (ℕ × ℕ)}
    (h : Base c segment s batches cur rest pulled) (hq : s.batchesCompleted = (i, k) :: queue) :
    ∃ w bs, s.workers[i]? = some w ∧ batches[pulled]? = some bs ∧ w.Outcome c bs ∧
      w.kicked = false ∧ (w.point = .waiting ∨ w.point = .signalled) ∧
      Assigned ((s.workers.map RecoveryWorker.phase).set i .free) queue (pulled + 1) batches.length := by
  have hassigned := h.assigned
  rw [hq] at hassigned
  obtain ⟨hphase, rfl, hnext⟩ := hassigned.pull
  rw [List.getElem?_map, Option.map_eq_some_iff] at hphase
  obtain ⟨w, hw, hphase⟩ := hphase
  cases h.valid w (List.mem_of_getElem? hw) with
  | free status kicked point =>
    rw [RecoveryWorker.phase_eq_free.mpr status] at hphase
    cases hphase
  | assigned bs status mem batch point =>
    rw [RecoveryWorker.phase, status] at hphase
    cases hphase
  | through bs outcome mem kicked point =>
    rw [outcome.phase_eq] at hphase
    split_ifs at hphase with hsig
    cases hphase
    exact ⟨w, bs, hw, mem, outcome, kicked, point.resolve_left hsig, hnext⟩

/-- The blocks of a batch are among those of the segment. -/
theorem Base.mem_segment {bs : List StoredBlock} {b : StoredBlock}
    (h : Base c segment s batches cur rest pulled) (hbs : batches[pulled]? = some bs)
    (hb : b ∈ bs) : b ∈ segment := by
  obtain ⟨more, hmore⟩ := h.segment_eq hbs
  rw [hmore]
  exact List.mem_append_right _ (List.mem_append_left _ hb)

/-- The blocks of a batch that did not recover are among those of the segment. -/
theorem Base.not_recovers (h : Base c segment s batches cur rest pulled) (hf : s.frontFailed) :
    ¬∀ b ∈ segment, Recovers c b := by
  intro hrec
  obtain ⟨⟨i, k⟩, hx, hf⟩ := (Option.any_eq_true _ _).mp hf
  obtain ⟨w, hw, hstatus⟩ := (Option.any_eq_true _ _).mp hf
  obtain ⟨queue, hq⟩ := List.head?_eq_some_iff.mp hx
  obtain ⟨w', bs, hw', hbs, houtcome, -⟩ := h.announced hq
  cases hw.symm.trans hw'
  cases houtcome with
  | recovered hready => simp [hready] at hstatus
  | failed herror hfails => exact hfails fun b hb => hrec b (h.mem_segment hbs hb)

/-- The first batch of the queue is collected, where it recovered: its results belong to the next
headers. -/
theorem Base.pull {x : ℕ × ℕ} {queue : List (ℕ × ℕ)} (h : Base c segment s batches cur rest pulled)
    (hq : s.batchesCompleted = x :: queue) :
    (∃ s', s.pull = some s' ∧ Base c segment s' batches cur rest (pulled + 1) ∧
      s'.batchesCompleted = queue ∧
      (∃ i w, s.workers[i]? = some w ∧
        s'.workers = s.workers.set i { w with status := .idle, results := [] }) ∧
      s' = { s with
        workers := s'.workers, batchesCompleted := s'.batchesCompleted, collected := s'.collected,
        headersForResults := s'.headersForResults }) ∨
    s.frontFailed := by
  obtain ⟨i, k⟩ := x
  obtain ⟨w, bs, hw, hbs, houtcome, hkicked, hpoint, hassigned⟩ := h.announced hq
  cases houtcome with
  | failed hstatus hfails =>
    exact .inr (by simp [frontFailed, hq, hw, hstatus])
  | recovered hstatus hrec hresults =>
    obtain ⟨more, hmore⟩ := h.segment_eq hbs
    have htake : (batches.take (pulled + 1)).flatten = (batches.take pulled).flatten ++ bs := by
      rw [List.take_add_one, hbs]
      simp
    have hheaders : s.headersForResults = (bs ++ more).map StoredBlock.hash := by
      rw [h.headers, hmore, List.drop_left]
    have hcollect := collect_results (c := c)
      (s := { s with batchesCompleted := queue }.setWorker i { w with status := .idle, results := [] })
      bs more hheaders
    have hpull : s.pull = ({ s with batchesCompleted := queue }.setWorker i
        { w with status := .idle, results := [] }).collect w.results := by
      rw [RecoveryFarm.pull, hq]
      simp only [hw, hstatus]
    refine .inl ⟨_, hpull.trans ((congrArg _ hresults).trans hcollect), ?_, rfl, ⟨i, w, hw, rfl⟩, rfl⟩
    refine
      { h with
        assigned := ?_
        completed := ?_
        valid := ?_
        workersLe := ?_
        recovered := ?_
        collected := ?_
        headers := ?_ }
    · simp only [setWorker, List.map_set]
      exact hassigned
    · simp only [setWorker]
      rw [h.completed, hq, List.length_cons]
      omega
    · intro v hv
      rcases List.mem_or_eq_of_mem_set hv with hv | rfl
      · exact h.valid v hv
      · exact .free rfl hkicked (.inr hpoint)
    · simp only [setWorker, List.length_set]
      exact h.workersLe
    · rw [htake]
      exact List.forall_mem_append.mpr ⟨h.recovered, hrec⟩
    · rw [htake, List.map_append, ← h.collected]
      rfl
    · rw [htake, hmore, ← List.append_assoc, List.drop_left]

/-- A batch that did not recover ends the last collection, and makes the farm give up before. -/
theorem pull_of_frontFailed (h : s.frontFailed) : ∃ s', s.pull = some s' ∧
    (s.point = .collecting → s'.point = .done ∧ s'.ret = s.ret) ∧
    (s.point ≠ .collecting → s'.Failed) := by
  obtain ⟨x, hx, h⟩ := (Option.any_eq_true _ _).mp h
  obtain ⟨w, hw, hstatus⟩ := (Option.any_eq_true _ _).mp h
  have hstatus : w.status = .error := of_decide_eq_true hstatus
  obtain ⟨queue, hq⟩ := List.head?_eq_some_iff.mp hx
  rw [RecoveryFarm.pull, hq]
  simp only [hw, hstatus]
  cases hp : s.point with
  | collecting => exact ⟨_, rfl, fun _ => ⟨rfl, rfl⟩, fun hne => absurd rfl hne⟩
  | _ => exact ⟨_, rfl, fun heq => (by cases heq), fun _ => ⟨by simp [fail], .inl rfl⟩⟩

/-- A pending batch is being worked at, or its outcome waits for the signal. -/
theorem pending_cases {w : RecoveryWorker} {k : ℕ} (hv : w.Valid c batches)
    (hphase : w.phase = .pending k) : w.batchId = k ∧ (w.status = .working ∨
      w.point = .signalling) := by
  cases hv with
  | free status kicked point =>
    rw [RecoveryWorker.phase_eq_free.mpr status] at hphase
    cases hphase
  | assigned bs status mem batch point =>
    rw [RecoveryWorker.phase, status] at hphase
    cases hphase
    exact ⟨rfl, .inl status⟩
  | through bs outcome mem kicked point =>
    rw [outcome.phase_eq] at hphase
    split_ifs at hphase with hsig
    cases hphase
    exact ⟨rfl, .inr hsig⟩

/-- A worker announces its batch when it comes next. -/
theorem Base.signal {w : RecoveryWorker} {i : ℕ} (h : Base c segment s batches cur rest pulled)
    (hw : s.workers[i]? = some w) (hp : w.point = .signalling)
    (hid : s.completedBatchId = w.batchId) :
    Base c segment { s.setWorker i { w with point := .signalled } with
      batchesCompleted := s.batchesCompleted ++ [(i, w.batchId)]
      completedBatchId := s.completedBatchId + 1 } batches cur rest pulled := by
  have hvalid := h.valid w (List.mem_of_getElem? hw)
  cases hvalid with
  | free status kicked point => simp [hp] at point
  | assigned bs status mem batch point => simp [hp] at point
  | through bs outcome mem kicked point =>
    have hnext : w.batchId = pulled + s.batchesCompleted.length := hid.symm.trans h.completed
    have hphase : w.phase = .pending (pulled + s.batchesCompleted.length) := by
      rw [outcome.phase_eq, ← hnext]
      exact if_pos hp
    have hassigned := h.assigned.signal ((getElem?_map_phase hw).trans (congrArg some hphase))
    have houtcome : RecoveryWorker.Outcome c { w with point := .signalled } bs := by
      cases outcome with
      | recovered status recovers results => exact .recovered status recovers results
      | failed status fails => exact .failed status fails
    have hnew : RecoveryWorker.phase { w with point := .signalled } =
        .announced (pulled + s.batchesCompleted.length) := by
      rw [houtcome.phase_eq, ← hnext]
      exact if_neg (by simp)
    refine
      { h with
        assigned := ?_
        completed := ?_
        valid := ?_
        workersLe := ?_ }
    · simp only [setWorker, List.map_set]
      rw [hnew, hnext]
      exact hassigned
    · rw [List.length_append, h.completed]
      rfl
    · intro v hv
      rcases List.mem_or_eq_of_mem_set hv with hv | rfl
      · exact h.valid v hv
      · exact .through bs houtcome mem kicked (.inr (.inr rfl))
    · simp only [setWorker, List.length_set]
      exact h.workersLe

/-- The threads leave the loop of the farm alone. -/
theorem Base.thread {i : ℕ} (h : Base c segment s batches cur rest pulled)
    (hs : s.threadStep c i = some s') :
    Base c segment s' batches cur rest pulled ∧
      s.batchesCompleted.length ≤ s'.batchesCompleted.length ∧
      s' = { s with
        workers := s'.workers, batchesCompleted := s'.batchesCompleted,
        completedBatchId := s'.completedBatchId } := by
  cases hw : s.workers[i]? with
  | none =>
    rw [threadStep, hw] at hs
    cases hs
  | some w =>
    by_cases hp : w.point = .signalling
    · rw [threadStep_signal hw hp] at hs
      split_ifs at hs with hid
      cases hs
      refine ⟨h.signal hw hp hid, ?_, rfl⟩
      rw [List.length_append]
      exact Nat.le_add_right _ _
    · rw [threadStep_next hw hp] at hs
      obtain ⟨w', hw', rfl⟩ := Option.map_eq_some_iff.mp hs
      have hvalid := h.valid w (List.mem_of_getElem? hw)
      obtain ⟨hvalid', hphase⟩ := hvalid.next h.batchable hw'
      refine ⟨{ h with assigned := ?_, valid := ?_, workersLe := ?_ }, le_rfl, rfl⟩
      · obtain ⟨hlt, hget⟩ := List.getElem?_eq_some_iff.mp (getElem?_map_phase hw)
        have hself : (s.workers.map RecoveryWorker.phase).set i w'.phase =
            s.workers.map RecoveryWorker.phase := by
          rw [hphase, ← hget, List.set_getElem_self hlt]
        simp only [setWorker, List.map_set, hself]
        exact h.assigned
      · intro v hv
        rcases List.mem_or_eq_of_mem_set hv with hv | rfl
        · exact h.valid v hv
        · exact hvalid'
      · simp only [setWorker, List.length_set]
        exact h.workersLe

theorem firstIdle_eq_some {i : ℕ} (h : s.firstIdle = some i) :
    ∃ w, s.workers[i]? = some w ∧ w.status = .idle := by
  obtain ⟨hlt, hidle, -⟩ := List.findIdx?_eq_some_iff_getElem.mp h
  exact ⟨s.workers[i], List.getElem?_eq_getElem hlt, by simpa using hidle⟩

theorem firstIdle_eq_none (h : s.firstIdle = none) : ∀ w ∈ s.workers, w.status ≠ .idle := by
  simpa using List.findIdx?_eq_none_iff.mp h

/-- When no worker is at a batch and none is about to signal, all batches are announced. -/
theorem Base.all_announced (h : Base c segment s batches cur rest pulled)
    (hwork : ∀ w ∈ s.workers, w.status ≠ .working) (hsig : ∀ w ∈ s.workers, w.point ≠ .signalling) :
    pulled + s.batchesCompleted.length = batches.length := by
  refine Nat.le_antisymm h.assigned.le (Nat.le_of_not_lt fun hlt => ?_)
  obtain ⟨i, hi⟩ := h.assigned.owner _ le_rfl hlt
  rw [List.getElem?_map, Option.map_eq_some_iff] at hi
  obtain ⟨w, hw, hphase⟩ := hi
  have hmem := List.mem_of_getElem? hw
  rcases (pending_cases (h.valid w hmem) hphase).2 with hstatus | hpoint
  · exact hwork w hmem hstatus
  · exact hsig w hmem hpoint

theorem InvAt.pull {x : ℕ × ℕ} {queue : List (ℕ × ℕ)} {p : FarmPoint}
    (h : InvAt c segment { s with point := p } batches cur rest pulled)
    (hq : s.batchesCompleted = x :: queue) (hp : p ≠ .done) :
    (∃ s', pull { s with point := p } = some s' ∧
      InvAt c segment s' batches cur rest (pulled + 1)) ∨
    s.frontFailed := by
  refine (h.toBase.pull hq).imp_left fun ⟨s', hs', hbase, hq', _, heq⟩ => ⟨s', hs', hbase, ?_⟩
  have hat := h.point
  rw [heq]
  cases p with
  | collecting =>
    obtain ⟨hrest, hcur, hall⟩ := hat
    refine ⟨hrest, hcur, ?_⟩
    simp only [hq', hq, List.length_cons] at hall ⊢
    omega
  | done => exact absurd rfl hp
  | dispatching next => cases next <;> exact hat
  | bufferizing next => cases next <;> exact hat
  | _ => exact hat

/-- The last collection meets a batch that did not recover. -/
def Discards (s : RecoveryFarm) : Event → Prop
  | .pull => s.point = .collecting ∧ s.frontFailed
  | _ => False

/-- Calm steps keep the blocks in their places, unless a signature does not recover. -/
theorem Inv.step {e : Event} (h : Inv c segment s) (hstep : s.CalmStep c e s') :
    Inv c segment s' ∨ GivesUp c segment s' ∨
      (s.Discards e ∧ s'.point = .done ∧ s'.ret = .succeded) ∧ ¬∀ b ∈ segment, Recovers c b := by
  obtain ⟨batches, cur, rest, pulled, h⟩ := h
  obtain ⟨hcalm, hstep⟩ := hstep
  have hat := h.point
  have hpulled (p : FarmPoint) (hp : p ≠ .done) (hsame : p = .collecting → s.point = p)
      (hpull : pull { s with point := p } = some s')
      (hinv : InvAt c segment { s with point := p } batches cur rest pulled) :
      Inv c segment s' ∨ GivesUp c segment s' ∨
        (s.Discards .pull ∧ s'.point = .done ∧ s'.ret = .succeded) ∧
          ¬∀ b ∈ segment, Recovers c b := by
    cases hq : s.batchesCompleted with
    | nil => simp [RecoveryFarm.pull, hq] at hpull
    | cons x queue =>
      rcases hinv.pull hq hp with ⟨s'', hs'', h'⟩ | hfront
      · cases hs''.symm.trans hpull
        exact .inl ⟨batches, cur, rest, pulled + 1, h'⟩
      · have hfails := h.not_recovers hfront
        have hfront' : frontFailed { s with point := p } := hfront
        obtain ⟨s'', hs'', hlast, hearly⟩ := pull_of_frontFailed hfront'
        cases hs''.symm.trans hpull
        refine .inr ?_
        by_cases hcollecting : p = .collecting
        · obtain ⟨hdone, hret⟩ := hlast hcollecting
          exact .inr ⟨⟨⟨(hsame hcollecting).trans hcollecting, hfront⟩, hdone, hret.trans h.ret⟩, hfails⟩
        · exact .inl ⟨hearly hcollecting, hfails⟩
  cases took_of_step hstep with
  | read hp => exact (h.read hp).imp_right .inl
  | spawn hp hmax =>
    rw [AtPoint, hp] at hat
    refine .inl ⟨batches, cur, rest, pulled, { h.spawn hmax with }, ?_⟩
    rw [AtPoint, hp]
    exact hat
  | dispatch hp hi hw =>
    obtain ⟨w', hw', hidle⟩ := firstIdle_eq_some hi
    cases hw'.symm.trans hw
    exact (h.dispatch hp hw hidle (hcalm _ _ hi hw)).imp_right .inl
  | @pullEarly next _ hp hpull =>
    rw [AtPoint, hp] at hat
    exact hpulled (.bufferizing next) (by simp) (by simp) hpull
      ⟨{ h.toBase with }, by cases next <;> exact hat⟩
  | pull hp hpull =>
    have hne : s.point ≠ .done := by
      rcases hp with ⟨next, hp⟩ | hp
      all_goals simp [hp]
    exact hpulled s.point hne (fun _ => rfl) hpull h
  | @resume next hp hq =>
    rw [AtPoint, hp] at hat
    exact .inl ⟨batches, cur, rest, pulled, { h.toBase with }, by cases next <;> exact hat⟩
  | finish hp hq =>
    rw [AtPoint, hp] at hat
    obtain ⟨hrest, hcur, hall⟩ := hat
    rw [hq] at hall
    exact .inl ⟨batches, cur, rest, pulled, { h.toBase with }, hrest, hcur, hall⟩
  | settle hp hwork =>
    rw [AtPoint, hp] at hat
    have hall := h.all_announced hwork hcalm
    refine .inl ⟨batches, cur, rest, pulled, { h.toBase with }, ?_⟩
    rw [AtPoint, if_pos h.ret]
    exact ⟨hat.1, hat.2, hall⟩
  | thread hthread =>
    obtain ⟨hbase, hlen, heq⟩ := h.toBase.thread hthread
    refine .inl ⟨batches, cur, rest, pulled, hbase, ?_⟩
    have hle := hbase.assigned.le
    rw [heq]
    rw [AtPoint] at hat ⊢
    dsimp only at hat ⊢
    cases hp : s.point with
    | collecting =>
      rw [hp] at hat
      obtain ⟨hrest, hcur, hall⟩ := hat
      exact ⟨hrest, hcur, by omega⟩
    | dispatching next =>
      rw [hp] at hat
      cases next <;> exact hat
    | bufferizing next =>
      rw [hp] at hat
      cases next <;> exact hat
    | _ =>
      rw [hp] at hat
      exact hat

/-- Where all signatures recover, calm steps keep the blocks in their places. -/
theorem Inv.step_of_recovers {e : Event} (h : Inv c segment s) (hrec : ∀ b ∈ segment, Recovers c b)
    (hstep : s.CalmStep c e s') : Inv c segment s' :=
  (h.step hstep).resolve_right fun hfails => hfails.elim (fun h => h.2 hrec) fun h => h.2 hrec

end Steps

section Memory

variable {c : Crypto} {s s' : RecoveryFarm}

theorem same_endOfBlocks (s : RecoveryFarm) :
    s.endOfBlocks.maxBatchSize = s.maxBatchSize ∧ s.endOfBlocks.workers = s.workers := by
  rw [endOfBlocks]
  split_ifs <;> exact ⟨rfl, rfl⟩

theorem same_advance (s : RecoveryFarm) :
    s.advance.maxBatchSize = s.maxBatchSize ∧ s.advance.workers = s.workers := by
  rw [advance]
  split
  · exact ⟨rfl, rfl⟩
  · exact same_endOfBlocks _

theorem same_fill (s : RecoveryFarm) (row : StoredBlock) :
    (s.fill c row).maxBatchSize = s.maxBatchSize ∧ (s.fill c row).workers = s.workers := by
  rw [fill]
  split
  · exact same_advance _
  · exact ⟨rfl, rfl⟩

theorem maxBatchSize_read (s : RecoveryFarm) : (s.read c).maxBatchSize = s.maxBatchSize := by
  rw [RecoveryFarm.read]
  cases s.rows with
  | nil => exact (same_endOfBlocks s).1
  | cons row rows =>
    dsimp only
    split_ifs
    · rfl
    · rfl
    · rfl
    · exact (same_advance _).1
    · rfl
    · exact (same_fill _ row).1

theorem maxBatchSize_pull (h : s.pull = some s') : s'.maxBatchSize = s.maxBatchSize := by
  rw [RecoveryFarm.pull] at h
  cases hq : s.batchesCompleted with
  | nil => simp [hq] at h
  | cons x queue =>
    rw [hq] at h
    dsimp only at h
    split at h
    · cases h
    · split at h
      · rw [collect] at h
        split_ifs at h
        cases h
        rfl
      · split at h <;> cases h <;> rfl
      · cases h
        rfl

theorem maxBatchSize_thread {i : ℕ} (h : s.threadStep c i = some s') :
    s'.maxBatchSize = s.maxBatchSize := by
  cases hw : s.workers[i]? with
  | none =>
    rw [threadStep, hw] at h
    cases h
  | some w =>
    by_cases hp : w.point = .signalling
    · rw [threadStep_signal hw hp] at h
      split_ifs at h
      cases h
      rfl
    · rw [threadStep_next hw hp] at h
      obtain ⟨w', -, rfl⟩ := Option.map_eq_some_iff.mp h
      rfl

/-- The memory of the workers stays as it is. -/
theorem maxBatchSize_step {e : Event} (h : s.Step c e s') : s'.maxBatchSize = s.maxBatchSize := by
  cases took_of_step h with
  | read hp => exact maxBatchSize_read s
  | @dispatch next _ _ hp hi hw =>
    cases next with
    | none => rfl
    | some row => exact (same_fill _ row).1
  | pullEarly hp hpull => exact (maxBatchSize_pull hpull :)
  | pull hp hpull => exact maxBatchSize_pull hpull
  | thread hthread => exact maxBatchSize_thread hthread
  | _ => rfl

end Memory

section Termination

variable {c : Crypto} {segment : List StoredBlock} {s s' : RecoveryFarm}
  {batches : List (List StoredBlock)} {cur rest : List StoredBlock} {pulled : ℕ}

/-- How many steps the thread of a worker has before it, with a surplus for the queue. -/
def threadWeight (w : RecoveryWorker) : ℕ :=
  match w.point with
  | .starting => 1
  | .waiting => if w.kicked then 6 else 0
  | .working => 5
  | .signalling => 4
  | .signalled => 1

def pointWeight : FarmPoint → ℕ
  | .dispatching (some _) => 20
  | .bufferizing (some _) => 21
  | .reading => 12
  | .dispatching none => 10
  | .bufferizing none => 11
  | .waiting => 2
  | .collecting => 1
  | .done => 0

def load (s : RecoveryFarm) : ℕ :=
  9 * s.rows.length + 2 * s.batchesCompleted.length + (s.workers.map threadWeight).sum +
    2 * (s.maxWorkers - s.workers.length)

/-- What is left to do. -/
def measure (s : RecoveryFarm) : ℕ := s.load + pointWeight s.point

theorem sum_set {l : List ℕ} {i x : ℕ} (h : l[i]? = some x) (y : ℕ) :
    (l.set i y).sum + x = l.sum + y := by
  induction l generalizing i with
  | nil => simp at h
  | cons z l ih =>
    cases i with
    | zero =>
      simp only [List.getElem?_cons_zero, Option.some.injEq] at h
      simp only [List.set_cons_zero, List.sum_cons]
      omega
    | succ i =>
      have htail := ih (i := i) (by simpa using h)
      simp only [List.set_cons_succ, List.sum_cons]
      omega

/-- The load after one worker was replaced. -/
theorem load_setWorker {i : ℕ} {w : RecoveryWorker} (hw : s.workers[i]? = some w)
    (w' : RecoveryWorker) : (s.setWorker i w').load + threadWeight w = s.load + threadWeight w' := by
  have hsum := sum_set (l := s.workers.map threadWeight) (i := i) (x := threadWeight w)
    (by rw [List.getElem?_map, hw, Option.map_some]) (threadWeight w')
  simp only [load, setWorker, List.map_set, List.length_set]
  omega

theorem load_advance (s : RecoveryFarm) : s.advance.load = s.load ∧ pointWeight s.advance.point ≤ 12 := by
  have hend (s : RecoveryFarm) : s.endOfBlocks.load = s.load ∧ pointWeight s.endOfBlocks.point ≤ 12 := by
    rw [endOfBlocks]
    split_ifs
    · exact ⟨rfl, by simp [pointWeight]⟩
    · exact ⟨rfl, by simp [pointWeight]⟩
  rw [advance]
  split
  · exact ⟨rfl, le_rfl⟩
  · exact hend _

theorem load_fill (s : RecoveryFarm) (row : StoredBlock) :
    (s.fill c row).load = s.load ∧ pointWeight (s.fill c row).point ≤ 12 := by
  rw [fill]
  split
  · exact load_advance _
  · exact ⟨rfl, by simp [fail, pointWeight]⟩

theorem measure_read (hp : s.point = .reading) : (s.read c).measure < s.measure := by
  have hweight : pointWeight s.point = 12 := by rw [hp, pointWeight]
  rw [measure, measure, hweight, RecoveryFarm.read]
  cases hr : s.rows with
  | nil =>
    have hend : s.endOfBlocks.load = s.load ∧ pointWeight s.endOfBlocks.point < 12 := by
      rw [endOfBlocks]
      split_ifs
      · exact ⟨rfl, by simp [pointWeight]⟩
      · exact ⟨rfl, by simp [pointWeight]⟩
    dsimp only
    omega
  | cons row rows =>
    have hload : load { s with rows } + 9 = s.load := by
      simp only [load, hr, List.length_cons]
      omega
    dsimp only
    split_ifs
    · simp only [hweight]
      omega
    · simp only [load, pointWeight] at hload ⊢
      omega
    · simp only [hweight]
      omega
    · have hadvance := load_advance { s with rows }
      omega
    · simp only [load, pointWeight] at hload ⊢
      omega
    · have hfill := load_fill (c := c) { s with rows } row
      omega

theorem measure_dispatch {w : RecoveryWorker} {i : ℕ} {next : Option StoredBlock}
    (hp : s.point = .dispatching next) (hw : s.workers[i]? = some w) (hpoint : w.point = .waiting)
    (hkicked : w.kicked = false) : (s.dispatch c i w next).measure < s.measure := by
  have hload := load_setWorker hw
    { w with batch := some s.batch, batchId := s.batchId, status := .working, kicked := true }
  have hbefore : threadWeight w = 0 := by simp [threadWeight, hpoint, hkicked]
  have hafter : threadWeight { w with
      batch := some s.batch, batchId := s.batchId, status := .working, kicked := true } = 6 := by
    simp [threadWeight, hpoint]
  rw [hbefore, hafter] at hload
  rw [measure, measure, hp]
  cases next with
  | none =>
    simp only [RecoveryFarm.dispatch, load, pointWeight] at hload ⊢
    omega
  | some row =>
    have hfill := load_fill (c := c) { s.setWorker i { w with
      batch := some s.batch, batchId := s.batchId, status := .working, kicked := true } with
      batchId := s.batchId + 1, batch := [] } row
    simp only [RecoveryFarm.dispatch, load, pointWeight] at hload hfill ⊢
    omega

/-- A thread comes closer to waiting with every step. -/
theorem threadWeight_next {w w' : RecoveryWorker} {maxBatchSize : ℕ} (hv : w.Valid c batches)
    (hw : w.next c maxBatchSize = some w') : threadWeight w' < threadWeight w := by
  rw [RecoveryWorker.next] at hw
  cases hp : w.point with
  | starting =>
    rw [hp] at hw
    cases hw
    simp [threadWeight, hp]
  | waiting =>
    rw [hp] at hw
    dsimp only at hw
    split_ifs at hw with hkicked
    cases hw
    simp [threadWeight, hp, hkicked]
  | working =>
    rw [hp] at hw
    dsimp only at hw
    split at hw
    · split_ifs at hw
      cases hw
      simp [threadWeight, hp]
    · cases hw
  | signalling =>
    rw [hp] at hw
    cases hw
  | signalled =>
    rw [hp] at hw
    cases hw
    have hkicked : w.kicked = false := by
      cases hv with
      | free status kicked point => exact kicked
      | assigned bs status mem batch point => simp [hp] at point
      | through bs outcome mem kicked point => exact kicked
    simp [threadWeight, hp, hkicked]

theorem measure_thread {i : ℕ} (h : Base c segment s batches cur rest pulled)
    (hs : s.threadStep c i = some s') : s'.measure < s.measure := by
  cases hw : s.workers[i]? with
  | none =>
    rw [threadStep, hw] at hs
    cases hs
  | some w =>
    by_cases hp : w.point = .signalling
    · rw [threadStep_signal hw hp] at hs
      split_ifs at hs
      cases hs
      have hload := load_setWorker hw { w with point := .signalled }
      simp only [threadWeight, hp] at hload
      simp only [measure, load, setWorker, List.length_append, List.length_singleton] at hload ⊢
      omega
    · rw [threadStep_next hw hp] at hs
      obtain ⟨w', hw', rfl⟩ := Option.map_eq_some_iff.mp hs
      have hload := load_setWorker hw w'
      have hlt := threadWeight_next (h.valid w (List.mem_of_getElem? hw)) hw'
      have hpoint : (s.setWorker i w').point = s.point := rfl
      rw [measure, measure, hpoint]
      omega

theorem measure_pull {x : ℕ × ℕ} {queue : List (ℕ × ℕ)} {p : FarmPoint}
    (h : Base c segment { s with point := p } batches cur rest pulled)
    (hrec : ∀ b ∈ segment, Recovers c b) (hq : s.batchesCompleted = x :: queue)
    (hs : pull { s with point := p } = some s') : s'.load + 2 = s.load ∧ s'.point = p := by
  obtain ⟨s'', hs'', -, hq', ⟨i, w, hw, hworkers⟩, heq⟩ :=
    (h.pull hq).resolve_right fun hfront => h.not_recovers hfront hrec
  cases hs''.symm.trans hs
  have hload := load_setWorker (s := s) hw { w with status := .idle, results := [] }
  have hweight : threadWeight { w with status := .idle, results := [] } = threadWeight w := rfl
  rw [heq]
  refine ⟨?_, rfl⟩
  simp only [load, setWorker, hworkers, hq', hq, List.length_cons] at hload ⊢
  omega

/-- Every calm step leaves less to do. -/
theorem Inv.measure_lt {e : Event} (h : Inv c segment s) (hrec : ∀ b ∈ segment, Recovers c b)
    (hstep : s.CalmStep c e s') : s'.measure < s.measure := by
  obtain ⟨batches, cur, rest, pulled, h⟩ := h
  obtain ⟨hcalm, hstep⟩ := hstep
  have hpulled (p : FarmPoint) (hbase : Base c segment { s with point := p } batches cur rest pulled)
      (hpull : pull { s with point := p } = some s') : s'.load + 2 = s.load ∧ s'.point = p := by
    cases hq : s.batchesCompleted with
    | nil => simp [RecoveryFarm.pull, hq] at hpull
    | cons x queue => exact measure_pull hbase hrec hq hpull
  cases took_of_step hstep with
  | read hp => exact measure_read hp
  | spawn hp hmax =>
    have hlimit := h.maxWorkers
    have hle := h.workersLe
    have hnew : threadWeight {} = 1 := rfl
    simp only [measure, load, List.map_append, List.map_cons, List.map_nil, List.sum_append,
      List.sum_cons, List.sum_nil, List.length_append, List.length_singleton, hnew]
    omega
  | @dispatch next i w hp hi hw =>
    have hidle : w.status = .idle := by
      obtain ⟨w', hw', hidle⟩ := firstIdle_eq_some hi
      cases hw'.symm.trans hw
      exact hidle
    have hkicked : w.kicked = false := by
      cases h.valid w (List.mem_of_getElem? hw) with
      | free status kicked point => exact kicked
      | assigned bs status mem batch point => simp [hidle] at status
      | through bs outcome mem kicked point => exact kicked
    exact measure_dispatch hp hw (hcalm _ _ hi hw) hkicked
  | @pullEarly next _ hp hpull =>
    obtain ⟨hload, hp'⟩ := hpulled (.bufferizing next) { h.toBase with } hpull
    rw [measure, measure, hp, hp']
    cases next <;> simp only [pointWeight] <;> omega
  | pull hp hpull =>
    obtain ⟨hload, hp'⟩ := hpulled s.point h.toBase hpull
    rw [measure, measure, hp']
    omega
  | @resume next hp hq =>
    rw [measure, measure, hp]
    cases next <;> simp only [load, pointWeight] <;> omega
  | finish hp hq =>
    rw [measure, measure, hp]
    simp only [load, pointWeight]
    omega
  | settle hp hwork =>
    rw [measure, measure, hp]
    split_ifs <;> simp [load, pointWeight]
  | thread hthread => exact measure_thread h.toBase hthread

/-- The worker whose batch is to be announced next can take a step. -/
theorem Base.thread_progress (h : Base c segment s batches cur rest pulled)
    (hf : Fits s.maxBatchSize segment)
    (hlt : pulled + s.batchesCompleted.length < batches.length) :
    ∃ i s', s.threadStep c i = some s' := by
  obtain ⟨i, hi⟩ := h.assigned.owner _ le_rfl hlt
  rw [List.getElem?_map, Option.map_eq_some_iff] at hi
  obtain ⟨w, hw, hphase⟩ := hi
  have hmem := List.mem_of_getElem? hw
  have hnext (w' : RecoveryWorker) (hp : w.point ≠ .signalling)
      (hw' : w.next c s.maxBatchSize = some w') : ∃ s', s.threadStep c i = some s' := by
    rw [threadStep_next hw hp, hw']
    exact ⟨_, rfl⟩
  refine ⟨i, ?_⟩
  cases h.valid w hmem with
  | free status kicked point =>
    rw [RecoveryWorker.phase_eq_free.mpr status] at hphase
    cases hphase
  | assigned bs status mem batch point =>
    rcases point with ⟨point, kicked⟩ | ⟨point, kicked⟩
    · refine hnext { w with kicked := false, results := [], point := .working } (by simp [point]) ?_
      rw [RecoveryWorker.next, point]
      simp [kicked]
    · obtain ⟨hbatch, hne⟩ := h.batchable bs (List.mem_of_getElem? mem)
      obtain ⟨b, bs, rfl⟩ := List.exists_cons_of_ne_nil hne
      obtain ⟨p, ps, hps, -⟩ := hbatch.packages_eq_cons
      have hfits := (h.batchesFit (b :: bs) (List.mem_of_getElem? mem)).2 hf
      rw [hps] at hfits batch
      have hsome : ∃ w', w.next c s.maxBatchSize = some w' := by
        rw [RecoveryWorker.next, point, batch]
        dsimp only
        rw [if_pos hfits]
        exact ⟨_, rfl⟩
      obtain ⟨w', hw'⟩ := hsome
      exact hnext w' (by simp [point]) hw'
  | through bs outcome mem kicked point =>
    rw [outcome.phase_eq] at hphase
    split_ifs at hphase with hsig
    have hid : w.batchId = pulled + s.batchesCompleted.length := Phase.pending.inj hphase
    rw [threadStep_signal hw hsig, if_pos (h.completed.trans hid.symm)]
    exact ⟨_, rfl⟩

/-- A worker at a batch, or before its signal, has a batch that is not announced. -/
theorem Base.lt_of_pending {w : RecoveryWorker} (h : Base c segment s batches cur rest pulled)
    (hw : w ∈ s.workers) (hp : w.status = .working ∨ w.point = .signalling) :
    pulled + s.batchesCompleted.length < batches.length := by
  obtain ⟨i, hi⟩ := List.getElem?_of_mem hw
  have hphase : ∃ k, w.phase = .pending k := by
    cases h.valid w hw with
    | free status kicked point => simp [status] at hp; simp [hp] at point
    | assigned bs status mem batch point => exact ⟨w.batchId, by simp [RecoveryWorker.phase, status]⟩
    | through bs outcome mem kicked point =>
      have hsig : w.point = .signalling := hp.resolve_left outcome.status_ne.2
      exact ⟨w.batchId, by rw [outcome.phase_eq, if_pos hsig]⟩
  obtain ⟨k, hk⟩ := hphase
  obtain ⟨hle, hlt⟩ := h.assigned.pending i k ((getElem?_map_phase hi).trans (congrArg some hk))
  omega

theorem InvAt.pull_progress (h : InvAt c segment s batches cur rest pulled)
    (hrec : ∀ b ∈ segment, Recovers c b) (hp : (∃ next, s.point = .bufferizing next) ∨ s.point = .collecting) :
    ∃ e s', s.CalmStep c e s' := by
  cases hq : s.batchesCompleted with
  | nil =>
    rcases hp with ⟨next, hp⟩ | hp
    · exact ⟨.resume, _, trivial, by simp [Step, exec, hq, hp]; rfl⟩
    · exact ⟨.resume, _, trivial, by simp [Step, exec, hq, hp]; rfl⟩
  | cons x queue =>
    obtain ⟨s', hs', -⟩ := (h.toBase.pull hq).resolve_right fun hfront => h.not_recovers hfront hrec
    refine ⟨.pull, s', trivial, ?_⟩
    rcases hp with ⟨next, hp⟩ | hp
    · simpa [Step, exec, hp] using hs'
    · simpa [Step, exec, hp] using hs'

theorem InvAt.dispatch_progress {next : Option StoredBlock}
    (h : InvAt c segment s batches cur rest pulled) (hf : Fits s.maxBatchSize segment)
    (hrec : ∀ b ∈ segment, Recovers c b) (hp : s.point = .dispatching next) : ∃ e s', s.CalmStep c e s' := by
  have hthread (hex : ∃ i s', s.threadStep c i = some s') : ∃ e s', s.CalmStep c e s' := by
    obtain ⟨i, s', hs'⟩ := hex
    exact ⟨.thread i, s', trivial, hs'⟩
  cases hi : s.firstIdle with
  | some i =>
    obtain ⟨w, hw, hidle⟩ := firstIdle_eq_some hi
    have hstep (w' : RecoveryWorker) (hsig : w.point ≠ .signalling)
        (hw' : w.next c s.maxBatchSize = some w') : ∃ e s', s.CalmStep c e s' := by
      refine hthread ⟨i, s.setWorker i w', ?_⟩
      rw [threadStep_next hw hsig, hw', Option.map_some]
    cases h.valid w (List.mem_of_getElem? hw) with
    | free status kicked point =>
      rcases point with point | point | point
      · exact hstep _ (by simp [point]) (by rw [RecoveryWorker.next, point])
      · refine ⟨.dispatch, s.dispatch c i w next, fun j v hj hv => ?_, by simp [Step, exec, hp, hi, hw]⟩
        cases hi.symm.trans hj
        cases hw.symm.trans hv
        exact point
      · exact hstep _ (by simp [point]) (by rw [RecoveryWorker.next, point])
    | assigned bs status mem batch point => simp [hidle] at status
    | through bs outcome mem kicked point => exact absurd hidle outcome.status_ne.1
  | none =>
    by_cases hlen : s.workers.length = 0 ∨ s.workers.length ≠ s.maxWorkers
    · refine ⟨.spawn, { s with workers := s.workers ++ [{}] }, trivial, ?_⟩
      rw [Step, exec]
      simp only [hp]
      rw [if_pos ⟨hi, hlen⟩]
    · cases hq : s.batchesCompleted with
      | nil =>
        refine hthread (h.thread_progress hf ?_)
        have hpos : 0 < s.workers.length := Nat.pos_of_ne_zero fun h => hlen (.inl h)
        have hw : s.workers[0] ∈ s.workers := List.getElem_mem hpos
        have hget : s.workers[0]? = some s.workers[0] := List.getElem?_eq_getElem hpos
        cases hv : h.valid _ hw with
        | free status kicked point => exact absurd status (firstIdle_eq_none hi _ hw)
        | assigned bs status mem batch point => exact h.lt_of_pending hw (.inl status)
        | through bs outcome mem kicked point =>
          refine h.lt_of_pending hw (.inr (by_contra fun hsig => ?_))
          -- the batch would be announced, but the queue is empty
          have hphase : s.workers[0].phase = .announced s.workers[0].batchId := by
            rw [outcome.phase_eq, if_neg hsig]
          have hmem := (h.assigned.announced 0 _).mp
            ((getElem?_map_phase hget).trans (congrArg some hphase))
          rw [hq] at hmem
          cases hmem
      | cons x queue =>
        have hbase : Base c segment { s with point := .bufferizing next } batches cur rest pulled :=
          { h.toBase with }
        obtain ⟨s', hs', -⟩ := (hbase.pull hq).resolve_right fun hfront => h.not_recovers hfront hrec
        obtain ⟨w, bs, hw, -, houtcome, -⟩ := h.announced (i := x.1) (k := x.2) hq
        have hany : (s.workers.any fun w => w.status = .resultsReady ∨ w.status = .error) = true := by
          rw [List.any_eq_true]
          refine ⟨w, List.mem_of_getElem? hw, ?_⟩
          cases houtcome with
          | recovered hstatus => simp [hstatus]
          | failed hstatus => simp [hstatus]
        refine ⟨.pull, s', trivial, ?_⟩
        rw [Step, exec]
        simp only [hp]
        rw [if_pos ⟨hi, hany⟩]
        exact hs'

/-- Until the farm is done, some calm step is possible. -/
theorem Inv.progress (h : Inv c segment s) (hf : Fits s.maxBatchSize segment)
    (hrec : ∀ b ∈ segment, Recovers c b) (hdone : s.point ≠ .done) : ∃ e s', s.CalmStep c e s' := by
  obtain ⟨batches, cur, rest, pulled, h⟩ := h
  cases hp : s.point with
  | reading => exact ⟨.read, s.read c, trivial, by simp [Step, exec, hp]⟩
  | dispatching next => exact h.dispatch_progress hf hrec hp
  | bufferizing next => exact h.pull_progress hrec (.inl ⟨next, hp⟩)
  | waiting =>
    by_cases hlt : pulled + s.batchesCompleted.length < batches.length
    · obtain ⟨i, s', hs'⟩ := h.thread_progress hf hlt
      exact ⟨.thread i, s', trivial, hs'⟩
    · have hwork : (s.workers.all fun w => w.status ≠ .working) = true := by
        simp only [List.all_eq_true, decide_eq_true_eq]
        exact fun w hw hstatus => hlt (h.lt_of_pending hw (.inl hstatus))
      refine ⟨.settle, { s with point := .collecting },
        fun w hw hsig => hlt (h.lt_of_pending hw (.inr hsig)), ?_⟩
      rw [Step, exec]
      simp only [hp]
      rw [if_pos hwork, if_pos h.ret]
  | collecting => exact h.pull_progress hrec (.inr hp)
  | done => exact absurd hp hdone

end Termination

section Results

variable {c : Crypto} {segment : List StoredBlock} {s : RecoveryFarm}

/-- When the farm is done, it has collected the senders of all blocks with transactions. -/
theorem Inv.collected (h : Inv c segment s) (hdone : s.point = .done) :
    s.ret = .succeded ∧ s.collected = (nonEmpty segment).map (entry c) := by
  obtain ⟨batches, cur, rest, pulled, h⟩ := h
  have hat := h.point
  rw [AtPoint, hdone] at hat
  obtain ⟨rfl, rfl, rfl⟩ := hat
  refine ⟨h.ret, ?_⟩
  rw [h.collected, h.blocks, List.take_length]
  simp [nonEmpty]

end Results

end RecoveryFarm

section Start

variable {c : Crypto} {hashes : List (Uint64 × Bytes32)} {bodies : List StoredBlock}
  {b : StoredBlock} {bs : List StoredBlock} {maxWorkers maxBatchSize : ℕ}

theorem getLast_number (h : (b :: bs).IsChain fun b b' => b'.number.toNat = b.number.toNat + 1) :
    ((b :: bs).getLast (List.cons_ne_nil b bs)).number.toNat = b.number.toNat + bs.length := by
  induction bs generalizing b with
  | nil => rfl
  | cons b' bs ih =>
    obtain ⟨hnext, htail⟩ := List.isChain_cons_cons.mp h
    rw [List.getLast_cons_cons, ih htail, hnext, List.length_cons]
    omega

/-- The loop of the farm starts at the first block of the segment. -/
theorem startRecovery_segment (hsegment : CanonicalSegment hashes bodies (b :: bs))
    (hempty : EmptyLast (b :: bs))
    (hworkers : 1 ≤ maxWorkers)
    (hend : ∀ row ∈ hashes, row.1 ≤ ((b :: bs).getLast (List.cons_ne_nil b bs)).number) :
    ∃ s, startRecovery hashes bodies b.number ((b :: bs).getLast (List.cons_ne_nil b bs)).number
        maxWorkers maxBatchSize = .ok s ∧ RecoveryFarm.Inv c (b :: bs) s ∧
      s.maxBatchSize = maxBatchSize := by
  have hfill : fillCanonicalHeaders hashes b.number
      ((b :: bs).getLast (List.cons_ne_nil b bs)).number = .ok ((b :: bs).map StoredBlock.hash) := by
    rw [fillCanonicalHeaders, dropWhile_hashes hsegment.hashesSorted hsegment.consecutive
      hsegment.hash_mem hend]
    exact collectHeaders_segment hsegment.consecutive
  have hcount : ((b :: bs).map StoredBlock.hash).length =
      (((b :: bs).getLast (List.cons_ne_nil b bs)).number - b.number + 1).toNat := by
    have hlast := getLast_number hsegment.consecutive
    have hlt := ((b :: bs).getLast (List.cons_ne_nil b bs)).number.isLt
    have hpos : 0 < b.number.toNat := hsegment.positive b List.mem_cons_self
    have hone : (1 : Uint64).toNat = 1 := rfl
    rw [List.length_map, List.length_cons, BitVec.toNat_add, BitVec.toNat_sub, hlast, hone]
    rw [hlast] at hlt
    omega
  obtain ⟨rows, hrows, hreads⟩ := dropWhile_bodies hsegment
  refine ⟨
    { maxWorkers, maxBatchSize
      headersForReading := (b :: bs).map StoredBlock.hash
      headersForResults := (b :: bs).map StoredBlock.hash
      rows := b :: rows
      expectedBlockNum := b.number }, ?_, ⟨[], [], b :: bs, 0, ?_⟩, rfl⟩
  · have hfirst : (bodies.dropWhile fun row => ¬(row.number = b.number ∧
        some row.hash = ((b :: bs).map StoredBlock.hash).head?)) = b :: rows := hrows
    rw [startRecovery, hfill]
    dsimp only
    rw [if_neg (not_not.mpr hcount), hfirst]
  · exact
      { consecutive := hsegment.consecutive
        emptyLast := hempty
        maxWorkers := hworkers
        assigned := .nil
        completed := rfl
        batchId := rfl
        valid := fun w hw => absurd hw List.not_mem_nil
        workersLe := Nat.zero_le _
        packed := fun b hb => absurd hb List.not_mem_nil
        recovered := fun b hb => absurd hb List.not_mem_nil
        batchesFit := fun bs hbs => absurd hbs List.not_mem_nil
        blocks := rfl
        suffix := List.suffix_refl _
        batch := rfl
        batchFits := fun _ => Nat.zero_le _
        ret := rfl
        collected := rfl
        headers := rfl
        point := ⟨b, bs, rfl, .block hreads, rfl, rfl⟩ }

end Start

section Recovery

/-- What is in the collector when the farm is done, whatever steps were taken before. -/
def CollectsAll (c : Crypto) (hashes : List (Uint64 × Bytes32)) (bodies : List StoredBlock)
    (b : StoredBlock) (bs : List StoredBlock) (maxWorkers maxBatchSize : ℕ) : Prop :=
  ∃ start, startRecovery hashes bodies b.number
      ((b :: bs).getLast (List.cons_ne_nil b bs)).number maxWorkers maxBatchSize = .ok start ∧
    ∀ es s, Run (RecoveryFarm.Step c) start es s → s.point = .done →
      s.collected = (nonEmpty (b :: bs)).map (entry c)

/-- Where blocks without transactions come last, and the table of the hashes ends with the segment,
every calm run ends, and it ends with the senders of every block under the key of the block. -/
theorem recover_collects {c : Crypto} {hashes : List (Uint64 × Bytes32)} {bodies : List StoredBlock}
    {b : StoredBlock} {bs : List StoredBlock} {maxWorkers maxBatchSize : ℕ}
    (hsegment : CanonicalSegment hashes bodies (b :: bs)) (hrecovers : ∀ x ∈ b :: bs, Recovers c x)
    (hfits : ∀ x ∈ b :: bs, x.transactions.length ≤ maxBatchSize) (hworkers : 1 ≤ maxWorkers)
    (hempty : EmptyLast (b :: bs))
    (hend : ∀ row ∈ hashes, row.1 ≤ ((b :: bs).getLast (List.cons_ne_nil b bs)).number) :
    ∃ start, startRecovery hashes bodies b.number
        ((b :: bs).getLast (List.cons_ne_nil b bs)).number maxWorkers maxBatchSize = .ok start ∧
      ∀ es s, Run (RecoveryFarm.CalmStep c) start es s →
        es.length ≤ start.measure ∧
        (s.point ≠ .done → ∃ e s', s.CalmStep c e s') ∧
        (s.point = .done →
          s.ret = .succeded ∧ s.collected = (nonEmpty (b :: bs)).map (entry c)) := by
  obtain ⟨start, hstart, hinv, hsize⟩ := startRecovery_segment hsegment hempty hworkers hend
  refine ⟨start, hstart, fun es s hrun => ?_⟩
  have hs : RecoveryFarm.Inv c (b :: bs) s :=
    hrun.preserves (fun _ _ _ h => h.step_of_recovers hrecovers) hinv
  have hsame : s.maxBatchSize = maxBatchSize :=
    Run.preserves (P := fun s => s.maxBatchSize = maxBatchSize)
      (fun _ _ _ h hstep => (RecoveryFarm.maxBatchSize_step hstep.2).trans h) hrun hsize
  have hf : Fits s.maxBatchSize (b :: bs) := hsame ▸ hfits
  have hlen := hrun.length_add_le RecoveryFarm.measure
    (fun _ _ _ h => h.step_of_recovers hrecovers) (fun _ _ _ h => h.measure_lt hrecovers) hinv
  exact ⟨by omega, hs.progress hf hrecovers, hs.collected⟩

section Example

def constantCrypto : Crypto where
  config := {}
  keccak _ := default
  recover _ _ _ := some [4]

def signedTransaction : Transaction := { r := 1, s := 1 }

def emptyBlock : StoredBlock := ⟨1, FixedBytes.replicate 32 1, []⟩

def blockTwo : StoredBlock := ⟨2, FixedBytes.replicate 32 2, [signedTransaction]⟩

theorem canonical_emptyBlock_blockTwo :
    CanonicalSegment [(1, emptyBlock.hash), (2, blockTwo.hash)] [emptyBlock, blockTwo]
      [emptyBlock, blockTwo] where
  positive := by decide
  hashesSorted := by decide
  bodiesSorted := by simp [StoredBlock.Before, emptyBlock, blockTwo]
  consecutive := by simp [emptyBlock, blockTwo]
  hash_mem := by decide
  body_mem b hb := hb

theorem recovers_blockTwo : Recovers constantCrypto blockTwo := by
  intro txn htxn
  rw [List.mem_singleton.mp htxn]
  exact ⟨⟨List.replicate 20 0, rfl⟩, rfl⟩

/-- The steps of the farm with one worker, none of which overtakes another. -/
def emptyBlockEvents : List RecoveryFarm.Event :=
  [.read, .read, .spawn, .thread 0, .dispatch, .thread 0, .thread 0, .thread 0, .thread 0, .settle,
    .pull, .resume]

/-- The only result gets the hash of the first header, which is the one of the empty block. -/
theorem not_recover_collects :
    ¬∀ (c : Crypto) (hashes : List (Uint64 × Bytes32)) (bodies : List StoredBlock)
      (b : StoredBlock) (bs : List StoredBlock) (maxWorkers maxBatchSize : ℕ),
      CanonicalSegment hashes bodies (b :: bs) → (∀ x ∈ b :: bs, Recovers c x) →
      (∀ x ∈ b :: bs, x.transactions.length ≤ maxBatchSize) → 1 ≤ maxWorkers →
      CollectsAll c hashes bodies b bs maxWorkers maxBatchSize := by
  intro h
  obtain ⟨start, hstart, hall⟩ := h constantCrypto _ _ emptyBlock [blockTwo] 1 1
    canonical_emptyBlock_blockTwo
    (by simpa using ⟨fun txn htxn => absurd htxn List.not_mem_nil, recovers_blockTwo⟩)
    (by decide) le_rfl
  have hrun : ∃ s, emptyBlockEvents.foldlM (RecoveryFarm.exec constantCrypto) start = some s ∧
      s.point = .done ∧
      s.collected = [(blockKey 2 ++ emptyBlock.hash.val, List.replicate 20 0)] := by
    cases hstart
    exact ⟨_, rfl, rfl, rfl⟩
  obtain ⟨s, hs, hdone, hcollected⟩ := hrun
  have hexpected := hall emptyBlockEvents s (Run.of_foldlM hs) hdone
  rw [hcollected] at hexpected
  have hkey : blockKey 2 ++ emptyBlock.hash.val = blockKey 2 ++ blockTwo.hash.val :=
    (Prod.mk.inj (List.cons.inj hexpected).1).1
  exact absurd (List.append_cancel_left hkey) (by decide)

/-- A key is read from the signature itself, where the parity is even. -/
def parityCrypto : Crypto where
  config := {}
  keccak := Keccak.keccak256
  recover _ signature oddYParity := if oddYParity then none else some (4 :: signature)

def blockOne : StoredBlock :=
  ⟨1, FixedBytes.replicate 32 1, [signedTransaction, { r := 2, s := 3 }]⟩

def blockThree : StoredBlock := ⟨3, FixedBytes.replicate 32 3, []⟩

/-- A block that is stored, but not canonical. -/
def siblingBlock : StoredBlock := ⟨1, FixedBytes.replicate 32 0, [signedTransaction]⟩

def threeHashes : List (Uint64 × Bytes32) :=
  (0, FixedBytes.replicate 32 0) :: [blockOne, blockTwo, blockThree].map fun b => (b.number, b.hash)

theorem canonical_threeBlocks :
    CanonicalSegment threeHashes [siblingBlock, blockOne, blockTwo, blockThree]
      [blockOne, blockTwo, blockThree] where
  positive := by decide
  hashesSorted := by decide
  bodiesSorted := by decide
  consecutive := by simp [blockOne, blockTwo, blockThree]
  hash_mem := by decide
  body_mem b hb := List.mem_cons_of_mem _ hb

theorem recovers_threeBlocks :
    ∀ b ∈ [blockOne, blockTwo, blockThree], Recovers parityCrypto b := by
  intro b hb txn htxn
  simp only [List.mem_cons, List.not_mem_nil, or_false] at hb
  rcases hb with rfl | rfl | rfl
  · rcases List.mem_pair.mp htxn with rfl | rfl
    · exact ⟨_, rfl⟩
    · exact ⟨_, rfl⟩
  · rw [List.mem_singleton.mp htxn]
    exact ⟨_, rfl⟩
  · exact absurd htxn List.not_mem_nil

/-- Two batches and two workers, and the empty block behind the others. -/
theorem recover_collects_threeBlocks :
    ∃ start, startRecovery threeHashes [siblingBlock, blockOne, blockTwo, blockThree] 1 3 2 2 =
        .ok start ∧
      ∀ es s, Run (RecoveryFarm.CalmStep parityCrypto) start es s → s.point = .done →
        s.ret = .succeded ∧
          s.collected = [entry parityCrypto blockOne, entry parityCrypto blockTwo] := by
  have hfits : ∀ b ∈ [blockOne, blockTwo, blockThree], b.transactions.length ≤ 2 := by decide
  have hempty : EmptyLast [blockOne, blockTwo, blockThree] := by
    simp [EmptyLast, blockOne, blockTwo, blockThree]
  obtain ⟨start, hstart, hall⟩ := recover_collects canonical_threeBlocks recovers_threeBlocks hfits
    one_le_two hempty (by decide)
  exact ⟨start, hstart, fun es s hrun => (hall es s hrun).2.2⟩

end Example

end Recovery

end Silkworm.Senders
