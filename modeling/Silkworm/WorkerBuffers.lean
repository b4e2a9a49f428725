import Silkworm.SenderRecoveryRuns

/-!
# The buffers of the workers

A worker writes the senders of a batch into memory for as many of them as a batch should have. The
blocks are packed whole, so that a batch fits unless a single block is larger than that, whatever the
order of the blocks and of the steps of the threads.
-/

namespace Silkworm.Senders

section Packing

variable (c : Crypto) (maxBatchSize : ℕ)

/-- The batches that are handed to workers for a sequence of blocks, from a batch on that is being
filled. An exception of `fill_batch` ends the loop without the batch at hand. -/
def batches (batch : List Package) : List StoredBlock → List (List Package)
  | [] => if batch.isEmpty then [] else [batch]
  | row :: rows =>
    let fill := fun batch => match fillBatch c row.number row.transactions with
      | some packages => batches (batch ++ packages) rows
      | none => []
    if row.transactions.isEmpty then batches batch rows
    else if maxBatchSize < batch.length + row.transactions.length ∧ ¬batch.isEmpty then
      batch :: fill []
    else fill batch

/-- The batches from the packing of a block on. -/
def batchesFrom (batch : List Package) (row : StoredBlock) (rows : List StoredBlock) :
    List (List Package) :=
  match fillBatch c row.number row.transactions with
  | some packages => batches c maxBatchSize (batch ++ packages) rows
  | none => []

/-- The blocks up to the first one that has a signature which is refused. -/
def accepted (rows : List StoredBlock) : List StoredBlock :=
  rows.takeWhile fun row => (fillBatch c row.number row.transactions).isSome

/-- The offsets at which a worker writes the senders of a batch. It may be told to stop between two
blocks, here by the number of packages that are left. -/
def writes (shouldStop : ℕ → Bool) (blockNum : Uint64) (offset length : ℕ) : List Package → List ℕ
  | [] => []
  | p :: ps =>
    let offset' := if blockNum ≠ p.blockNum then offset + length else offset
    let length' := if blockNum ≠ p.blockNum then 0 else length
    if blockNum ≠ p.blockNum ∧ shouldStop ps.length then []
    else
      match sender c p with
      | some _ =>
        (offset' + length') :: writes shouldStop p.blockNum offset' (length' + kAddressLength) ps
      | none => []

/-- Every address is written inside the memory of the worker. -/
def WritesInside (batch : List Package) : Prop :=
  ∀ shouldStop, ∀ p ∈ batch.head?, ∀ o ∈ writes c shouldStop p.blockNum 0 0 batch,
    o + kAddressLength ≤ maxBatchSize * kAddressLength

variable {c maxBatchSize} {batch : List Package} {row : StoredBlock} {rows : List StoredBlock}

theorem length_fillBatch {blockNum : Uint64} {txns : List Transaction} {packages : List Package}
    (h : fillBatch c blockNum txns = some packages) : packages.length = txns.length := by
  induction txns generalizing packages with
  | nil =>
    cases h
    rfl
  | cons txn txns ih =>
    rw [fillBatch, List.mapM_cons] at h
    obtain ⟨p, -, h⟩ := Option.bind_eq_some_iff.mp h
    obtain ⟨ps, hps, h⟩ := Option.bind_eq_some_iff.mp h
    cases h
    rw [List.length_cons, List.length_cons, ih hps]

theorem batches_cons_empty (h : row.transactions.isEmpty) :
    batches c maxBatchSize batch (row :: rows) = batches c maxBatchSize batch rows := by
  simp [batches, h]

theorem batches_cons_full (hrow : ¬row.transactions.isEmpty)
    (h : maxBatchSize < batch.length + row.transactions.length ∧ ¬batch.isEmpty) :
    batches c maxBatchSize batch (row :: rows) =
      batch :: batchesFrom c maxBatchSize [] row rows := by
  rw [batches, if_neg hrow, if_pos h]
  rfl

theorem batches_cons_room (hrow : ¬row.transactions.isEmpty)
    (h : ¬(maxBatchSize < batch.length + row.transactions.length ∧ ¬batch.isEmpty)) :
    batches c maxBatchSize batch (row :: rows) = batchesFrom c maxBatchSize batch row rows := by
  rw [batches, if_neg hrow, if_neg h]
  rfl

/-- A batch that is too large is handed out as it is. -/
theorem mem_batches_of_lt (h : maxBatchSize < batch.length) :
    batch ∈ batches c maxBatchSize batch rows := by
  have hne : batch.isEmpty = false := List.isEmpty_eq_false_iff.mpr fun hnil => by simp [hnil] at h
  induction rows with
  | nil => simp [batches, hne]
  | cons row rows ih =>
    by_cases hrow : row.transactions.isEmpty
    · rw [batches_cons_empty hrow]
      exact ih
    · rw [batches_cons_full hrow ⟨by omega, by simp [hne]⟩]
      exact List.mem_cons_self

theorem accepted_cons_some {packages : List Package}
    (h : fillBatch c row.number row.transactions = some packages) :
    accepted c (row :: rows) = row :: accepted c rows :=
  List.takeWhile_cons_of_pos (by rw [h, Option.isSome_some])

theorem accepted_cons_none (h : fillBatch c row.number row.transactions = none) :
    accepted c (row :: rows) = [] :=
  List.takeWhile_cons_of_neg (by simp [h])

/-- One block, into a batch that has room for it or is empty. -/
theorem batchesFrom_fit_iff
    (ih : ∀ {batch : List Package}, batch.length ≤ maxBatchSize →
      ((∀ b ∈ batches c maxBatchSize batch rows, b.length ≤ maxBatchSize) ↔
        ∀ row ∈ accepted c rows, row.transactions.length ≤ maxBatchSize))
    (hroom : batch.length + row.transactions.length ≤ maxBatchSize ∨ batch = []) :
    (∀ b ∈ batchesFrom c maxBatchSize batch row rows, b.length ≤ maxBatchSize) ↔
      ∀ row' ∈ accepted c (row :: rows), row'.transactions.length ≤ maxBatchSize := by
  rw [batchesFrom]
  cases hp : fillBatch c row.number row.transactions with
  | none => simp [accepted_cons_none hp]
  | some packages =>
    have hlen := length_fillBatch hp
    rw [accepted_cons_some hp, List.forall_mem_cons]
    by_cases hrow : row.transactions.length ≤ maxBatchSize
    · have hfits : (batch ++ packages).length ≤ maxBatchSize := by
        rw [List.length_append, hlen]
        rcases hroom with hroom | rfl
        · exact hroom
        · simpa using hrow
      exact (ih hfits).trans (and_iff_right hrow).symm
    · have hlarge : maxBatchSize < (batch ++ packages).length := by
        rw [List.length_append]
        omega
      constructor
      · exact fun hall => absurd (hall _ (mem_batches_of_lt hlarge)) hlarge.not_ge
      · exact fun hall => absurd hall.1 hrow

/-- What comes out of a batch that fits. -/
theorem batches_fit_iff (h : batch.length ≤ maxBatchSize) :
    (∀ b ∈ batches c maxBatchSize batch rows, b.length ≤ maxBatchSize) ↔
      ∀ row ∈ accepted c rows, row.transactions.length ≤ maxBatchSize := by
  induction rows generalizing batch with
  | nil =>
    by_cases hempty : batch.isEmpty
    · simp [batches, accepted, hempty]
    · simp [batches, accepted, hempty, h]
  | cons row rows ih =>
    by_cases hrow : row.transactions.isEmpty
    · have hnil : row.transactions = [] := List.isEmpty_iff.mp hrow
      have hsome : fillBatch c row.number row.transactions = some [] := by
        rw [hnil]
        rfl
      rw [batches_cons_empty hrow, ih h, accepted_cons_some hsome, List.forall_mem_cons, hnil]
      exact (and_iff_right (Nat.zero_le _)).symm
    · by_cases hfull : maxBatchSize < batch.length + row.transactions.length ∧ ¬batch.isEmpty
      · rw [batches_cons_full hrow hfull, List.forall_mem_cons, and_iff_right h]
        exact batchesFrom_fit_iff ih (.inr rfl)
      · rw [batches_cons_room hrow hfull]
        refine batchesFrom_fit_iff ih ?_
        rcases not_and_or.mp hfull with hlt | hnil
        · exact .inl (Nat.not_lt.mp hlt)
        · exact .inr (List.isEmpty_iff.mp (not_not.mp hnil))

theorem writes_le (shouldStop : ℕ → Bool) {blockNum : Uint64} {offset length : ℕ} :
    ∀ o ∈ writes c shouldStop blockNum offset length batch,
      o + kAddressLength ≤ offset + length + batch.length * kAddressLength := by
  induction batch generalizing blockNum offset length with
  | nil => exact fun o ho => absurd ho List.not_mem_nil
  | cons p ps ih =>
    intro o ho
    rw [List.length_cons, Nat.succ_mul]
    rw [writes] at ho
    split_ifs at ho with hstop hne
    · exact absurd ho List.not_mem_nil
    all_goals
      cases hs : sender c p with
      | none => simp [hs] at ho
      | some a =>
        rw [hs] at ho
        rcases List.mem_cons.mp ho with rfl | ho
        · omega
        · have hle := ih o ho
          omega

theorem writesInside_of_le (h : batch.length ≤ maxBatchSize) : WritesInside c maxBatchSize batch := by
  intro shouldStop p _ o ho
  have hle := writes_le shouldStop o ho
  rw [Nat.zero_add] at hle
  exact (hle.trans (Nat.mul_le_mul_right kAddressLength h) : _)

/-- Batches fit into the memory of the workers exactly if the blocks do that are packed. -/
theorem batches_inside_iff (c : Crypto) (maxBatchSize : ℕ) (rows : List StoredBlock) :
    (∀ batch ∈ batches c maxBatchSize [] rows,
      batch.length ≤ maxBatchSize ∧ WritesInside c maxBatchSize batch) ↔
    ∀ row ∈ accepted c rows, row.transactions.length ≤ maxBatchSize := by
  have hfit : (∀ batch ∈ batches c maxBatchSize [] rows, batch.length ≤ maxBatchSize) ↔ _ :=
    batches_fit_iff (Nat.zero_le maxBatchSize)
  rw [← hfit]
  constructor
  · exact fun h batch hb => (h batch hb).1
  · exact fun h batch hb => ⟨h batch hb, writesInside_of_le (h batch hb)⟩

end Packing

section Runs

/-- The blocks that `recover` packs, from a row of the table of the bodies on. -/
def canonicalBlocks (expected : Uint64) : List Bytes32 → List StoredBlock → List StoredBlock
  | _, [] => []
  | [], _ => []
  | hash :: hashes, row :: rows =>
    if row.number < expected then canonicalBlocks expected (hash :: hashes) rows
    else if expected < row.number then []
    else if row.hash ≠ hash then canonicalBlocks expected (hash :: hashes) rows
    else row :: canonicalBlocks (expected + 1) hashes rows

namespace RecoveryFarm

variable {c : Crypto} {s s' : RecoveryFarm}

/-- The blocks after a block that waits for its batch. -/
def blocksAfter (s : RecoveryFarm) : List StoredBlock :=
  canonicalBlocks (s.expectedBlockNum + 1) s.headersForReading.tail s.rows

/-- The batches that are still to be handed out. -/
def ahead (c : Crypto) (s : RecoveryFarm) : List (List Package) :=
  match s.point with
  | .reading =>
    batches c s.maxBatchSize s.batch (canonicalBlocks s.expectedBlockNum s.headersForReading s.rows)
  | .dispatching (some row) | .bufferizing (some row) =>
    s.batch :: batchesFrom c s.maxBatchSize [] row s.blocksAfter
  | .dispatching none | .bufferizing none => [s.batch]
  | _ => []

/-- Workers have only been given batches of the packing, and no others will be. -/
structure Hands (c : Crypto) (maxBatchSize : ℕ) (all : List (List Package)) (s : RecoveryFarm) :
    Prop where
  size : s.maxBatchSize = maxBatchSize
  workers : ∀ w ∈ s.workers, ∀ batch, w.batch = some batch → batch ∈ all
  ahead : ∀ batch ∈ s.ahead c, batch ∈ all

variable {maxBatchSize : ℕ} {all : List (List Package)}

theorem ahead_endOfBlocks (s : RecoveryFarm) :
    s.endOfBlocks.ahead c = batches c s.maxBatchSize s.batch [] := by
  rw [endOfBlocks, batches]
  split_ifs <;> rfl

theorem canonicalBlocks_nil (expected : Uint64) (rows : List StoredBlock) :
    canonicalBlocks expected [] rows = [] := by
  cases rows <;> rfl

theorem ahead_advance (s : RecoveryFarm) :
    s.advance.ahead c = batches c s.maxBatchSize s.batch s.blocksAfter := by
  rw [advance, blocksAfter]
  cases s.headersForReading with
  | nil => rw [ahead_endOfBlocks, List.tail_nil, canonicalBlocks_nil]
  | cons hash hashes =>
    cases hashes with
    | nil => rw [ahead_endOfBlocks, List.tail_cons, canonicalBlocks_nil]
    | cons hash' hashes => rfl

theorem ahead_fill (s : RecoveryFarm) (row : StoredBlock) :
    (s.fill c row).ahead c = batchesFrom c s.maxBatchSize s.batch row s.blocksAfter := by
  rw [fill, batchesFrom]
  cases fillBatch c row.number row.transactions with
  | none => rfl
  | some packages => exact ahead_advance _

theorem Hands.of_same (h : Hands c maxBatchSize all s)
    (hsame : s'.maxBatchSize = s.maxBatchSize ∧ s'.workers = s.workers)
    (hahead : ∀ batch ∈ s'.ahead c, batch ∈ s.ahead c) : Hands c maxBatchSize all s' where
  size := hsame.1.trans h.size
  workers := hsame.2 ▸ h.workers
  ahead batch hb := h.ahead batch (hahead batch hb)

/-- A row is passed, or it is the next block. -/
theorem Hands.read (h : Hands c maxBatchSize all s) (hp : s.point = .reading) :
    Hands c maxBatchSize all (s.read c) := by
  have hahead : s.ahead c = batches c s.maxBatchSize s.batch
      (canonicalBlocks s.expectedBlockNum s.headersForReading s.rows) := by
    rw [RecoveryFarm.ahead, hp]
  rw [RecoveryFarm.read]
  cases hr : s.rows with
  | nil =>
    refine h.of_same (same_endOfBlocks s) fun batch hb => ?_
    rw [ahead_endOfBlocks] at hb
    rw [hahead, hr, canonicalBlocks]
    exact hb
  | cons row rows =>
    rw [hr] at hahead
    have hpass (hsame : canonicalBlocks s.expectedBlockNum s.headersForReading (row :: rows) =
        canonicalBlocks s.expectedBlockNum s.headersForReading rows) :
        Hands c maxBatchSize all { s with rows } := by
      refine h.of_same ⟨rfl, rfl⟩ fun batch hb => ?_
      rw [RecoveryFarm.ahead, hp] at hb
      rw [hahead, hsame]
      exact hb
    dsimp only
    cases hh : s.headersForReading with
    | nil =>
      rw [hh] at hpass
      split_ifs with hlt hgt hne
      · exact hpass (by rw [canonicalBlocks_nil, canonicalBlocks_nil])
      · exact h.of_same ⟨rfl, rfl⟩ fun batch hb => absurd hb List.not_mem_nil
      · exact hpass (by rw [canonicalBlocks_nil, canonicalBlocks_nil])
      all_goals exact absurd (by simp) hne
    | cons hash hashes =>
      rw [hh, canonicalBlocks] at hahead hpass
      split_ifs with hlt hgt hne hempty hfull
      · exact hpass (by rw [if_pos hlt])
      · exact h.of_same ⟨rfl, rfl⟩ fun batch hb => absurd hb List.not_mem_nil
      · exact hpass (by rw [if_neg hlt, if_neg hgt, if_pos (by simpa using hne)])
      all_goals
        rw [if_neg hlt, if_neg hgt, if_neg (by simpa using hne)] at hahead
      · refine h.of_same (same_advance _) fun batch hb => ?_
        rw [ahead_advance] at hb
        rw [hahead, batches_cons_empty hempty]
        exact hb
      · refine h.of_same ⟨rfl, rfl⟩ fun batch hb => ?_
        rw [hahead, batches_cons_full hempty hfull]
        exact hb
      · refine h.of_same (same_fill _ row) fun batch hb => ?_
        rw [ahead_fill] at hb
        rw [hahead, batches_cons_room hempty hfull]
        exact hb

/-- The batch at hand goes to a worker. -/
theorem Hands.dispatch (h : Hands c maxBatchSize all s) {next : Option StoredBlock}
    (hp : s.point = .dispatching next) (i : ℕ) (w : RecoveryWorker) :
    Hands c maxBatchSize all (s.dispatch c i w next) := by
  have hbatch : s.batch ∈ all := h.ahead _ (by
    rw [RecoveryFarm.ahead, hp]
    cases next <;> exact List.mem_cons_self)
  have hworkers (w' : RecoveryWorker) (hw' : w'.batch = some s.batch) :
      ∀ x ∈ s.workers.set i w', ∀ batch, x.batch = some batch → batch ∈ all := by
    intro x hx batch hb
    rcases List.mem_or_eq_of_mem_set hx with hx | rfl
    · exact h.workers x hx batch hb
    · rwa [Option.some.inj (hb.symm.trans hw')]
  cases next with
  | none => exact ⟨h.size, hworkers _ rfl, fun batch hb => absurd hb List.not_mem_nil⟩
  | some row =>
    rw [RecoveryFarm.dispatch]
    refine ⟨(same_fill _ row).1.trans h.size, ?_, fun batch hb => ?_⟩
    · rw [(same_fill _ row).2]
      exact hworkers _ rfl
    · rw [ahead_fill] at hb
      refine h.ahead _ ?_
      rw [RecoveryFarm.ahead, hp]
      exact List.mem_cons_of_mem _ hb

/-- A worker with another status or other results. -/
theorem Hands.setWorker (h : Hands c maxBatchSize all s) {i : ℕ} {w w' : RecoveryWorker}
    (hw : s.workers[i]? = some w) (hbatch : w'.batch = w.batch ∨ w'.batch = none) :
    Hands c maxBatchSize all (s.setWorker i w') where
  size := h.size
  workers x hx batch hb := by
    rcases List.mem_or_eq_of_mem_set hx with hx | rfl
    · exact h.workers x hx batch hb
    · rcases hbatch with heq | hnone
      · exact h.workers w (List.mem_of_getElem? hw) batch (heq ▸ hb)
      · rw [hnone] at hb
        cases hb
  ahead := h.ahead

theorem batch_next {w w' : RecoveryWorker} (h : w.next c maxBatchSize = some w') :
    w'.batch = w.batch ∨ w'.batch = none := by
  rw [RecoveryWorker.next] at h
  split at h
  · cases h
    exact .inl rfl
  · split_ifs at h
    cases h
    exact .inl rfl
  · split at h
    · split_ifs at h
      cases h
      exact .inl rfl
    · cases h
  · cases h
  · cases h
    exact .inr rfl

theorem Hands.thread (h : Hands c maxBatchSize all s) {i : ℕ} (hstep : s.threadStep c i = some s') :
    Hands c maxBatchSize all s' := by
  rw [threadStep] at hstep
  cases hw : s.workers[i]? with
  | none => simp [hw] at hstep
  | some w =>
    rw [hw] at hstep
    dsimp only at hstep
    split at hstep
    · split_ifs at hstep
      cases hstep
      have hset : Hands c maxBatchSize all (s.setWorker i { w with point := .signalled }) :=
        h.setWorker hw (.inl rfl)
      exact ⟨hset.size, hset.workers, hset.ahead⟩
    · obtain ⟨w', hnext, rfl⟩ := Option.map_eq_some_iff.mp hstep
      exact h.setWorker hw (batch_next hnext)

theorem Hands.pull (h : Hands c maxBatchSize all s) (hstep : s.pull = some s') :
    Hands c maxBatchSize all s' := by
  rw [RecoveryFarm.pull] at hstep
  cases hq : s.batchesCompleted with
  | nil => simp [hq] at hstep
  | cons x queue =>
    rw [hq] at hstep
    dsimp only at hstep
    have hpopped : Hands c maxBatchSize all { s with batchesCompleted := queue } :=
      ⟨h.size, h.workers, h.ahead⟩
    cases hw : s.workers[x.1]? with
    | none => simp [hw] at hstep
    | some w =>
      rw [hw] at hstep
      dsimp only at hstep
      split at hstep
      · rw [collect] at hstep
        split_ifs at hstep
        cases hstep
        have hset := hpopped.setWorker hw
          (.inl rfl : ({ w with status := .idle, results := [] } : RecoveryWorker).batch = w.batch ∨ _)
        exact ⟨hset.size, hset.workers, hset.ahead⟩
      · split at hstep
        all_goals
          cases hstep
          exact ⟨h.size, h.workers, fun batch hb => absurd hb List.not_mem_nil⟩
      · cases hstep
        exact hpopped

theorem Hands.step {e : Event} (h : Hands c maxBatchSize all s) (hstep : s.Step c e s') :
    Hands c maxBatchSize all s' := by
  have hpoint (p : FarmPoint)
      (hp : ∀ batch ∈ RecoveryFarm.ahead c { s with point := p }, batch ∈ s.ahead c) :
      Hands c maxBatchSize all { s with point := p } := h.of_same ⟨rfl, rfl⟩ hp
  cases took_of_step hstep with
  | read hp => exact h.read hp
  | @spawn next hp hmax =>
    refine ⟨h.size, fun w hw batch hb => ?_, fun batch hb => h.ahead batch ?_⟩
    · rcases List.mem_append.mp hw with hw | hw
      · exact h.workers w hw batch hb
      · rw [List.mem_singleton.mp hw] at hb
        cases hb
    · rw [RecoveryFarm.ahead, hp] at hb ⊢
      cases next <;> exact hb
  | dispatch hp hi hw => exact h.dispatch hp _ _
  | @pullEarly next _ hp hpull =>
    refine (hpoint (.bufferizing next) fun batch hb => ?_).pull hpull
    rw [RecoveryFarm.ahead, hp]
    cases next <;> exact hb
  | pull hp hpull => exact h.pull hpull
  | @resume next hp hq =>
    refine hpoint (.dispatching next) fun batch hb => ?_
    rw [RecoveryFarm.ahead, hp]
    cases next <;> exact hb
  | finish hp hq => exact hpoint .done fun batch hb => absurd hb List.not_mem_nil
  | settle hp hwork =>
    split_ifs
    · exact hpoint .collecting fun batch hb => absurd hb List.not_mem_nil
    · exact hpoint .done fun batch hb => absurd hb List.not_mem_nil
  | thread hthread => exact h.thread hthread

/-- Whatever the order of the steps, workers are only given batches of the packing. -/
theorem batch_mem_batches {es : List Event} (hrun : Run (Step c) s es s') (hp : s.point = .reading)
    (hempty : s.batch = []) (hworkers : s.workers = []) {w : RecoveryWorker} (hw : w ∈ s'.workers)
    {batch : List Package} (hb : w.batch = some batch) :
    batch ∈ batches c s.maxBatchSize []
      (canonicalBlocks s.expectedBlockNum s.headersForReading s.rows) := by
  have hstart : Hands c s.maxBatchSize (s.ahead c) s :=
    ⟨rfl, by simp [hworkers], fun _ hb => hb⟩
  have hend : Hands c s.maxBatchSize (s.ahead c) s' :=
    hrun.preserves (fun _ _ _ h hstep => h.step hstep) hstart
  have hmem := hend.workers w hw batch hb
  rwa [RecoveryFarm.ahead, hp, hempty] at hmem

end RecoveryFarm

end Runs

section Example

/-- A block with more transactions than a batch should have. -/
def largeBlock : StoredBlock :=
  ⟨2, FixedBytes.replicate 32 2, [signedTransaction, signedTransaction]⟩

theorem fillBatch_largeBlock : ∃ packages,
    fillBatch constantCrypto largeBlock.number largeBlock.transactions = some packages := by
  have hrecovers : Recovers constantCrypto largeBlock := fun txn htxn =>
    recovers_blockTwo txn (by simpa [largeBlock, blockTwo] using htxn)
  exact ⟨_, (fillBatch_of_packed hrecovers.packed).1⟩

theorem not_batches_inside :
    ¬∀ (c : Crypto) (maxBatchSize : ℕ) (rows : List StoredBlock), 1 ≤ maxBatchSize →
      ∀ batch ∈ batches c maxBatchSize [] rows,
        batch.length ≤ maxBatchSize ∧ WritesInside c maxBatchSize batch := by
  intro h
  obtain ⟨packages, hp⟩ := fillBatch_largeBlock
  have hlen : packages.length = 2 := length_fillBatch hp
  have hbatches : batches constantCrypto 1 [] [largeBlock] = [packages] := by
    have hne : packages.isEmpty = false := List.isEmpty_eq_false_iff.mpr fun hnil => by simp [hnil] at hlen
    rw [batches_cons_room (by simp [largeBlock]) (by simp), batchesFrom, hp]
    simp [batches, hne]
  have hfits := (h constantCrypto 1 [largeBlock] le_rfl packages (by simp [hbatches])).1
  omega

end Example

end Silkworm.Senders
