import Silkworm.CollectedEntries
import Silkworm.HashedState
import Silkworm.SenderRecoveryRuns

/-!
# What the recovery of senders reports

Behind the last collection the farm loads the entries into the table of the senders, unless it has
to stop, and returns its status. A batch that did not recover sets the flag to stop, but only where
the results are collected in between it becomes the status: the last collection loses it.
-/

namespace Silkworm.Senders
open Db SortedTables Etl

/-- Put entries after all others, until one does not come after them. -/
def appendAll (t : PlainTable) : List Entry → PlainTable × Bool
  | [] => (t, true)
  | e :: es =>
    match putAppend t e.1 e.2 with
    | some t' => appendAll t' es
    | none => (t, false)

/-- The farm with the table of the senders. -/
structure Recovery where
  farm : RecoveryFarm
  senders : PlainTable
  shouldStop : Bool := false
  databaseError : Bool := false

namespace Recovery

section Steps

variable (c : Crypto) (r : Recovery)

/-- The entries are loaded; an exception becomes the status. -/
def load : Recovery :=
  let (senders, loaded) := appendAll r.senders (sortedEntries r.farm.collected)
  { r with senders, databaseError := !loaded }

/-- A step of the farm, with the load behind the last collection. -/
def exec (e : RecoveryFarm.Event) : Option Recovery :=
  (r.farm.exec c e).map fun farm =>
    let r' := { r with
      farm, shouldStop := r.shouldStop || (decide (e = .pull) && r.farm.frontFailed) }
    match r.farm.point, farm.point with
    | .collecting, .done => if r'.shouldStop then r' else r'.load
    | _, _ => r'

def Step (r : Recovery) (e : RecoveryFarm.Event) (r' : Recovery) : Prop := r.exec c e = some r'

def CalmStep (r : Recovery) (e : RecoveryFarm.Event) (r' : Recovery) : Prop :=
  r.farm.Calm e ∧ r.Step c e r'

/-- A calm step that does not lose a failure. -/
def CarefulStep (r : Recovery) (e : RecoveryFarm.Event) (r' : Recovery) : Prop :=
  r.CalmStep c e r' ∧ ¬r.farm.Discards e

/-- The status that is returned is the one of success. -/
def Succeded : Prop :=
  r.farm.point = .done ∧ r.farm.ret = .succeded ∧ r.databaseError = false

/-- Success means that all senders have been recovered and are in the table. -/
def Reports (segment : List StoredBlock) : Prop :=
  r.Succeded → ∀ b ∈ segment, Recovers c b ∧
    (b.transactions ≠ [] → entry c b ∈ r.senders.entries)

end Steps

end Recovery

section Tables

theorem mem_appendAll {t : PlainTable} {es : List Entry} (h : (appendAll t es).2 = true) :
    ∀ e ∈ es, e ∈ (appendAll t es).1.entries := by
  have hall (t : PlainTable) (es : List Entry) (h : (appendAll t es).2 = true) :
      ∀ e, e ∈ t.entries ∨ e ∈ es → e ∈ (appendAll t es).1.entries := by
    induction es generalizing t with
    | nil => simp [appendAll]
    | cons x es ih =>
      rw [appendAll] at h ⊢
      cases hput : putAppend t x.1 x.2 with
      | none => simp [hput] at h
      | some t' =>
        rw [hput] at h
        intro e he
        refine ih t' h e ?_
        rw [mem_putAppend hput]
        rcases he with he | he
        · exact .inl (.inr he)
        · exact (List.mem_cons.mp he).imp_left .inl
  exact fun e he => hall t es h e (.inr he)

theorem Recovery.mem_load {r : Recovery} (h : r.load.databaseError = false) :
    ∀ e ∈ r.farm.collected, e ∈ r.load.senders.entries := by
  intro e he
  have hloaded : (appendAll r.senders (sortedEntries r.farm.collected)).2 = true := by
    simpa [load] using h
  exact mem_appendAll hloaded e ((sortedEntries_perm _).mem_iff.mpr he)

end Tables

namespace RecoveryFarm

section Points

variable {c : Crypto} {s s' : RecoveryFarm} {e : Event}

theorem threadStep_same {i : ℕ} (h : s.threadStep c i = some s') :
    s'.point = s.point ∧ s'.ret = s.ret := by
  cases hw : s.workers[i]? with
  | none =>
    rw [threadStep, hw] at h
    cases h
  | some w =>
    by_cases hp : w.point = .signalling
    · rw [threadStep_signal hw hp] at h
      split_ifs at h
      cases h
      exact ⟨rfl, rfl⟩
    · rw [threadStep_next hw hp] at h
      obtain ⟨w', -, rfl⟩ := Option.map_eq_some_iff.mp h
      exact ⟨rfl, rfl⟩

/-- The status of a farm that is done stays. -/
theorem step_of_done (hp : s.point = .done) (h : s.Step c e s') :
    s'.point = .done ∧ s'.ret = s.ret := by
  rw [Step] at h
  cases e with
  | thread i =>
    obtain ⟨hpoint, hret⟩ := threadStep_same h
    exact ⟨hpoint.trans hp, hret⟩
  | _ => simp [exec, hp] at h

theorem Failed.step (hs : s.Failed) (h : s.Step c e s') : s'.Failed := by
  obtain ⟨hret, hp | hp⟩ := hs
  · rw [Step] at h
    cases e with
    | thread i =>
      obtain ⟨hpoint, hret'⟩ := threadStep_same h
      exact ⟨hret' ▸ hret, .inl (hpoint.trans hp)⟩
    | settle =>
      simp only [exec, hp] at h
      split_ifs at h
      cases h
      exact ⟨hret, .inr rfl⟩
    | _ => simp [exec, hp] at h
  · obtain ⟨hpoint, hret'⟩ := step_of_done hp h
    exact ⟨hret' ▸ hret, .inr hpoint⟩

theorem point_endOfBlocks : s.endOfBlocks.point ≠ .done := by
  rw [endOfBlocks]
  split_ifs <;> simp

theorem point_advance : s.advance.point ≠ .done := by
  rw [advance]
  split
  · simp
  · exact point_endOfBlocks

theorem point_fill (row : StoredBlock) : (s.fill c row).point ≠ .done := by
  rw [fill]
  split
  · exact point_advance
  · simp [fail]

theorem point_read (hp : s.point = .reading) (hdone : (s.read c).point = .done) :
    (s.read c).ret ≠ .succeded := by
  rw [read] at hdone ⊢
  cases hr : s.rows with
  | nil =>
    rw [hr] at hdone
    exact absurd hdone point_endOfBlocks
  | cons row rows =>
    rw [hr] at hdone
    dsimp only at hdone ⊢
    split_ifs at hdone ⊢
    · simp [hp] at hdone
    · simp
    · simp [hp] at hdone
    · exact absurd hdone point_advance
    · exact absurd hdone (point_fill row)

theorem point_pull (hp : s.point ≠ .collecting) (hs : s.point ≠ .done) (h : s.pull = some s') :
    s'.point ≠ .done := by
  rw [pull] at h
  cases hq : s.batchesCompleted with
  | nil => simp [hq] at h
  | cons x queue =>
    rw [hq] at h
    dsimp only at h
    split at h
    · cases h
    · split at h
      · rw [collect] at h
        split_ifs at h
        cases h
        exact hs
      · split at h
        · exact absurd ‹_› hp
        · cases h
          simp [fail]
      · cases h
        exact hs

/-- The farm succeeds only behind the last collection. -/
theorem collecting_of_done (h : s.Step c e s') (hdone : s'.point = .done)
    (hret : s'.ret = .succeded) : s.point = .collecting ∨ s.point = .done := by
  cases took_of_step h with
  | read hp => exact absurd hret (point_read hp hdone)
  | spawn hp hmax => exact .inr hdone
  | @dispatch next _ _ hp hi hw =>
    cases next with
    | none => simp [RecoveryFarm.dispatch] at hdone
    | some row => exact absurd hdone (point_fill row)
  | pullEarly hp hpull => exact absurd hdone (point_pull (by simp) (by simp) hpull)
  | pull hp hpull =>
    rcases hp with ⟨next, hp⟩ | hp
    · exact absurd hdone (point_pull (by simp [hp]) (by simp [hp]) hpull)
    · exact .inl hp
  | resume hp hq => simp at hdone
  | finish hp hq => exact .inl hp
  | settle hp hwork =>
    dsimp only at hdone hret
    rw [if_pos hret] at hdone
    cases hdone
  | thread hthread => exact .inr ((threadStep_same hthread).1 ▸ hdone)

end Points

end RecoveryFarm

namespace Recovery

section Runs

variable {c : Crypto} {segment : List StoredBlock} {r r' : Recovery} {e : RecoveryFarm.Event}

/-- The farm is at its blocks, has given up, or is done and has loaded what it collected. -/
inductive Inv (c : Crypto) (segment : List StoredBlock) (r : Recovery) : Prop
  | running (farm : r.farm.Inv c segment) (point : r.farm.point ≠ .done)
      (shouldStop : r.shouldStop = false) (databaseError : r.databaseError = false)
  | failed (farm : r.farm.Failed)
  | done (point : r.farm.point = .done) (reports : r.Reports c segment)

theorem Inv.reports (h : r.Inv c segment) : r.Reports c segment := by
  cases h with
  | running farm point => exact fun hs => absurd hs.1 point
  | failed farm => exact fun hs => absurd hs.2.1 farm.1
  | done point reports => exact reports

/-- What was collected is loaded if nothing stops the farm. -/
theorem reports_load (h : r.farm.Inv c segment) (hdone : r.farm.point = .done) :
    r.load.Reports c segment := by
  intro hs b hb
  obtain ⟨batches, cur, rest, pulled, h⟩ := h
  have hat := h.point
  rw [RecoveryFarm.AtPoint, hdone] at hat
  obtain ⟨rfl, rfl, rfl⟩ := hat
  have hblocks : nonEmpty segment = batches.flatten := by
    rw [h.blocks]
    simp [nonEmpty]
  have hrecovered := h.recovered
  have hcollected := h.collected
  rw [List.take_length, ← hblocks] at hrecovered hcollected
  by_cases ht : b.transactions = []
  · refine ⟨fun txn htxn => ?_, fun hne => absurd ht hne⟩
    rw [ht] at htxn
    cases htxn
  · have hmem : b ∈ nonEmpty segment := mem_nonEmpty.mpr ⟨hb, ht⟩
    refine ⟨hrecovered b hmem, fun _ => mem_load hs.2.2 _ ?_⟩
    rw [hcollected]
    exact List.mem_map_of_mem hmem

/-- Behind the last collection the farm loads, and elsewhere it does not. -/
theorem exec_cases (h : r.exec c e = some r') : ∃ farm, r.farm.Step c e farm ∧
    let next := { r with
      farm, shouldStop := r.shouldStop || (decide (e = .pull) && r.farm.frontFailed) }
    (r.farm.point = .collecting ∧ farm.point = .done ∧
        r' = if next.shouldStop then next else next.load) ∨
      ¬(r.farm.point = .collecting ∧ farm.point = .done) ∧ r' = next := by
  obtain ⟨farm, hfarm, rfl⟩ := Option.map_eq_some_iff.mp h
  refine ⟨farm, hfarm, ?_⟩
  dsimp only
  split
  · exact .inl ⟨‹_›, ‹_›, rfl⟩
  · rename_i hne
    exact .inr ⟨fun h => hne h.1 h.2, rfl⟩

/-- A batch that did not recover is met before the last collection: the farm gives up. -/
theorem failed_of_frontFailed {s s' : RecoveryFarm} (hfront : s.frontFailed)
    (hpoint : s.point ≠ .collecting) (h : s.Step c .pull s') : s'.Failed := by
  rw [RecoveryFarm.Step] at h
  cases hp : s.point with
  | dispatching next =>
    simp only [RecoveryFarm.exec, hp] at h
    split_ifs at h
    have hfront' : RecoveryFarm.frontFailed { s with point := .bufferizing next } := hfront
    obtain ⟨s'', hs'', -, hfailed⟩ := RecoveryFarm.pull_of_frontFailed hfront'
    cases hs''.symm.trans h
    exact hfailed (by simp)
  | bufferizing next =>
    simp only [RecoveryFarm.exec, hp] at h
    obtain ⟨s'', hs'', -, hfailed⟩ := RecoveryFarm.pull_of_frontFailed hfront
    cases hs''.symm.trans h
    exact hfailed hpoint
  | collecting => exact absurd hp hpoint
  | _ => simp [RecoveryFarm.exec, hp] at h

theorem Inv.step (h : r.Inv c segment) (hstep : r.CarefulStep c e r') : r'.Inv c segment := by
  obtain ⟨⟨hcalm, hexec⟩, hcareful⟩ := hstep
  obtain ⟨farm, hfarm, hcases⟩ := exec_cases hexec
  dsimp only at hcases
  cases h with
  | running hinv hpoint hstop hdb =>
    by_cases hfront : e = .pull ∧ r.farm.frontFailed = true
    · obtain ⟨rfl, hfront⟩ := hfront
      have hne : r.farm.point ≠ .collecting := fun hp => hcareful ⟨hp, hfront⟩
      have hfailed := failed_of_frontFailed hfront hne hfarm
      rcases hcases with ⟨hp, -⟩ | ⟨-, rfl⟩
      · exact absurd hp hne
      · exact .failed hfailed
    · have hstop' : (r.shouldStop || (decide (e = .pull) && r.farm.frontFailed)) = false := by
        rw [hstop, Bool.false_or, Bool.and_eq_false_iff, decide_eq_false_iff_not, ← Bool.not_eq_true]
        exact not_and_or.mp hfront
      rcases hinv.step ⟨hcalm, hfarm⟩ with hinv' | hgives | ⟨⟨hdiscards, -⟩, -⟩
      · rcases hcases with ⟨-, hdone, rfl⟩ | ⟨hne, rfl⟩
        · rw [hstop', if_neg Bool.false_ne_true]
          exact .done hdone (reports_load hinv' hdone)
        · by_cases hdone : farm.point = .done
          · have hret : farm.ret = .succeded := by
              obtain ⟨_, _, _, _, h⟩ := hinv'
              exact h.ret
            rcases RecoveryFarm.collecting_of_done hfarm hdone hret with hp | hp
            · exact absurd ⟨hp, hdone⟩ hne
            · exact absurd hp hpoint
          · exact .running hinv' hdone hstop' hdb
      · rcases hcases with ⟨-, hdone, rfl⟩ | ⟨-, rfl⟩
        · rw [hstop', if_neg Bool.false_ne_true]
          exact .failed hgives.1
        · exact .failed hgives.1
      · exact absurd hdiscards hcareful
  | failed hfailed =>
    have hne : r.farm.point ≠ .collecting := by
      rcases hfailed.2 with hp | hp <;> simp [hp]
    rcases hcases with ⟨hp, -⟩ | ⟨-, rfl⟩
    · exact absurd hp hne
    · exact .failed (hfailed.step hfarm)
  | done hpoint hreports =>
    obtain ⟨hpoint', hret⟩ := RecoveryFarm.step_of_done hpoint hfarm
    rcases hcases with ⟨hp, -⟩ | ⟨-, rfl⟩
    · rw [hpoint] at hp
      cases hp
    · exact .done hpoint' fun hs => hreports ⟨hpoint, hret.symm.trans hs.2.1, hs.2.2⟩

/-- A failure that the last collection meets is not reported. -/
theorem Inv.not_reports (h : r.Inv c segment) (hstep : r.CalmStep c e r')
    (hdiscards : r.farm.Discards e) : ¬r'.Reports c segment := by
  obtain ⟨-, hexec⟩ := hstep
  obtain ⟨farm, hfarm, hcases⟩ := exec_cases hexec
  dsimp only at hcases
  cases e with
  | pull =>
    obtain ⟨hp, hfront⟩ := hdiscards
    cases h with
    | running hinv hpoint hstop hdb =>
      obtain ⟨batches, cur, rest, pulled, h⟩ := hinv
      obtain ⟨s'', hs'', hlast, -⟩ := RecoveryFarm.pull_of_frontFailed hfront
      obtain ⟨hdone, hret⟩ := hlast hp
      have hpull : r.farm.pull = some farm := by
        simpa [RecoveryFarm.Step, RecoveryFarm.exec, hp] using hfarm
      cases hs''.symm.trans hpull
      rcases hcases with ⟨-, -, rfl⟩ | ⟨hne, -⟩
      · rw [hfront, decide_eq_true rfl, Bool.true_and, Bool.or_true, if_pos rfl]
        intro hreports
        exact h.not_recovers hfront fun b hb =>
          (hreports ⟨hdone, hret.trans h.ret, hdb⟩ b hb).1
      · exact absurd ⟨hp, hdone⟩ hne
    | failed hfailed => rcases hfailed.2 with hp' | hp' <;> simp [hp'] at hp
    | done hpoint => simp [hpoint] at hp
  | _ => exact absurd hdiscards id

end Runs

end Recovery

section Start

variable {c : Crypto} {hashes : List (Uint64 × Bytes32)} {bodies : List StoredBlock}
  {heightFrom heightTo : Uint64} {maxWorkers maxBatchSize : ℕ} {start : RecoveryFarm}

theorem last_of_collectHeaders {expected reached : Uint64} {headers out : List Bytes32}
    {rows : List (Uint64 × Bytes32)}
    (h : collectHeaders heightTo expected reached headers rows = .ok out) :
    (rows.getLast?.map Prod.fst).getD reached = heightTo := by
  induction rows generalizing expected reached headers with
  | nil =>
    rw [collectHeaders] at h
    split_ifs at h with hreached
    exact not_not.mp hreached
  | cons row rows ih =>
    rw [collectHeaders] at h
    split_ifs at h
    rw [List.getLast?_cons, ← ih h]
    cases rows.getLast? <;> rfl

/-- The loop starts at the first block, with the headers of the segment. -/
theorem startRecovery_eq_ok
    (h : startRecovery hashes bodies heightFrom heightTo maxWorkers maxBatchSize = .ok start) :
    (∃ headers, fillCanonicalHeaders hashes heightFrom heightTo = .ok headers) ∧
      start.point = .reading := by
  rw [startRecovery] at h
  cases hheaders : fillCanonicalHeaders hashes heightFrom heightTo with
  | error status =>
    rw [hheaders] at h
    cases h
  | ok headers =>
    rw [hheaders] at h
    dsimp only at h
    split_ifs at h
    split at h
    · cases h
    · cases h
      exact ⟨⟨headers, rfl⟩, rfl⟩

/-- The headers are only complete where the table of the hashes ends with the segment. -/
theorem le_of_fillCanonicalHeaders {headers : List Bytes32}
    (hsorted : hashes.Pairwise fun row row' => row.1 < row'.1)
    (h : fillCanonicalHeaders hashes heightFrom heightTo = .ok headers) :
    ∀ row ∈ hashes, row.1 ≤ heightTo := by
  rw [fillCanonicalHeaders] at h
  cases hrows : hashes.dropWhile fun row => row.1 ≠ heightFrom with
  | nil =>
    rw [hrows] at h
    cases h
  | cons row rows =>
    rw [hrows] at h
    have hlast := last_of_collectHeaders h
    obtain ⟨init, last, hinit⟩ : ∃ init last, row :: rows = init ++ [last] :=
      ⟨_, _, (List.dropLast_concat_getLast (List.cons_ne_nil row rows)).symm⟩
    have hto : last.1 = heightTo := by simpa [hinit] using hlast
    have hsplit : hashes =
        (hashes.takeWhile fun row => row.1 ≠ heightFrom) ++ init ++ [last] := by
      rw [List.append_assoc, ← hinit, ← hrows, List.takeWhile_append_dropWhile]
    rw [hsplit] at hsorted ⊢
    intro x hx
    rcases List.mem_append.mp hx with hx | hx
    · rw [← hto]
      exact BitVec.le_of_lt ((List.pairwise_append.mp hsorted).2.2 x hx last (by simp))
    · rw [List.mem_singleton.mp hx, hto]
      exact BitVec.le_refl _

theorem startRecovery_ne_succeded :
    startRecovery hashes bodies heightFrom heightTo maxWorkers maxBatchSize ≠ .error .succeded := by
  have hcollect (expected reached : Uint64) (headers : List Bytes32)
      (rows : List (Uint64 × Bytes32)) :
      collectHeaders heightTo expected reached headers rows ≠ .error .succeded := by
    induction rows generalizing expected reached headers with
    | nil =>
      rw [collectHeaders]
      split_ifs <;> simp
    | cons row rows ih =>
      rw [collectHeaders]
      split_ifs
      · simp
      · exact ih _ _ _
  rw [startRecovery, fillCanonicalHeaders]
  cases hashes.dropWhile fun row => row.1 ≠ heightFrom with
  | nil => simp
  | cons row rows =>
    dsimp only
    cases hheaders : collectHeaders heightTo heightFrom 0 [] (row :: rows) with
    | error status =>
      intro h
      cases h
      exact hcollect _ _ _ _ hheaders
    | ok headers =>
      dsimp only
      split_ifs
      · simp
      · split <;> simp

end Start

section Reports

/-- Whatever the farm returns, and when: success means that the senders are in the table. -/
def AlwaysReports (c : Crypto) (hashes : List (Uint64 × Bytes32)) (bodies : List StoredBlock)
    (b : StoredBlock) (bs : List StoredBlock) (maxWorkers maxBatchSize : ℕ)
    (senders : PlainTable) (step : Recovery → RecoveryFarm.Event → Recovery → Prop) : Prop :=
  let started := startRecovery hashes bodies b.number
    ((b :: bs).getLast (List.cons_ne_nil b bs)).number maxWorkers maxBatchSize
  started ≠ .error .succeded ∧ ∀ start, started = .ok start →
    ∀ es r, Run step { farm := start, senders } es r → r.Reports c (b :: bs)

/-- Where blocks without transactions come last, every calm run reports what it did, up to a step
at which the last collection meets a batch that did not recover; and that failure is lost. -/
theorem recover_reports {c : Crypto} {hashes : List (Uint64 × Bytes32)} {bodies : List StoredBlock}
    {b : StoredBlock} {bs : List StoredBlock} {maxWorkers maxBatchSize : ℕ}
    (hsegment : CanonicalSegment hashes bodies (b :: bs)) (hworkers : 1 ≤ maxWorkers)
    (hempty : EmptyLast (b :: bs)) (senders : PlainTable) :
    AlwaysReports c hashes bodies b bs maxWorkers maxBatchSize senders (Recovery.CarefulStep c) ∧
    ∀ start, startRecovery hashes bodies b.number
        ((b :: bs).getLast (List.cons_ne_nil b bs)).number maxWorkers maxBatchSize = .ok start →
      ∀ es r, Run (Recovery.CarefulStep c) { farm := start, senders } es r →
        ∀ e r', r.CalmStep c e r' → (r'.Reports c (b :: bs) ↔ ¬r.farm.Discards e) := by
  have hinv (start : RecoveryFarm) (hstart : startRecovery hashes bodies b.number
        ((b :: bs).getLast (List.cons_ne_nil b bs)).number maxWorkers maxBatchSize = .ok start)
      (es : List RecoveryFarm.Event) (r : Recovery)
      (hrun : Run (Recovery.CarefulStep c) { farm := start, senders } es r) :
      r.Inv c (b :: bs) := by
    obtain ⟨⟨headers, hheaders⟩, hpoint⟩ := startRecovery_eq_ok hstart
    have hend := le_of_fillCanonicalHeaders hsegment.hashesSorted hheaders
    obtain ⟨start', hstart', hfarm, -⟩ := startRecovery_segment hsegment hempty hworkers hend
    cases hstart.symm.trans hstart'
    refine hrun.preserves (fun _ _ _ h => h.step) (.running hfarm ?_ rfl rfl)
    simp [hpoint]
  refine ⟨⟨startRecovery_ne_succeded, fun start hstart es r hrun => ?_⟩, ?_⟩
  · exact (hinv start hstart es r hrun).reports
  · intro start hstart es r hrun e r' hstep
    have hr := hinv start hstart es r hrun
    constructor
    · exact fun hreports hdiscards => hr.not_reports hstep hdiscards hreports
    · exact fun hcareful => (hr.step ⟨hstep, hcareful⟩).reports

section Example

/-- Signatures that do not recover. -/
def failingCrypto : Crypto := { constantCrypto with recover := fun _ _ _ => none }

/-- The segment is a single block. -/
theorem canonical_blockTwo : CanonicalSegment [(2, blockTwo.hash)] [blockTwo] [blockTwo] where
  positive := by decide
  hashesSorted := List.pairwise_singleton _ _
  bodiesSorted := List.pairwise_singleton _ _
  consecutive := List.isChain_singleton _
  hash_mem := by decide
  body_mem b hb := hb

/-- The steps of the farm with one worker, whose batch fails. -/
def failingEvents : List RecoveryFarm.Event :=
  [.read, .spawn, .thread 0, .dispatch, .thread 0, .thread 0, .thread 0, .thread 0, .settle, .pull]

/-- The batch is the last one, and its failure is only met by the last collection. -/
theorem not_recover_reports :
    ¬∀ (c : Crypto) (hashes : List (Uint64 × Bytes32)) (bodies : List StoredBlock)
      (b : StoredBlock) (bs : List StoredBlock) (maxWorkers maxBatchSize : ℕ)
      (senders : PlainTable),
      CanonicalSegment hashes bodies (b :: bs) → Fits maxBatchSize (b :: bs) → 1 ≤ maxWorkers →
      AlwaysReports c hashes bodies b bs maxWorkers maxBatchSize senders (Recovery.Step c) := by
  intro h
  obtain ⟨-, hall⟩ := h failingCrypto _ _ blockTwo [] 1 1 {} canonical_blockTwo
    (by simp [Fits, blockTwo]) le_rfl
  obtain ⟨start, hstart⟩ : ∃ start,
      startRecovery [(2, blockTwo.hash)] [blockTwo] 2 2 1 1 = .ok start := ⟨_, rfl⟩
  have hrun : ∃ r, failingEvents.foldlM (Recovery.exec failingCrypto)
      { farm := start, senders := {} } = some r ∧ r.Succeded := by
    cases hstart
    exact ⟨_, rfl, rfl, rfl, rfl⟩
  obtain ⟨r, hr, hsucceded⟩ := hrun
  have hreports := hall start hstart failingEvents r (Run.of_foldlM hr)
  obtain ⟨a, ha⟩ := (hreports hsucceded blockTwo List.mem_cons_self).1 signedTransaction
    List.mem_cons_self
  have hnone : senderOf failingCrypto blockTwo.number signedTransaction = none := rfl
  cases hnone.symm.trans ha

/-- The second block has a signature that does not recover. -/
def brokenBlock : StoredBlock :=
  ⟨2, FixedBytes.replicate 32 2, [signedTransaction, { signedTransaction with oddYParity := true }]⟩

theorem canonical_brokenBlock :
    CanonicalSegment threeHashes [siblingBlock, blockOne, brokenBlock, blockThree]
      [blockOne, brokenBlock, blockThree] where
  positive := by decide
  hashesSorted := by decide
  bodiesSorted := by decide
  consecutive := by simp [blockOne, brokenBlock, blockThree]
  hash_mem := by decide
  body_mem b hb := List.mem_cons_of_mem _ hb

/-- Two batches, the second of which fails, and two workers. -/
theorem recover_reports_threeBlocks :
    AlwaysReports parityCrypto threeHashes [siblingBlock, blockOne, brokenBlock, blockThree]
      blockOne [brokenBlock, blockThree] 2 2 {} (Recovery.CarefulStep parityCrypto) := by
  have hempty : EmptyLast [blockOne, brokenBlock, blockThree] := by
    simp [EmptyLast, blockOne, brokenBlock, blockThree]
  exact (recover_reports canonical_brokenBlock one_le_two hempty {}).1

end Example

end Reports

end Silkworm.Senders
