import Silkworm.Runs

/-!
# Workers

A worker and its caller share a state, a flag that is set by a kick, a status and a batch. Here their
atomic accesses are interleaved. The thread resets the flag when it begins to work, and releases its
batch behind the report of the results. A batch that is handed over before the flag is reset is not
processed.
-/

namespace Silkworm.Workers

inductive WorkerState
  | stopped | starting | started | stopping
  deriving DecidableEq

inductive Status
  | idle | working | resultsReady | error | aborted
  deriving DecidableEq

/-- Where the thread is. In between it waits for a kick, looks whether it should stop, processes its
batch and releases it. -/
inductive ThreadPoint
  | absent | created | begun | waiting | taken | processing | releasing | leaving | ended
  deriving DecidableEq

structure Worker where
  state : WorkerState := .stopped
  kicked : Bool := false
  status : Status := .idle
  batch : Option ℕ := none
  batchId : ℕ := 0
  /-- The batches that have been reported. -/
  completed : List ℕ := []
  thread : ThreadPoint := .absent
  /-- The caller has set what it wanted to, but has not kicked the thread yet. -/
  kicking : Bool := false
  deriving DecidableEq

inductive Event
  | start | setWork (batchId : ℕ) | stop | kick | pullResults | join
  | threadBegins | threadResets | threadTakes | threadChecks | threadReports (status : Status)
  | threadReleases | threadEnds
  deriving DecidableEq

def Event.byThread : Event → Bool
  | .start | .setWork _ | .stop | .kick | .pullResults | .join => false
  | _ => true

variable (w : Worker)

/-- An access of the caller or of the thread, if it comes to it. It does not come back from a wait,
and what follows a second start without a join or a missing batch is not defined. -/
def Worker.exec : Event → Option Worker
  | .start =>
    if w.kicking then none
    else if w.state ≠ .stopped then some w
    else if w.thread ≠ .absent then none
    else some { w with state := .starting, thread := .created }
  | .setWork batchId =>
    if w.kicking ∨ w.status ≠ .idle then none
    else some { w with batch := some batchId, batchId, status := .working, kicking := true }
  | .stop =>
    if w.kicking then none
    else if w.state = .started then some { w with state := .stopping, kicking := true }
    else some w
  | .kick => if w.kicking then some { w with kicked := true, kicking := false } else none
  | .pullResults =>
    if w.kicking ∨ w.status ≠ .resultsReady then none else some { w with status := .idle }
  | .join => if w.kicking ∨ w.thread ≠ .ended then none else some { w with thread := .absent }
  | .threadBegins =>
    if w.thread ≠ .created then none
    else if w.state = .starting then some { w with state := .started, thread := .begun }
    else some { w with thread := .leaving }
  | .threadResets =>
    if w.thread ≠ .begun then none else some { w with kicked := false, thread := .waiting }
  | .threadTakes =>
    if w.thread ≠ .waiting ∨ w.kicked = false then none
    else some { w with kicked := false, thread := .taken }
  | .threadChecks =>
    if w.thread ≠ .taken then none
    else if w.state = .stopping then some { w with thread := .leaving }
    else if w.batch = none then none
    else some { w with thread := .processing }
  | .threadReports status =>
    if w.thread ≠ .processing then none
    -- between two blocks of its batch the thread looks whether it should stop
    else if status = .resultsReady ∨ status = .error ∨ status = .aborted ∧ w.state = .stopping then
      some { w with
        status, completed := w.completed ++ [w.batchId]
        thread := .releasing }
    else none
  | .threadReleases =>
    if w.thread ≠ .releasing then none else some { w with batch := none, thread := .waiting }
  | .threadEnds =>
    if w.thread ≠ .leaving then none else some { w with state := .stopped, thread := .ended }

def Step (w : Worker) (e : Event) (w' : Worker) : Prop := w.exec e = some w'

/-- A batch is handed over while the thread still releases the last one. -/
def Hasty (e : Event) : Prop := w.thread = .releasing ∧ ∃ batchId, e = .setWork batchId

def CarefulStep (w : Worker) (e : Event) (w' : Worker) : Prop := Step w e w' ∧ ¬Hasty w e

def given (es : List Event) : List ℕ :=
  es.filterMap fun e => match e with
    | .setWork batchId => some batchId
    | _ => none

section Batches

/-- The thread works: it has reset the flag. -/
def ThreadPoint.Loops (p : ThreadPoint) : Prop :=
  p = .waiting ∨ p = .taken ∨ p = .processing ∨ p = .releasing

/-- The state goes with the life of the thread. -/
structure Alive (w : Worker) : Prop where
  loops : w.thread.Loops ∨ w.thread = .begun → w.state = .started ∨ w.state = .stopping
  leaving : w.thread = .leaving → w.state = .stopping
  created : w.thread = .created → w.state = .starting
  finished : w.thread = .absent ∨ w.thread = .ended → w.state = .stopped

/-- What holds of a worker that was given some batches. -/
structure Sound (batches : List ℕ) (w : Worker) : Prop extends Alive w where
  reported : batches = w.completed ++ if w.status = .working then [w.batchId] else []
  batch : w.status = .working → w.batch ≠ none
  processing : w.thread = .processing → w.status = .working
  taken : w.thread = .taken → w.status = .working ∨ w.state = .stopping
  releasing : w.thread = .releasing → w.status ≠ .working
  kicked : w.kicked = true → w.thread.Loops → w.state ≠ .stopping →
    w.status = .working ∧ w.thread = .waiting
  kicking : w.kicking = true → w.state ≠ .stopping → w.state ≠ .stopped →
    w.status = .working ∧ (w.thread.Loops → w.kicked = false ∧ w.thread = .waiting)

variable {w w' : Worker} {e : Event} {es : List Event} {batches : List ℕ}

theorem alive_init : Alive {} := by
  constructor <;> simp [ThreadPoint.Loops]

theorem alive_step (h : Alive w) (hstep : Step w e w') : Alive w' := by
  obtain ⟨h₁, h₂, h₃, h₄⟩ := h
  unfold Step at hstep
  cases e
  all_goals
    simp only [Worker.exec] at hstep
    split_ifs at hstep
    all_goals
      cases hstep
      constructor
      all_goals grind -ring -linarith [ThreadPoint.Loops]

theorem sound_init : Sound [] {} := by
  refine ⟨alive_init, ?_, ?_, ?_, ?_, ?_, ?_, ?_⟩ <;> simp [ThreadPoint.Loops]

/-- Case by case: a kick is for a batch, which stays until it is reported, or for a stop. -/
theorem sound_step (h : Sound batches w) (hstep : CarefulStep w e w') :
    Sound (batches ++ given [e]) w' := by
  obtain ⟨hexec, hcareful⟩ := hstep
  have halive := alive_step h.toAlive hexec
  obtain ⟨⟨hloops, hleaving, hcreated, hover⟩, h₁, h₂, h₃, h₄, h₅, h₆, h₇⟩ := h
  unfold Step at hexec
  unfold Hasty at hcareful
  cases e
  all_goals
    simp only [Worker.exec] at hexec
    split_ifs at hexec
    all_goals
      cases hexec
      refine ⟨halive, ?_, ?_, ?_, ?_, ?_, ?_, ?_⟩
      all_goals grind -ring -linarith [given, ThreadPoint.Loops]

theorem sound_run (hrun : Run CarefulStep w es w') (h : Sound batches w) :
    Sound (batches ++ given es) w' := by
  induction hrun generalizing batches with
  | nil w => simpa [given] using h
  | @cons w₁ w₂ w₃ e es hstep _ ih =>
    have hcons : given (e :: es) = given [e] ++ given es := by
      rw [given, given, given, ← List.filterMap_append]
      rfl
    rw [hcons, ← List.append_assoc]
    exact ih (sound_step h hstep)

/-- However the accesses are interleaved, as long as no batch is handed over while the thread still
releases the last one: the thread processes no missing batch, and the batches are reported once each
and in the order in which they were handed over, but for the last one, which may be missing. -/
theorem completed_of_run (hrun : Run CarefulStep {} es w) :
    (w.thread = .processing → w.batch ≠ none) ∧ w.completed <+: given es ∧
      (given es).length ≤ w.completed.length + 1 := by
  have h := sound_run hrun sound_init
  have hreported := h.reported
  rw [List.nil_append] at hreported
  refine ⟨fun hprocessing => h.batch (h.processing hprocessing), ?_, ?_⟩
  · rw [hreported]
    exact List.prefix_append _ _
  · rw [hreported, List.length_append]
    split_ifs <;> simp

end Batches

section Finishes

variable {w w' : Worker} {e : Event} {es : List Event}

/-- The thread resets the flag behind the kick of a batch, which is lost. -/
def Drops (w : Worker) (e : Event) : Prop :=
  e = .threadResets ∧ w.status = .working ∧ w.kicking = false

/-- No stop is asked for, and no kick of a batch is lost. -/
def DiligentStep (w : Worker) (e : Event) (w' : Worker) : Prop :=
  CarefulStep w e w' ∧ e ≠ .stop ∧ ¬Drops w e

/-- The thread reports by itself what is missing of some batches. -/
def Finishes (batches : List ℕ) (w : Worker) : Prop :=
  ∃ es w', (∀ e ∈ es, e.byThread = true) ∧ Run Step w es w' ∧ w'.completed = batches

/-- The kick for a batch has reached the thread. -/
def Hears (w : Worker) : Prop :=
  w.thread = .taken ∨ w.thread = .processing ∨ w.thread = .waiting ∧ w.kicked = true

theorem finishes_of_step {batches : List ℕ} (hstep : Step w e w') (he : e.byThread = true)
    (h : Finishes batches w') : Finishes batches w := by
  obtain ⟨es, w'', hes, hrun, hcompleted⟩ := h
  exact ⟨e :: es, w'', List.forall_mem_cons.mpr ⟨he, hes⟩, .cons hstep hrun, hcompleted⟩

theorem finishes_of_processing (h : w.thread = .processing) :
    Finishes (w.completed ++ [w.batchId]) w := by
  have hstep : Step w (.threadReports .resultsReady) { w with
      status := .resultsReady, completed := w.completed ++ [w.batchId], thread := .releasing } := by
    simp [Step, Worker.exec, h]
  exact finishes_of_step hstep rfl ⟨[], _, by simp, .nil _, rfl⟩

theorem finishes_of_taken (h : w.thread = .taken) (hs : w.state ≠ .stopping)
    (hbatch : w.batch ≠ none) : Finishes (w.completed ++ [w.batchId]) w := by
  have hstep : Step w .threadChecks { w with thread := .processing } := by
    simp [Step, Worker.exec, h, hs, hbatch]
  exact finishes_of_step hstep rfl (finishes_of_processing rfl)

theorem finishes_of_waiting (h : w.thread = .waiting) (hs : w.state ≠ .stopping)
    (hbatch : w.batch ≠ none) (hkicked : w.kicked = true) :
    Finishes (w.completed ++ [w.batchId]) w := by
  have hstep : Step w .threadTakes { w with kicked := false, thread := .taken } := by
    simp [Step, Worker.exec, h, hkicked]
  exact finishes_of_step hstep rfl (finishes_of_taken rfl hs hbatch)

theorem Hears.finishes (h : Hears w) (hs : w.state ≠ .stopping) (hbatch : w.batch ≠ none) :
    Finishes (w.completed ++ [w.batchId]) w := by
  rcases h with h | h | ⟨h, hkicked⟩
  · exact finishes_of_taken h hs hbatch
  · exact finishes_of_processing h
  · exact finishes_of_waiting h hs hbatch hkicked

/-- A thread that has not heard of the batch goes on as it does, since nobody else kicks it. -/
theorem not_hears_step (h : ¬Hears w) (hr : w.thread ≠ .releasing) (he : e.byThread = true)
    (hstep : Step w e w') :
    ¬Hears w' ∧ w'.thread ≠ .releasing ∧ w'.completed = w.completed := by
  unfold Step at hstep
  unfold Hears at h ⊢
  cases e
  all_goals
    simp only [Worker.exec] at hstep
    split_ifs at hstep
    all_goals
      cases hstep
      grind -ring -linarith [Event.byThread]

theorem not_finishes_of_not_hears {n : ℕ} (h : ¬Hears w) (hr : w.thread ≠ .releasing) :
    ¬Finishes (w.completed ++ [n]) w := by
  rintro ⟨es, w', hes, hrun, hcompleted⟩
  have hsame : w'.completed = w.completed := by
    clear hcompleted
    induction hrun with
    | nil w => rfl
    | cons hstep _ ih =>
      obtain ⟨he, hes⟩ := List.forall_mem_cons.mp hes
      obtain ⟨h', hr', hcompleted⟩ := not_hears_step h hr he hstep
      exact (ih h' hr' hes).trans hcompleted
  rw [hsame] at hcompleted
  simp at hcompleted

/-- The kick of a batch that reaches the thread behind its reset stays until it is taken. -/
structure Diligent (w : Worker) : Prop extends Alive w where
  stopping : w.state ≠ .stopping
  hears : w.status = .working → w.kicking = false → w.thread.Loops → Hears w

theorem diligent_step {batches : List ℕ} (hsound : Sound batches w) (h : Diligent w)
    (hstep : DiligentStep w e w') : Diligent w' := by
  obtain ⟨⟨hexec, -⟩, hstop, hdrops⟩ := hstep
  have halive := alive_step h.toAlive hexec
  have hkicking := hsound.kicking
  have hreleasing := hsound.releasing
  obtain ⟨⟨hloops, hleaving, hcreated, hover⟩, hstopping, hhears⟩ := h
  unfold Step at hexec
  unfold Drops at hdrops
  unfold Hears at hhears
  refine { halive with stopping := ?_, hears := ?_ }
  all_goals
    try unfold Hears
    cases e
    all_goals
      simp only [Worker.exec] at hexec
      split_ifs at hexec
      all_goals
        cases hexec
        grind -ring -linarith [ThreadPoint.Loops]

/-- However the accesses are interleaved, as long as no batch is handed over while the thread still
releases the last one, no stop is asked for and no kick of a batch is lost: the thread by itself can
report all batches, unless the last one was handed over before its reset, which is still to come. -/
theorem finishes_of_run (hrun : Run DiligentStep {} es w) (hkicking : w.kicking = false)
    (hstatus : w.status = .working) : Finishes (given es) w ↔ w.thread.Loops := by
  have hsound : Sound (given es) w := by
    have hrun := sound_run (hrun.mono fun _ _ _ hstep => hstep.1) sound_init
    rwa [List.nil_append] at hrun
  have hdiligent : Diligent w := by
    refine (hrun.preserves (P := fun w => ∃ batches, Sound batches w ∧ Diligent w) ?_
      ⟨[], sound_init, { alive_init with stopping := nofun, hears := nofun }⟩).choose_spec.2
    rintro w e w' ⟨batches, hsound, hdiligent⟩ hstep
    exact ⟨_, sound_step hsound hstep.1, diligent_step hsound hdiligent hstep⟩
  have hreported := hsound.reported
  rw [if_pos hstatus] at hreported
  rw [hreported]
  constructor
  · intro hfinishes
    by_contra hloops
    refine not_finishes_of_not_hears (fun hhears => hloops ?_)
      (fun h => hsound.releasing h hstatus) hfinishes
    rcases hhears with h | h | ⟨h, -⟩ <;> simp [ThreadPoint.Loops, h]
  · intro hloops
    exact (hdiligent.hears hstatus hkicking hloops).finishes hdiligent.stopping
      (hsound.batch hstatus)

end Finishes

section Stops

variable {w w' : Worker} {e : Event} {es : List Event}

/-- The thread resets the flag behind the kick of a stop, which is lost. -/
def Overtakes (w : Worker) (e : Event) : Prop :=
  e = .threadResets ∧ w.state = .stopping ∧ w.kicking = false

def PunctualStep (w : Worker) (e : Event) (w' : Worker) : Prop := Step w e w' ∧ ¬Overtakes w e

/-- The thread has been told to stop, and is going to notice. -/
def Notices (w : Worker) : Prop :=
  w.thread = .taken ∨ w.thread = .leaving ∨ w.kicked = true ∧
    (w.thread = .waiting ∨ w.thread = .processing ∨ w.thread = .releasing)

/-- The thread ends by itself. -/
def Ends (w : Worker) : Prop :=
  ∃ es w', (∀ e ∈ es, e.byThread = true) ∧ Run Step w es w' ∧ w'.state = .stopped

theorem ends_of_leaving (h : w.thread = .leaving) : Ends w :=
  ⟨[.threadEnds], { w with state := .stopped, thread := .ended }, by simp [Event.byThread],
    .cons (by simp [Step, Worker.exec, h]) (.nil _), rfl⟩

theorem ends_of_step (hstep : Step w e w') (he : e.byThread = true) (h : Ends w') : Ends w := by
  obtain ⟨es, w'', hes, hrun, hstopped⟩ := h
  exact ⟨e :: es, w'', List.forall_mem_cons.mpr ⟨he, hes⟩, .cons hstep hrun, hstopped⟩

theorem ends_of_taken (h : w.thread = .taken) (hs : w.state = .stopping) : Ends w := by
  have hstep : Step w .threadChecks { w with thread := .leaving } := by
    simp [Step, Worker.exec, h, hs]
  exact ends_of_step hstep rfl (ends_of_leaving rfl)

theorem ends_of_waiting (h : w.thread = .waiting) (hs : w.state = .stopping)
    (hkicked : w.kicked = true) : Ends w := by
  have hstep : Step w .threadTakes { w with kicked := false, thread := .taken } := by
    simp [Step, Worker.exec, h, hkicked]
  exact ends_of_step hstep rfl (ends_of_taken rfl hs)

theorem ends_of_releasing (h : w.thread = .releasing) (hs : w.state = .stopping)
    (hkicked : w.kicked = true) : Ends w := by
  have hstep : Step w .threadReleases { w with batch := none, thread := .waiting } := by
    simp [Step, Worker.exec, h]
  exact ends_of_step hstep rfl (ends_of_waiting rfl hs hkicked)

theorem ends_of_processing (h : w.thread = .processing) (hs : w.state = .stopping)
    (hkicked : w.kicked = true) : Ends w := by
  have hstep : Step w (.threadReports .resultsReady) { w with
      status := .resultsReady, completed := w.completed ++ [w.batchId], thread := .releasing } := by
    simp [Step, Worker.exec, h]
  exact ends_of_step hstep rfl (ends_of_releasing rfl hs hkicked)

theorem Notices.ends (h : Notices w) (hs : w.state = .stopping) : Ends w := by
  rcases h with h | h | ⟨hkicked, h | h | h⟩
  · exact ends_of_taken h hs
  · exact ends_of_leaving h
  · exact ends_of_waiting h hs hkicked
  · exact ends_of_processing h hs hkicked
  · exact ends_of_releasing h hs hkicked

/-- A thread that does not notice goes on as it does, since nobody else kicks it. -/
theorem not_notices_step (hw : Alive w) (hs : w.state = .stopping) (h : ¬Notices w)
    (he : e.byThread = true) (hstep : Step w e w') : w'.state = .stopping ∧ ¬Notices w' := by
  obtain ⟨hloops, hleaving, hcreated, hover⟩ := hw
  unfold Step at hstep
  unfold Notices at h ⊢
  cases e
  all_goals
    simp only [Worker.exec] at hstep
    split_ifs at hstep
    all_goals
      cases hstep
      grind -ring -linarith [Event.byThread]

theorem ends_iff_notices (hw : Alive w) (hs : w.state = .stopping) : Ends w ↔ Notices w := by
  refine ⟨?_, fun h => h.ends hs⟩
  rintro ⟨es, w', hes, hrun, hstopped⟩
  by_contra h
  induction hrun with
  | nil w =>
    rw [hs] at hstopped
    cases hstopped
  | cons hstep _ ih =>
    obtain ⟨he, hes⟩ := List.forall_mem_cons.mp hes
    obtain ⟨hs', h'⟩ := not_notices_step hw hs h he hstep
    exact ih (alive_step hw hstep) hs' hes hstopped h'

/-- A stop whose kick is reset is lost. -/
theorem not_ends_of_overtakes (hw : Alive w) (h : Overtakes w e) (hstep : Step w e w') :
    ¬Ends w' := by
  obtain ⟨rfl, hs, -⟩ := h
  have hw' := alive_step hw hstep
  unfold Step at hstep
  simp only [Worker.exec] at hstep
  split_ifs at hstep
  cases hstep
  rw [ends_iff_notices hw' hs]
  simp [Notices]

/-- The kick of a stop that reaches the thread before it resets the flag stays until then. -/
structure Prompt (w : Worker) : Prop extends Alive w where
  told : w.state = .stopping → w.kicking = false → w.thread ≠ .begun → Notices w

theorem prompt_step (h : Prompt w) (hstep : PunctualStep w e w') : Prompt w' := by
  obtain ⟨hexec, hpunctual⟩ := hstep
  have halive := alive_step h.toAlive hexec
  obtain ⟨⟨hloops, hleaving, hcreated, hover⟩, htold⟩ := h
  unfold Step at hexec
  unfold Overtakes at hpunctual
  unfold Notices at htold
  refine { halive with told := ?_ }
  unfold Notices
  cases e
  all_goals
    simp only [Worker.exec] at hexec
    split_ifs at hexec
    all_goals
      cases hexec
      cases hthread : w.thread
      all_goals grind -ring -linarith [ThreadPoint.Loops]

/-- However the accesses are interleaved, as long as the kick of a stop does not come before the
thread resets its flag: a worker that has been stopped ends by itself, unless the reset is still to
come. -/
theorem ends_of_run (hrun : Run PunctualStep {} es w) (hs : w.state = .stopping)
    (hkicking : w.kicking = false) : Ends w ↔ w.thread ≠ .begun := by
  have hinit : Prompt {} := { alive_init with told := nofun }
  have h : Prompt w := hrun.preserves (fun _ _ _ => prompt_step) hinit
  rw [ends_iff_notices h.toAlive hs]
  constructor
  · rintro hnotices hbegun
    unfold Notices at hnotices
    simp [hbegun] at hnotices
  · exact h.told hs hkicking

end Stops

section Examples

private theorem careful {w w' : Worker} {e : Event} (h : w.exec e = some w')
    (hp : w.thread ≠ .releasing) : CarefulStep w e w' := ⟨h, fun hhasty => hp hhasty.1⟩

private theorem punctual {w w' : Worker} {e : Event} (h : w.exec e = some w')
    (he : e ≠ .threadResets ∨ w.state ≠ .stopping) : PunctualStep w e w' :=
  ⟨h, fun hovertakes => he.elim (fun hne => hne hovertakes.1) fun hne => hne hovertakes.2.1⟩

/-- One batch is reported. -/
theorem completed_of_run_seven : ∃ w, Run CarefulStep {} [.start, .threadBegins, .threadResets,
    .setWork 7, .kick, .threadTakes, .threadChecks, .threadReports .resultsReady] w ∧
      w.completed <+: [7] := by
  have hrun : Run CarefulStep {} [.start, .threadBegins, .threadResets, .setWork 7, .kick,
      .threadTakes, .threadChecks, .threadReports .resultsReady] _ :=
    .cons (careful rfl (by decide)) (.cons (careful rfl (by decide))
      (.cons (careful rfl (by decide)) (.cons (careful rfl (by decide))
        (.cons (careful rfl (by decide)) (.cons (careful rfl (by decide))
          (.cons (careful rfl (by decide)) (.cons (careful rfl (by decide)) (.nil _))))))))
  exact ⟨_, hrun, (completed_of_run hrun).2.1⟩

private theorem diligent {w w' : Worker} {e : Event} (h : w.exec e = some w')
    (hp : w.thread ≠ .releasing) (he : e ≠ .stop)
    (hdrops : e ≠ .threadResets ∨ w.status ≠ .working) : DiligentStep w e w' :=
  ⟨careful h hp, he, fun hd => hdrops.elim (fun hne => hne hd.1) fun hne => hne hd.2.1⟩

private theorem diligent_releases {w w' : Worker} (h : w.exec .threadReleases = some w') :
    DiligentStep w .threadReleases w' := by
  refine ⟨⟨h, ?_⟩, by simp, by simp [Drops]⟩
  rintro ⟨-, batchId, heq⟩
  cases heq

/-- The second batch is handed over behind the results of the first one. -/
theorem finishes_of_run_eight : ∃ w, Run DiligentStep {} [.start, .threadBegins, .threadResets,
    .setWork 7, .kick, .threadTakes, .threadChecks, .threadReports .resultsReady, .threadReleases,
    .pullResults, .setWork 8, .kick] w ∧ Finishes [7, 8] w := by
  have hrun : Run DiligentStep {} [.start, .threadBegins, .threadResets, .setWork 7, .kick,
      .threadTakes, .threadChecks, .threadReports .resultsReady, .threadReleases, .pullResults,
      .setWork 8, .kick] _ :=
    .cons (diligent rfl (by decide) (by decide) (by decide))
      (.cons (diligent rfl (by decide) (by decide) (by decide))
      (.cons (diligent rfl (by decide) (by decide) (by decide))
      (.cons (diligent rfl (by decide) (by decide) (by decide))
      (.cons (diligent rfl (by decide) (by decide) (by decide))
      (.cons (diligent rfl (by decide) (by decide) (by decide))
      (.cons (diligent rfl (by decide) (by decide) (by decide))
      (.cons (diligent rfl (by decide) (by decide) (by decide))
      (.cons (diligent_releases rfl)
      (.cons (diligent rfl (by decide) (by decide) (by decide))
      (.cons (diligent rfl (by decide) (by decide) (by decide))
      (.cons (diligent rfl (by decide) (by decide) (by decide)) (.nil _))))))))))))
  exact ⟨_, hrun, (finishes_of_run hrun rfl rfl).mpr (.inl rfl)⟩

/-- The thread is stopped while it waits. -/
theorem ends_of_run_waiting : ∃ w, Run PunctualStep {} [.start, .threadBegins, .threadResets, .stop,
    .kick] w ∧ Ends w := by
  have hrun : Run PunctualStep {} [.start, .threadBegins, .threadResets, .stop, .kick] _ :=
    .cons (punctual rfl (by decide)) (.cons (punctual rfl (by decide))
      (.cons (punctual rfl (by decide)) (.cons (punctual rfl (by decide))
        (.cons (punctual rfl (by decide)) (.nil _)))))
  exact ⟨_, hrun, (ends_of_run hrun rfl rfl).mpr (by decide)⟩

end Examples

end Silkworm.Workers
