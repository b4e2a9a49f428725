import Silkworm.SenderBatches

/-!
# Batches and their workers

Every batch is with one worker until it is announced, and the batches are announced and pulled in
the order in which they were dispatched.
-/

namespace Silkworm.Senders
open Db SortedTables

/-- What a worker has of the farm: nothing, a batch that is not announced yet, or one that is. -/
inductive Phase
  | free | pending (k : ℕ) | announced (k : ℕ)
  deriving DecidableEq

/-- The batches from `pulled` on: those in the queue are announced, the others are pending. -/
structure Assigned (phases : List Phase) (queue : List (ℕ × ℕ)) (pulled total : ℕ) : Prop where
  le : pulled + queue.length ≤ total
  ids : queue.map Prod.snd = List.range' pulled queue.length
  announced : ∀ i k : ℕ, phases[i]? = some (.announced k) ↔ (i, k) ∈ queue
  pending : ∀ i k : ℕ, phases[i]? = some (.pending k) → pulled + queue.length ≤ k ∧ k < total
  owner : ∀ k, pulled + queue.length ≤ k → k < total → ∃ i : ℕ, phases[i]? = some (.pending k)
  unique : ∀ i j k : ℕ, phases[i]? = some (.pending k) → phases[j]? = some (.pending k) → i = j

namespace Assigned

variable {phases : List Phase} {queue : List (ℕ × ℕ)} {pulled total i k : ℕ}

theorem nil : Assigned [] [] 0 0 where
  le := le_rfl
  ids := rfl
  announced i k := by simp
  pending i k h := by simp at h
  owner k _ h := absurd h (Nat.not_lt_zero k)
  unique i j k h := by simp at h

/-- A new worker. -/
theorem spawn (h : Assigned phases queue pulled total) :
    Assigned (phases ++ [.free]) queue pulled total := by
  have hsame (j : ℕ) (x : Phase) (hx : x ≠ .free) :
      (phases ++ [.free])[j]? = some x ↔ phases[j]? = some x := by
    rw [List.getElem?_append]
    split_ifs with hj
    · rfl
    · have hnone : phases[j]? = none := List.getElem?_eq_none (Nat.le_of_not_lt hj)
      rw [hnone]
      cases hd : j - phases.length with
      | zero => simpa using hx.symm
      | succ d => simp
  refine ⟨h.le, h.ids, fun j k => ?_, fun j k hp => ?_, fun k hle hlt => ?_, fun i j k hi hj => ?_⟩
  · rw [hsame j _ (by simp)]
    exact h.announced j k
  · exact h.pending j k ((hsame j _ (by simp)).mp hp)
  · obtain ⟨j, hj⟩ := h.owner k hle hlt
    exact ⟨j, (hsame j _ (by simp)).mpr hj⟩
  · exact h.unique i j k ((hsame i _ (by simp)).mp hi) ((hsame j _ (by simp)).mp hj)

private theorem getElem?_set_of_lt {x y : Phase} {j : ℕ} (hi : i < phases.length) :
    (phases.set i y)[j]? = some x ↔ j = i ∧ y = x ∨ j ≠ i ∧ phases[j]? = some x := by
  rw [List.getElem?_set]
  by_cases hij : i = j
  · subst hij
    simp [hi]
  · have hji : ¬j = i := fun h => hij h.symm
    simp [hij, hji]

theorem lt_length {x : Phase} (hi : phases[i]? = some x) : i < phases.length :=
  (List.getElem?_eq_some_iff.mp hi).1

/-- A batch is handed to a free worker. -/
theorem dispatch (h : Assigned phases queue pulled total) (hi : phases[i]? = some .free) :
    Assigned (phases.set i (.pending total)) queue pulled (total + 1) := by
  have hset (j : ℕ) (x : Phase) := getElem?_set_of_lt (x := x) (y := .pending total) (j := j)
    (lt_length hi)
  refine ⟨h.le.trans (Nat.le_succ total), h.ids, fun j k => ?_, fun j k hp => ?_,
    fun k hle hlt => ?_, fun j j' k hj hj' => ?_⟩
  · rw [hset, ← h.announced j k]
    grind
  · have := h.pending j k
    have := h.le
    grind
  · rcases Nat.lt_succ_iff_lt_or_eq.mp hlt with hlt | rfl
    · obtain ⟨j, hj⟩ := h.owner k hle hlt
      exact ⟨j, (hset j _).mpr (by grind)⟩
    · exact ⟨i, (hset i _).mpr (.inl ⟨rfl, rfl⟩)⟩
  · have := h.pending j k
    have := h.pending j' k
    have := h.unique j j' k
    grind

/-- The batch after the announced ones is announced. -/
theorem signal (h : Assigned phases queue pulled total)
    (hi : phases[i]? = some (.pending (pulled + queue.length))) :
    Assigned (phases.set i (.announced (pulled + queue.length)))
      (queue ++ [(i, pulled + queue.length)]) pulled total := by
  have hset (j : ℕ) (x : Phase) := getElem?_set_of_lt (x := x)
    (y := .announced (pulled + queue.length)) (j := j) (lt_length hi)
  have hlt := (h.pending i _ hi).2
  have hlen : (queue ++ [(i, pulled + queue.length)]).length = queue.length + 1 := by simp
  refine ⟨?_, ?_, fun j k => ?_, fun j k hp => ?_, fun k hle hlt => ?_, fun j j' k hj hj' => ?_⟩
  · rw [hlen]
    omega
  · rw [hlen, List.range'_concat, List.map_append, h.ids]
    simp
  · rw [hset, List.mem_append, ← h.announced j k]
    grind
  · have := h.pending j k
    have := h.unique i j k
    grind
  · rw [hlen] at hle
    obtain ⟨j, hj⟩ := h.owner k (by omega) hlt
    refine ⟨j, (hset j _).mpr (.inr ⟨fun hji => ?_, hj⟩)⟩
    rw [hji, hi] at hj
    cases hj
    omega
  · have := h.unique j j' k
    grind

/-- The first batch of the queue is pulled. -/
theorem pull (h : Assigned phases ((i, k) :: queue) pulled total) :
    phases[i]? = some (.announced k) ∧ k = pulled ∧
      Assigned (phases.set i .free) queue (pulled + 1) total := by
  have hi : phases[i]? = some (.announced k) := (h.announced i k).mpr List.mem_cons_self
  have hset (j : ℕ) (x : Phase) := getElem?_set_of_lt (x := x) (y := .free) (j := j) (lt_length hi)
  have hids := h.ids
  rw [List.map_cons, List.length_cons, List.range'_succ, List.cons.injEq] at hids
  obtain ⟨hk, hids⟩ := hids
  have hle := h.le
  rw [List.length_cons] at hle
  have hgt (x : ℕ × ℕ) (hx : x ∈ queue) : pulled + 1 ≤ x.2 := by
    have hmem : x.2 ∈ List.range' (pulled + 1) queue.length := hids ▸ List.mem_map_of_mem hx
    exact (List.mem_range'_1.mp hmem).1
  refine ⟨hi, hk, by omega, hids, fun j k' => ?_, fun j k' hp => ?_, fun k' hle hlt => ?_,
    fun j j' k' hj hj' => ?_⟩
  · have := h.announced j k'
    have := hgt (i, k')
    grind
  · have := h.pending j k'
    grind
  · obtain ⟨j, hj⟩ := h.owner k' (by rw [List.length_cons]; omega) hlt
    exact ⟨j, (hset j _).mpr (.inr ⟨by grind, hj⟩)⟩
  · have := h.unique j j' k'
    grind

end Assigned

namespace RecoveryWorker

def phase (w : RecoveryWorker) : Phase :=
  match w.status with
  | .idle => .free
  | .working => .pending w.batchId
  | _ => if w.point = .signalling then .pending w.batchId else .announced w.batchId

/-- What the status of a worker tells of the blocks that it is through with. -/
inductive Outcome (c : Crypto) (w : RecoveryWorker) (bs : List StoredBlock) : Prop
  | recovered (status : w.status = .resultsReady) (recovers : ∀ b ∈ bs, Recovers c b)
      (results : w.results = bs.map (result c))
  | failed (status : w.status = .error) (fails : ¬∀ b ∈ bs, Recovers c b)

/-- A worker is idle, is at a batch, or is through with one. -/
inductive Valid (c : Crypto) (batches : List (List StoredBlock)) (w : RecoveryWorker) : Prop
  | free (status : w.status = .idle) (kicked : w.kicked = false)
      (point : w.point = .starting ∨ w.point = .waiting ∨ w.point = .signalled)
  | assigned (bs : List StoredBlock) (status : w.status = .working)
      (mem : batches[w.batchId]? = some bs) (batch : w.batch = some (bs.flatMap (packages c)))
      (point : w.point = .waiting ∧ w.kicked = true ∨ w.point = .working ∧ w.kicked = false)
  | through (bs : List StoredBlock) (outcome : w.Outcome c bs)
      (mem : batches[w.batchId]? = some bs) (kicked : w.kicked = false)
      (point : w.point = .signalling ∨ w.point = .waiting ∨ w.point = .signalled)

section Steps

variable {c : Crypto} {batches : List (List StoredBlock)} {w w' : RecoveryWorker}
  {maxBatchSize : ℕ}

theorem phase_eq_free : w.phase = .free ↔ w.status = .idle := by
  rw [phase]
  cases w.status with
  | idle => simp
  | working => simp
  | _ =>
    dsimp only
    split_ifs <;> simp

/-- Behind its batch a worker announces it, whatever the outcome. -/
theorem Outcome.phase_eq {bs : List StoredBlock} (h : w.Outcome c bs) :
    w.phase = if w.point = .signalling then .pending w.batchId else .announced w.batchId := by
  rw [phase]
  cases h with
  | recovered status => rw [status]
  | failed status => rw [status]

theorem Outcome.status_ne {bs : List StoredBlock} (h : w.Outcome c bs) :
    w.status ≠ .idle ∧ w.status ≠ .working := by
  cases h with
  | recovered status => simp [status]
  | failed status => simp [status]

/-- Dispatched batches stay with their workers. -/
theorem Valid.append (h : w.Valid c batches) (bs : List StoredBlock) :
    w.Valid c (batches ++ [bs]) := by
  have hmem (bs' : List StoredBlock) (h : batches[w.batchId]? = some bs') :
      (batches ++ [bs])[w.batchId]? = some bs' := by
    rw [List.getElem?_append_left (List.getElem?_eq_some_iff.mp h).1, h]
  cases h with
  | free status kicked point => exact .free status kicked point
  | assigned bs' status mem batch point => exact .assigned bs' status (hmem bs' mem) batch point
  | through bs' outcome mem kicked point =>
    exact .through bs' outcome (hmem bs' mem) kicked point

/-- A batch of packed blocks has one of the two outcomes. -/
theorem outcome_recoverBatch {bs : List StoredBlock} {p : Package} {ps : List Package}
    (h : Batchable c bs) (hne : bs ≠ []) (hcons : bs.flatMap (packages c) = p :: ps) :
    Outcome c { w with
      results := (recoverBatch c p.blockNum [] [] (p :: ps)).1
      status := (recoverBatch c p.blockNum [] [] (p :: ps)).2
      point := .signalling } bs := by
  by_cases hrec : ∀ b ∈ bs, Recovers c b
  · have hres := recoverBatch_batch h hrec hne hcons
    exact .recovered (congrArg Prod.snd hres) hrec (congrArg Prod.fst hres)
  · exact .failed (hcons ▸ recoverBatch_error h hrec) hrec

/-- A step of the thread changes nothing that the farm sees, but that the batch is through. -/
theorem Valid.next (h : w.Valid c batches)
    (hbatches : ∀ bs ∈ batches, Batchable c bs ∧ bs ≠ [])
    (hw : w.next c maxBatchSize = some w') : w'.Valid c batches ∧ w'.phase = w.phase := by
  cases h with
  | free status kicked point =>
    rcases point with point | point | point
    · rw [RecoveryWorker.next, point] at hw
      cases hw
      exact ⟨.free status rfl (.inr (.inl rfl)), by simp [phase, status]⟩
    · rw [RecoveryWorker.next, point] at hw
      simp [kicked] at hw
    · rw [RecoveryWorker.next, point] at hw
      cases hw
      exact ⟨.free status kicked (.inr (.inl rfl)), by simp [phase, status]⟩
  | assigned bs status mem batch point =>
    rcases point with ⟨point, kicked⟩ | ⟨point, kicked⟩
    · rw [RecoveryWorker.next, point] at hw
      simp only [kicked, ↓reduceIte, Option.some.injEq] at hw
      subst hw
      exact ⟨.assigned bs status mem batch (.inr ⟨rfl, rfl⟩), by simp [phase, status]⟩
    · obtain ⟨hbatch, hne⟩ := hbatches bs (List.mem_of_getElem? mem)
      rw [RecoveryWorker.next, point, batch] at hw
      cases hps : bs.flatMap (packages c) with
      | nil => simp [hps] at hw
      | cons p ps =>
        rw [hps] at hw
        dsimp only at hw
        split_ifs at hw
        cases hw
        have houtcome := outcome_recoverBatch (w := { w with batch := some (p :: ps) }) hbatch hne hps
        refine ⟨.through bs houtcome mem kicked (.inl rfl), ?_⟩
        rw [houtcome.phase_eq, phase, status]
        exact if_pos rfl
  | through bs outcome mem kicked point =>
    rcases point with point | point | point
    · rw [RecoveryWorker.next, point] at hw
      cases hw
    · rw [RecoveryWorker.next, point] at hw
      simp [kicked] at hw
    · rw [RecoveryWorker.next, point] at hw
      cases hw
      have houtcome : Outcome c { w with batch := none, point := .waiting } bs := by
        cases outcome with
        | recovered status recovers results => exact .recovered status recovers results
        | failed status fails => exact .failed status fails
      refine ⟨.through bs houtcome mem kicked (.inr (.inl rfl)), ?_⟩
      rw [houtcome.phase_eq, outcome.phase_eq, point]
      simp

end Steps

end RecoveryWorker

end Silkworm.Senders
