import Mathlib.Data.List.Basic
import Mathlib.Tactic.Common

/-!
# Undo logs

A state records how to undo its changes in a journal, newest change first. Undoing need not
give back the earlier state itself, because caches may have been filled meanwhile: it gives
a state that restores the earlier one in the sense of a given preorder.
-/

namespace Silkworm.UndoLogs

/-- A journal of changes and a preorder that says when a state is as good as another. Only
allowed changes are recorded. -/
structure UndoLog (σ δ : Type) where
  journal : σ → List δ
  undo : δ → σ → σ
  Allowed : δ → Prop
  Restores : σ → σ → Prop
  refl : ∀ s, Restores s s
  trans : ∀ {s t u}, Restores s t → Restores t u → Restores s u

variable {σ δ : Type} (L : UndoLog σ δ)

/-- Undo changes, the first of the list first. -/
def UndoLog.undoAll (ds : List δ) (y : σ) : σ := ds.foldl (fun y d => L.undo d y) y

/-- The journal of `t` extends that of `s` by changes whose undoing leads from anything as
good as `t` to something as good as `s`. -/
def UndoLog.Logged (s t : σ) : Prop :=
  ∃ ds, L.journal t = ds ++ L.journal s ∧ (∀ d ∈ ds, L.Allowed d) ∧
    ∀ y, L.Restores t y → L.Restores s (L.undoAll ds y)

/-- The changes that `t` has recorded on top of a journal of the given length. -/
def UndoLog.since (n : ℕ) (t : σ) : List δ := (L.journal t).take ((L.journal t).length - n)

variable {L} {s t u : σ}

theorem UndoLog.Logged.refl (s : σ) : L.Logged s s := ⟨[], rfl, by simp, fun _ h => h⟩

theorem UndoLog.Logged.trans (hst : L.Logged s t) (htu : L.Logged t u) : L.Logged s u := by
  obtain ⟨ds, hd, ha, hr⟩ := hst
  obtain ⟨es, he, ha', hr'⟩ := htu
  refine ⟨es ++ ds, by rw [he, hd, List.append_assoc], fun d h => ?_, fun y hy => ?_⟩
  · rcases List.mem_append.mp h with h | h
    · exact ha' d h
    · exact ha d h
  · rw [UndoLog.undoAll, List.foldl_append]
    exact hr _ (hr' y hy)

/-- A change of caches only. -/
theorem UndoLog.Logged.of_restores (hj : L.journal t = L.journal s) (h : L.Restores s t) :
    L.Logged s t := ⟨[], hj, by simp, fun _ hy => L.trans h hy⟩

/-- One recorded change. -/
theorem UndoLog.Logged.of_undo {d : δ} (hj : L.journal t = d :: L.journal s) (ha : L.Allowed d)
    (h : ∀ y, L.Restores t y → L.Restores s (L.undo d y)) : L.Logged s t :=
  ⟨[d], hj, by simpa using ha, h⟩

theorem UndoLog.Logged.since_eq (h : L.Logged s t) :
    L.journal t = L.since (L.journal s).length t ++ L.journal s := by
  obtain ⟨ds, hd, -⟩ := h
  rw [UndoLog.since, hd, List.length_append, Nat.add_sub_cancel, List.take_left]

theorem UndoLog.Logged.allowed (h : L.Logged s t) :
    ∀ d ∈ L.since (L.journal s).length t, L.Allowed d := by
  obtain ⟨ds, hd, ha, -⟩ := h
  rwa [UndoLog.since, hd, List.length_append, Nat.add_sub_cancel, List.take_left]

/-- Undoing everything since `s` restores it. -/
theorem UndoLog.Logged.undoAll_since (h : L.Logged s t) :
    L.Restores s (L.undoAll (L.since (L.journal s).length t) t) := by
  obtain ⟨ds, hd, -, hr⟩ := h
  rw [UndoLog.since, hd, List.length_append, Nat.add_sub_cancel, List.take_left]
  exact hr t (L.refl t)

end Silkworm.UndoLogs
