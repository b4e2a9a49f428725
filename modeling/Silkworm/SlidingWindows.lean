import Mathlib.Data.List.Basic
import Mathlib.Data.Nat.ModEq

/-!
# Sliding windows

A list grows by items that follow from its last ones. A ring of a fixed size, which is overwritten
from its beginning again and again, holds the last items of the list.
-/

namespace SlidingWindows

variable {α : Type} {n : ℕ}

/-- The list after `m` further items. -/
def grow (next : List α → α) : ℕ → List α → List α
  | 0, l => l
  | m + 1, l => grow next m l ++ [next (grow next m l)]

@[simp] theorem length_grow (next : List α → α) (m : ℕ) (l : List α) :
    (grow next m l).length = l.length + m := by
  induction m with
  | zero => rfl
  | succ m ih => rw [grow, List.length_append, ih, List.length_singleton, Nat.add_assoc]

/-- The item with number `i` is in its place, if it is one of the last `n`. -/
def Holds (w : Vector α n) (l : List α) : Prop :=
  ∀ i < l.length, l.length ≤ i + n → w[i % n]? = l[i]?

theorem holds_nil (w : Vector α n) : Holds w ([] : List α) := by
  intro i hi
  exact absurd hi (Nat.not_lt_zero i)

variable {w : Vector α n} {l : List α}

/-- The new item takes the place of the oldest one. -/
theorem Holds.push (h : Holds w l) (hn : 0 < n) (a : α) :
    Holds (w.setIfInBounds (l.length % n) a) (l ++ [a]) := by
  intro i hi hlast
  rw [List.length_append, List.length_singleton] at hi hlast
  rw [Vector.getElem?_setIfInBounds]
  rcases Nat.lt_or_eq_of_le (Nat.le_of_lt_succ hi) with hlt | heq
  · have hne : l.length % n ≠ i % n := by
      intro hmod
      have hdvd : n ∣ l.length - i := (Nat.modEq_iff_dvd' hlt.le).mp hmod.symm
      have hle := Nat.le_of_dvd (Nat.sub_pos_of_lt hlt) hdvd
      omega
    rw [if_neg hne, List.getElem?_append_left hlt]
    exact h i hlt (by omega)
  · subst heq
    rw [if_pos rfl, if_pos (Nat.mod_lt _ hn), List.getElem?_concat_length]

/-- The item that comes `i` places after the oldest one. -/
theorem Holds.get (h : Holds w l) {i : ℕ} (hi : i < n) (hl : n ≤ l.length) :
    w[(l.length + i) % n]? = l[l.length - n + i]? := by
  have hmod : (l.length + i) % n = (l.length - n + i) % n := by
    rw [show l.length + i = l.length - n + i + n by omega, Nat.add_mod_right]
  rw [hmod]
  exact h _ (by omega) (by omega)

end SlidingWindows
