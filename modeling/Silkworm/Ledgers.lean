import Mathlib.Algebra.BigOperators.Group.Finset.Basic
import Mathlib.Algebra.Order.BigOperators.Group.Finset
import Mathlib.Data.Fintype.BigOperators

/-!
# Ledgers

A ledger gives every one of finitely many holders an amount. The total of a ledger changes with an
entry by as much as the entry does, and bounds every entry and every two of them together.
-/

namespace Silkworm.Ledgers

variable {A : Type} [Fintype A] {f g : A → ℕ}

def total (f : A → ℕ) : ℕ := ∑ a, f a

theorem total_mono (h : ∀ a, g a ≤ f a) : total g ≤ total f := Finset.sum_le_sum fun a _ => h a

theorem total_congr (h : ∀ a, g a = f a) : total g = total f := Finset.sum_congr rfl fun a _ => h a

theorem le_total (f : A → ℕ) (a : A) : f a ≤ total f :=
  Finset.single_le_sum_of_canonicallyOrdered (Finset.mem_univ a)

variable [DecidableEq A]

theorem add_le_total (f : A → ℕ) {a b : A} (h : a ≠ b) : f a + f b ≤ total f := by
  have hpair : f a + f b = ∑ x ∈ {a, b}, f x := (Finset.sum_pair h).symm
  rw [hpair]
  exact Finset.sum_le_sum_of_subset (Finset.subset_univ _)

theorem total_update (f : A → ℕ) (a : A) (amount : ℕ) :
    total (Function.update f a amount) + f a = total f + amount := by
  rw [total, Finset.sum_update_of_mem (Finset.mem_univ a), total,
    ← Finset.add_sum_erase Finset.univ f (Finset.mem_univ a), Finset.sdiff_singleton_eq_erase]
  omega

/-- A ledger that differs in one entry. -/
theorem total_set {a : A} {amount : ℕ} (h : ∀ a', g a' = if a' = a then amount else f a') :
    total g + f a = total f + amount := by
  have heq : g = Function.update f a amount := by
    funext a'
    rw [h, Function.update_apply]
  rw [heq, total_update]

end Silkworm.Ledgers
