import Mathlib.Data.Set.Lattice

/-!
# Incremental indexes

Numbered items are entries of keys and values. An index that covers the items up to a number is
brought up to date by loading those of the numbers behind it, and does not mind changes there.
-/

namespace IncrementalIndexes

variable {K V : Type}

/-- A key has one value, whichever number it belongs to. -/
def Single (items : ℕ → Set (K × V)) : Prop :=
  ∀ m n e e', e ∈ items m → e' ∈ items n → e.1 = e'.1 → e.2 = e'.2

def Covers (items : ℕ → Set (K × V)) (progress : ℕ) (index : K → Option V) : Prop :=
  ∀ n ≤ progress, ∀ e ∈ items n, index e.1 = some e.2

/-- The new entries are found afterwards, and the other keys have what they had. -/
structure Loads (new : Set (K × V)) (index index' : K → Option V) : Prop where
  loaded : ∀ e ∈ new, index' e.1 = some e.2
  kept : ∀ k, (∀ v, (k, v) ∉ new) → index' k = index k

variable {items items' : ℕ → Set (K × V)} {progress progress' : ℕ} {index index' : K → Option V}

theorem Covers.mono (h : Covers items progress index) (hle : progress' ≤ progress) :
    Covers items progress' index := fun n hn => h n (hn.trans hle)

/-- Behind the progress the items may change. -/
theorem Covers.congr (h : Covers items progress index)
    (hsame : ∀ n ≤ progress, items' n = items n) : Covers items' progress index := by
  intro n hn e he
  rw [hsame n hn] at he
  exact h n hn e he

/-- All items are covered when those behind the progress have been loaded. -/
theorem Covers.load (h : Covers items progress index) (hs : Single items)
    (hl : Loads {e | ∃ n, progress < n ∧ e ∈ items n} index index') (n : ℕ) :
    Covers items n index' := by
  intro m _ e he
  by_cases hnew : ∃ v, (e.1, v) ∈ {e | ∃ n, progress < n ∧ e ∈ items n}
  · obtain ⟨v, n', hlt, hv⟩ := hnew
    have heq : v = e.2 := hs n' m (e.1, v) e hv he rfl
    rw [← heq]
    exact hl.loaded (e.1, v) ⟨n', hlt, hv⟩
  · have hle : m ≤ progress := by
      by_contra hlt
      exact hnew ⟨e.2, m, Nat.not_le.mp hlt, he⟩
    rw [hl.kept e.1 (not_exists.mp hnew)]
    exact h m hle e he

theorem Loads.refl (index : K → Option V) : Loads ∅ index index := ⟨fun _ he => he.elim, fun _ _ => rfl⟩

end IncrementalIndexes
