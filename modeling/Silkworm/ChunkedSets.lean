import Mathlib.Data.Finset.Max
import Mathlib.Data.Finset.Union
import Mathlib.Order.Basic

/-!
# Sets in chunks

A finite set is cut into chunks from the left. A chunk is kept under its greatest element, and the
last one under a key above all others, so that it can grow. An element that is sought from a bound
on is in the first chunk whose key is not below the bound.
-/

namespace Silkworm.ChunkedSets

variable {K : Type} [LinearOrder K] (top : K)

/-- A map of chunks. -/
abbrev ChunkMap (K : Type) := K → Option (Finset K)

/-- The chunks of a set, but for the last. -/
structure Closed (s : Finset K) (f : ChunkMap K) : Prop where
  key : ∀ {k c}, k < top → f k = some c → k ∈ c ∧ ∀ x ∈ c, x ≤ k
  subset : ∀ {k c}, k < top → f k = some c → c ⊆ s
  cover : ∀ {x}, x ∈ s → ∃ k c, k < top ∧ f k = some c ∧ x ∈ c
  order : ∀ {k k' c c'}, k < k' → k' < top → f k = some c → f k' = some c' →
    ∀ x ∈ c, ∀ y ∈ c', x < y

/-- The chunks make up a set, in increasing order, each under its greatest element and the last
under the greatest key. -/
structure Chunks (s : Finset K) (f : ChunkMap K) : Prop where
  bound : ∀ {k c}, f k = some c → k ≤ top
  nonempty : ∀ {k c}, f k = some c → c.Nonempty
  key : ∀ {k c}, k < top → f k = some c → k ∈ c ∧ ∀ x ∈ c, x ≤ k
  subset : ∀ {k c}, f k = some c → c ⊆ s
  cover : ∀ {x}, x ∈ s → ∃ k c, f k = some c ∧ x ∈ c
  last : s.Nonempty → f top ≠ none
  order : ∀ {k k' c c'}, k < k' → f k = some c → f k' = some c' → ∀ x ∈ c, ∀ y ∈ c', x < y

/-- Cut a nonempty set into a nonempty part and one above it. -/
def CutsLeft (cut : Finset K → Finset K × Finset K) : Prop :=
  ∀ s, s.Nonempty → (cut s).1.Nonempty ∧ (cut s).1 ∪ (cut s).2 = s ∧
    ∀ x ∈ (cut s).1, ∀ y ∈ (cut s).2, x < y

section Growth

variable {top} {s c : Finset K} {f : ChunkMap K}

theorem chunks_empty : Chunks top (∅ : Finset K) fun _ => none where
  bound h := by cases h
  nonempty h := by cases h
  key _ h := by cases h
  subset h := by cases h
  cover h := by simp at h
  last h := absurd rfl h.ne_empty
  order _ h := by cases h

/-- The chunks before the last. -/
theorem Chunks.closed (h : Chunks top s f) :
    ∃ t, Closed top t f ∧ s = t ∪ (f top).getD ∅ ∧ ∀ x ∈ t, ∀ y ∈ (f top).getD ∅, x < y := by
  classical
  refine ⟨s.filter fun x => ∃ k c, k < top ∧ f k = some c ∧ x ∈ c, ⟨h.key, fun hk hf x hx => ?_,
    fun hx => (Finset.mem_filter.mp hx).2, fun hkk _ => h.order hkk⟩, ?_, fun x hx y hy => ?_⟩
  · exact Finset.mem_filter.mpr ⟨h.subset hf hx, _, _, hk, hf, hx⟩
  · ext x
    rw [Finset.mem_union, Finset.mem_filter]
    constructor
    · intro hx
      obtain ⟨k, c, hf, hxc⟩ := h.cover hx
      rcases (h.bound hf).lt_or_eq with hk | rfl
      · exact .inl ⟨hx, k, c, hk, hf, hxc⟩
      · rw [hf]
        exact .inr hxc
    · rintro (hx | hx)
      · exact hx.1
      · cases hf : f top with
        | none =>
          rw [hf] at hx
          simp at hx
        | some c =>
          rw [hf] at hx
          exact h.subset hf hx
  · obtain ⟨-, k, c, hk, hf, hxc⟩ := Finset.mem_filter.mp hx
    cases hft : f top with
    | none =>
      rw [hft] at hy
      simp at hy
    | some c' =>
      rw [hft] at hy
      exact h.order hk hf hft x hxc y hy

/-- One more chunk is put under its greatest element. -/
theorem Closed.put (h : Closed top s f) {m : K} (hm : m ∈ c) (hmax : ∀ x ∈ c, x ≤ m)
    (hlt : m < top) (habove : ∀ x ∈ s, ∀ y ∈ c, x < y) :
    Closed top (s ∪ c) (Function.update f m (some c)) := by
  -- the old keys are below the new one
  have hbelow {k : K} {d : Finset K} (hk : k < top) (hf : f k = some d) : k < m :=
    habove k (h.subset hk hf (h.key hk hf).1) m hm
  have hcases {k : K} {d : Finset K} (hf : Function.update f m (some c) k = some d) :
      k = m ∧ d = c ∨ k ≠ m ∧ f k = some d := by
    by_cases hk : k = m
    · subst hk
      rw [Function.update_self] at hf
      exact .inl ⟨rfl, (Option.some.inj hf).symm⟩
    · rw [Function.update_of_ne hk] at hf
      exact .inr ⟨hk, hf⟩
  refine ⟨fun hk hf => ?_, fun hk hf => ?_, fun {x} hx => ?_, fun hkk hk' hf hf' x hx y hy => ?_⟩
  · rcases hcases hf with ⟨rfl, rfl⟩ | ⟨-, hf⟩
    · exact ⟨hm, hmax⟩
    · exact h.key hk hf
  · rcases hcases hf with ⟨rfl, rfl⟩ | ⟨-, hf⟩
    · exact Finset.subset_union_right
    · exact (h.subset hk hf).trans Finset.subset_union_left
  · rcases Finset.mem_union.mp hx with hx | hx
    · obtain ⟨k, d, hk, hf, hxd⟩ := h.cover hx
      refine ⟨k, d, hk, ?_, hxd⟩
      rw [Function.update_of_ne (hbelow hk hf).ne, hf]
    · exact ⟨m, c, hlt, Function.update_self .., hx⟩
  · rcases hcases hf with ⟨rfl, rfl⟩ | ⟨-, hold⟩
    · rcases hcases hf' with ⟨rfl, -⟩ | ⟨-, hf'⟩
      · exact absurd hkk (lt_irrefl _)
      · exact absurd (hbelow hk' hf') hkk.asymm
    · rcases hcases hf' with ⟨rfl, rfl⟩ | ⟨-, hf'⟩
      · exact habove x (h.subset (hkk.trans hk') hold hx) y hy
      · exact h.order hkk hk' hold hf' x hx y hy

/-- The last chunk is put under the greatest key. -/
theorem Closed.finish (h : Closed top s f) (hbound : ∀ {k c}, f k = some c → k ≤ top)
    (hc : c.Nonempty) (habove : ∀ x ∈ s, ∀ y ∈ c, x < y) :
    Chunks top (s ∪ c) (Function.update f top (some c)) := by
  have hcases {k : K} {d : Finset K} (hf : Function.update f top (some c) k = some d) :
      k = top ∧ d = c ∨ k < top ∧ f k = some d := by
    by_cases hk : k = top
    · subst hk
      rw [Function.update_self] at hf
      exact .inl ⟨rfl, (Option.some.inj hf).symm⟩
    · rw [Function.update_of_ne hk] at hf
      exact .inr ⟨lt_of_le_of_ne (hbound hf) hk, hf⟩
  refine ⟨fun hf => ?_, fun hf => ?_, fun hk hf => ?_, fun hf => ?_, fun {x} hx => ?_, fun _ => ?_,
    fun hkk hf hf' x hx y hy => ?_⟩
  · rcases hcases hf with ⟨rfl, -⟩ | ⟨hk, -⟩
    · exact le_rfl
    · exact hk.le
  · rcases hcases hf with ⟨-, rfl⟩ | ⟨hk, hf⟩
    · exact hc
    · exact ⟨_, (h.key hk hf).1⟩
  · rcases hcases hf with ⟨rfl, -⟩ | ⟨-, hf⟩
    · exact absurd hk (lt_irrefl _)
    · exact h.key hk hf
  · rcases hcases hf with ⟨-, rfl⟩ | ⟨hk, hf⟩
    · exact Finset.subset_union_right
    · exact (h.subset hk hf).trans Finset.subset_union_left
  · rcases Finset.mem_union.mp hx with hx | hx
    · obtain ⟨k, d, hk, hf, hxd⟩ := h.cover hx
      refine ⟨k, d, ?_, hxd⟩
      rw [Function.update_of_ne hk.ne, hf]
    · exact ⟨top, c, Function.update_self .., hx⟩
  · rw [Function.update_self]
    exact Option.some_ne_none c
  · rcases hcases hf with ⟨rfl, -⟩ | ⟨hk, hold⟩
    · rcases hcases hf' with ⟨rfl, -⟩ | ⟨hk', -⟩
      · exact absurd hkk (lt_irrefl _)
      · exact absurd hk' hkk.asymm
    · rcases hcases hf' with ⟨rfl, rfl⟩ | ⟨hk', hf'⟩
      · exact habove x (h.subset hk hold hx) y hy
      · exact h.order hkk hk' hold hf' x hx y hy

end Growth

section Lookup

variable {top} {s : Finset K} {f : ChunkMap K} (h : Chunks top s f) {n : K}

include h

/-- The least element from a bound on is in the first chunk from the bound on. -/
theorem Chunks.exists_chunk (hs : ∀ x ∈ s, x ≤ top) {m : K} (hm : m ∈ s) (hn : n ≤ m)
    (hmin : ∀ x ∈ s, n ≤ x → m ≤ x) :
    ∃ k c, n ≤ k ∧ f k = some c ∧ m ∈ c ∧ ∀ k', n ≤ k' → f k' ≠ none → k ≤ k' := by
  obtain ⟨k, c, hf, hmc⟩ := h.cover hm
  have hmk : m ≤ k := by
    rcases (h.bound hf).lt_or_eq with hk | rfl
    · exact (h.key hk hf).2 m hmc
    · exact hs m hm
  refine ⟨k, c, hn.trans hmk, hf, hmc, fun k' hn' hne => ?_⟩
  by_contra hlt
  obtain ⟨c', hf'⟩ := Option.ne_none_iff_exists'.mp hne
  rw [not_le] at hlt
  have hmem := (h.key (hlt.trans_le (h.bound hf)) hf').1
  have hle := hmin k' (h.subset hf' hmem) hn'
  exact absurd (h.order hlt hf' hf k' hmem m hmc) hle.not_gt

end Lookup

end Silkworm.ChunkedSets
