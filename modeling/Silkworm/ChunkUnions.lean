import Silkworm.ChunkedSets

/-!
# Unions of chunks

Where the parts of a set do not arrive in its order, the chunks that are cut off are not in order
either, and a new one may replace an old one under the same key. The chunks make up the union of the
parts as long as everything in the chunks that may be replaced is put again or is in another one.
-/

namespace Silkworm.ChunkedSets

variable {K : Type} [LinearOrder K] (top : K)

/-- Elements are put in chunks, each under one of its own and the last one under the greatest key. -/
inductive Recut : ChunkMap K → Finset K → ChunkMap K → Prop
  | last {f : ChunkMap K} {p : Finset K} (hne : p.Nonempty) :
      Recut f p (Function.update f top (some p))
  | cut {f f' : ChunkMap K} {left right : Finset K} {m : K} (hm : m ∈ left) (hmtop : m < top)
      (hlt : ∀ x ∈ left, ∀ y ∈ right, x < y)
      (tail : Recut (Function.update f m (some left)) right f') : Recut f (left ∪ right) f'

/-- A set is the union of its chunks. -/
structure Unites (s : Finset K) (f : ChunkMap K) : Prop where
  mem_iff : ∀ {x}, x ∈ s ↔ ∃ k c, f k = some c ∧ x ∈ c
  bound : ∀ {k c}, f k = some c → k ≤ top
  last : ∀ {k c}, f k = some c → ∃ c', f top = some c' ∧ c'.Nonempty

/-- What was cut off is put again with `p`, or it is in a chunk that `p` does not replace. -/
def Spares (p : Finset K) (f : ChunkMap K) : Prop :=
  ∀ k c, k < top → f k = some c → ∀ x ∈ c,
    x ∈ p ∨ ∃ k' c', k' < top ∧ k' ∉ p ∧ f k' = some c' ∧ x ∈ c'

/-- A set is made up by what is still to be put and the chunks that it does not replace. -/
structure CutOff (s p : Finset K) (f : ChunkMap K) : Prop where
  sub : ∀ {k c}, k < top → f k = some c → c ⊆ s
  kept : ∀ {x}, x ∈ s → x ∈ p ∨ ∃ k c, k < top ∧ k ∉ p ∧ f k = some c ∧ x ∈ c
  rest : p ⊆ s

variable {top} {s p c : Finset K} {f f' : ChunkMap K} {k : K}

theorem unites_none : Unites top (∅ : Finset K) fun _ => none where
  mem_iff := by simp
  bound h := by cases h
  last h := by cases h

/-- Without a last chunk there are no others. -/
theorem Unites.eq_none (h : Unites top s f) (hlast : f top = none) (k : K) : f k = none := by
  cases hf : f k with
  | none => rfl
  | some c =>
    obtain ⟨c', hc', -⟩ := h.last hf
    cases hlast.symm.trans hc'

/-- A part is put again with the last chunk. -/
theorem Unites.cutOff (h : Unites top s f) (hspares : Spares top (c ∪ (f top).getD ∅) f) :
    CutOff top (s ∪ c) (c ∪ (f top).getD ∅) f := by
  have hlast {x : K} (hx : x ∈ (f top).getD ∅) : x ∈ s := by
    cases hf : f top with
    | none => simp [hf] at hx
    | some d => exact h.mem_iff.mpr ⟨top, d, hf, by simpa [hf] using hx⟩
  refine ⟨fun {k d} _ hf x hx => ?_, fun {x} hx => ?_, fun x hx => ?_⟩
  · exact Finset.mem_union_left _ (h.mem_iff.mpr ⟨k, d, hf, hx⟩)
  · rcases Finset.mem_union.mp hx with hx | hx
    · obtain ⟨k, d, hf, hx⟩ := h.mem_iff.mp hx
      rcases (h.bound hf).lt_or_eq with hk | rfl
      · exact hspares k d hk hf x hx
      · exact .inl (Finset.mem_union_right _ (by simpa [hf] using hx))
    · exact .inl (Finset.mem_union_left _ hx)
  · rcases Finset.mem_union.mp hx with hx | hx
    · exact Finset.mem_union_right _ hx
    · exact Finset.mem_union_left _ (hlast hx)

/-- One chunk is cut off. -/
theorem CutOff.put {left right : Finset K} {m : K} (h : CutOff top s (left ∪ right) f)
    (hm : m ∈ left) (hmtop : m < top) (hlt : ∀ x ∈ left, ∀ y ∈ right, x < y) :
    CutOff top s right (Function.update f m (some left)) := by
  have hleft : left ⊆ s := Finset.subset_union_left.trans h.rest
  have hnot : m ∉ right := fun hin => lt_irrefl m (hlt m hm m hin)
  refine ⟨fun {k d} hk hf => ?_, fun {x} hx => ?_, Finset.subset_union_right.trans h.rest⟩
  · rw [Function.update_apply] at hf
    split_ifs at hf
    · cases hf
      exact hleft
    · exact h.sub hk hf
  · rcases h.kept hx with hx | ⟨k, d, hk, hkp, hf, hx⟩
    · rcases Finset.mem_union.mp hx with hx | hx
      · exact .inr ⟨m, left, hmtop, hnot, Function.update_self .., hx⟩
      · exact .inl hx
    · obtain ⟨hkleft, hkright⟩ := Finset.notMem_union.mp hkp
      have hne : k ≠ m := fun heq => hkleft (heq ▸ hm)
      exact .inr ⟨k, d, hk, hkright, (Function.update_of_ne hne _ _).trans hf, hx⟩

theorem CutOff.finish (h : CutOff top s p f) (hbound : ∀ {k c}, f k = some c → k ≤ top)
    (hne : p.Nonempty) : Unites top s (Function.update f top (some p)) := by
  have hlast : Function.update f top (some p) top = some p := Function.update_self ..
  have hother {k : K} (hk : k ≠ top) : Function.update f top (some p) k = f k :=
    Function.update_of_ne hk _ _
  refine ⟨fun {x} => ⟨fun hx => ?_, ?_⟩, fun {k d} hf => ?_, fun _ => ⟨p, hlast, hne⟩⟩
  · rcases h.kept hx with hx | ⟨k, d, hk, -, hf, hx⟩
    · exact ⟨top, p, hlast, hx⟩
    · exact ⟨k, d, (hother hk.ne).trans hf, hx⟩
  · rintro ⟨k, d, hf, hx⟩
    by_cases hk : k = top
    · subst hk
      cases hlast.symm.trans hf
      exact h.rest hx
    · rw [hother hk] at hf
      exact h.sub (lt_of_le_of_ne (hbound hf) hk) hf hx
  · by_cases hk : k = top
    · exact hk.le
    · rw [hother hk] at hf
      exact hbound hf

namespace Recut

variable (h : Recut top f p f')

include h

theorem nonempty : p.Nonempty := by
  induction h with
  | last hne => exact hne
  | cut hm => exact ⟨_, Finset.mem_union_left _ hm⟩

/-- Nothing is lost. -/
theorem unites (hbound : ∀ {k c}, f k = some c → k ≤ top) (hs : CutOff top s p f) :
    Unites top s f' := by
  induction h with
  | last hne => exact hs.finish hbound hne
  | @cut f f' left right m hm hmtop hlt _ ih =>
    refine ih (fun {k c} hf => ?_) (hs.put hm hmtop hlt)
    rw [Function.update_apply] at hf
    split_ifs at hf with hk
    · exact hk.trans_le hmtop.le
    · exact hbound hf

/-- A chunk is an old one, or it is made of what was put and, unless it is the last one, it is under
a key below an element that comes later. -/
theorem chunk (hf : f' k = some c) :
    f k = some c ∨ c ⊆ p ∧ (k < top → k ∈ p ∧ ∃ y ∈ p, k < y) := by
  induction h with
  | @last f p hne =>
    rw [Function.update_apply] at hf
    split_ifs at hf with hk
    · cases hf
      exact .inr ⟨Finset.Subset.rfl, fun hlt => absurd hk hlt.ne⟩
    · exact .inl hf
  | @cut f f' left right m hm hmtop hlt tail ih =>
    rcases ih hf with hf | ⟨hsub, hkey⟩
    · rw [Function.update_apply] at hf
      split_ifs at hf with hk
      · cases hf
        obtain ⟨y, hy⟩ := tail.nonempty
        exact .inr ⟨Finset.subset_union_left, fun _ => ⟨hk ▸ Finset.mem_union_left _ hm,
          y, Finset.mem_union_right _ hy, hk ▸ hlt m hm y hy⟩⟩
      · exact .inl hf
    · refine .inr ⟨hsub.trans Finset.subset_union_right, fun hk => ?_⟩
      obtain ⟨hmem, y, hy, hlt⟩ := hkey hk
      exact ⟨Finset.mem_union_right _ hmem, y, Finset.mem_union_right _ hy, hlt⟩

/-- If no old chunk can be replaced, no key of a chunk that was cut off is in the last one. -/
theorem key_notMem (hold : ∀ k c, k < top → f k = some c → k ∉ p) (hk : k < top)
    (hf : f' k = some c) : k ∉ (f' top).getD ∅ := by
  induction h with
  | last hne =>
    rw [Function.update_of_ne hk.ne] at hf
    rw [Function.update_self]
    exact hold k c hk hf
  | @cut f f' left right m hm hmtop hlt tail ih =>
    refine ih (fun k' c' hk' hf' hin => ?_) hf
    rw [Function.update_apply] at hf'
    split_ifs at hf' with heq
    · exact lt_irrefl m (hlt m hm m (heq ▸ hin))
    · exact hold k' c' hk' hf' (Finset.mem_union_right _ hin)

end Recut

/-- Nothing is replaced under a key that is not put. -/
theorem spares_of_forall_notMem (h : ∀ k c, k < top → f k = some c → k ∉ p) : Spares top p f :=
  fun k c hk hf _ hx => .inr ⟨k, c, hk, h k c hk hf, hf, hx⟩

end Silkworm.ChunkedSets
