import Silkworm.FinishedBranches

/-!
# The nodes handed to the collector

With a collector the builder also keeps, for each level, the bitmap of the children that were
branches. A bit is set when a branch is finished and is read when a branch of the level above
is finished, which need not be its parent. The run goes through exactly when every digit
shown then belongs to a child that is referenced by its hash.
-/

namespace Silkworm.Trie
open EntriesUnderPrefix Rlp

section Closing

variable {keccak : Bytes → Bytes32}

theorem unwrapHash_reference (node : Bytes) :
    unwrapHash (reference keccak node) =
      if node.length < kHashLength then none else some (keccak node) := by
  rw [← nodeRef_eq_reference]
  by_cases h : node.length < kHashLength
  · have hne : ¬node.length = kHashLength + 1 := by omega
    simp only [nodeRef, h, ↓reduceIte, unwrapHash, hne, ↓reduceDIte]
  · have hlen : (byte (kEmptyStringCode + kHashLength) :: (keccak node).val).length =
        kHashLength + 1 := by
      rw [List.length_cons, (keccak node).property]
    simp only [nodeRef, h, ↓reduceIte, unwrapHash, hlen, ↓reduceDIte, List.drop_one, List.tail_cons]

private theorem mapM_unwrapHash {g : Nibble → Bytes} {ds : List Nibble}
    (h : ∀ d ∈ ds, kHashLength ≤ (g d).length) :
    (ds.map fun d => reference keccak (g d)).mapM unwrapHash =
      some (ds.map fun d => keccak (g d)) := by
  induction ds with
  | nil => rfl
  | cons d ds ih =>
    obtain ⟨hd, hds⟩ := List.forall_mem_cons.mp h
    rw [List.map_cons, List.mapM_cons, unwrapHash_reference, if_neg (by omega), ih hds]
    rfl

private theorem mapM_unwrapHash_eq_none {g : Nibble → Bytes} {ds : List Nibble}
    (h : ∃ d ∈ ds, (g d).length < kHashLength) :
    (ds.map fun d => reference keccak (g d)).mapM unwrapHash = none := by
  induction ds with
  | nil => simp at h
  | cons d ds ih =>
    rw [List.map_cons, List.mapM_cons, unwrapHash_reference]
    by_cases hd : (g d).length < kHashLength
    · rw [if_pos hd]
      rfl
    · have hds : ∃ d ∈ ds, (g d).length < kHashLength := by
        obtain ⟨e, he, hlt⟩ := h
        rcases List.mem_cons.mp he with rfl | he
        · exact absurd hlt hd
        · exact ⟨e, he, hlt⟩
      rw [if_neg hd, ih hds]
      rfl

variable {hb : HashBuilder} {curr : List Nibble} {len : ℕ} {mask hashMask treeMask : Mask}
  {g : Nibble → Bytes} {rest : List Bytes} {hashMasks treeMasks : List Mask}

/-- Every digit of the hash mask has a child, and that child is referenced by its hash. -/
def Hashed (mask hashMask : Mask) (g : Nibble → Bytes) : Prop :=
  ∀ d, hashMask.has d = true → mask.has d = true ∧ kHashLength ≤ (g d).length

section Collecting

variable (hcol : hb.nodeCollector = true) (hm : hb.groups[len]? = some mask)
  (hh : hb.hashMasks[len]? = some hashMask) (ht : hb.treeMasks[len]? = some treeMask)
  (hsub : isSubset treeMask hashMask = true)
  (hs : hb.stack = (mask.digits.map fun d => reference keccak (g d)).reverse ++ rest)
  (hH : registerInParent hb.hashMasks curr len = some hashMasks)
  (hT : registerInParent hb.treeMasks curr len = some treeMasks)

include hcol hm hh ht hsub hs hH hT

theorem closeGroup_collect (h : Hashed mask hashMask g) :
    ∃ root hb', closeGroup keccak curr len hb = some hb' ∧ hb' = { hb with
      stack := reference keccak
        (branchNode fun d => if mask.has d then some (reference keccak (g d)) else none) :: rest
      hashMasks
      treeMasks := if hashMask = 0 then hb.treeMasks else treeMasks
      collected := hb.collected ++ if hashMask = 0 then [] else
        [(curr.take len, ⟨mask, treeMask, hashMask, hashMask.digits.map fun d => keccak (g d),
          root⟩)] } := by
  have hsub' : isSubset hashMask mask = true := isSubset_iff.mpr fun d hd => (h d hd).1
  have htree : isSubset treeMask mask = true :=
    isSubset_iff.mpr fun d hd => isSubset_iff.mp hsub' d (isSubset_iff.mp hsub d hd)
  by_cases h0 : hashMask = 0
  · have ht0 : treeMask = 0 := by
      rw [mask_eq_zero_iff]
      intro d
      by_contra hd
      have := isSubset_iff.mp hsub d (by simpa using hd)
      rw [h0, has_zero] at this
      exact absurd this (by simp)
    refine ⟨none, _, ?_, rfl⟩
    simp only [closeGroup, hm, hh, hs, h0, branchRef_eq, hcol, hH, ht, ht0, Option.bind_eq_bind,
      Option.bind_some, Bool.not_true, Bool.false_eq_true, ↓reduceIte, and_self, List.append_nil]
  · have hhashes : (hashMask.digits.map fun d => reference keccak (g d)).mapM unwrapHash =
        some (hashMask.digits.map fun d => keccak (g d)) :=
      mapM_unwrapHash fun d hd => (h d (mem_digits.mp hd)).2
    simp only [closeGroup, hm, hh, hs, branchRef_eq_of_isSubset hsub', hcol, hH, ht, hT,
      Option.bind_eq_bind, Option.bind_some, Bool.not_true, Bool.false_eq_true, ↓reduceIte,
      hhashes, makeNode, htree, hsub', Mask.count, List.length_map, and_self, h0, and_false]
    exact ⟨_, _, rfl, rfl⟩

theorem closeGroup_fails (h : ¬Hashed mask hashMask g) : closeGroup keccak curr len hb = none := by
  by_cases hsub' : isSubset hashMask mask = true
  · have hlt : ∃ d ∈ hashMask.digits, (g d).length < kHashLength := by
      by_contra hall
      refine h fun d hd => ⟨isSubset_iff.mp hsub' d hd, ?_⟩
      by_contra hlt
      exact hall ⟨d, mem_digits.mpr hd, by omega⟩
    have hne : ¬(treeMask = 0 ∧ hashMask = 0) := by
      rintro ⟨-, rfl⟩
      obtain ⟨d, hd, -⟩ := hlt
      rw [mem_digits, has_zero] at hd
      exact absurd hd (by simp)
    simp only [closeGroup, hm, hh, hs, branchRef_eq_of_isSubset hsub', hcol, hH, ht, hT,
      Option.bind_eq_bind, Option.bind_some, Bool.not_true, Bool.false_eq_true, ↓reduceIte, hne,
      mapM_unwrapHash_eq_none hlt, Option.bind_none]
  · simp only [closeGroup, hm, hh, branchRef, hsub', Option.bind_eq_bind, Option.bind_some,
      Bool.not_false, ↓reduceIte, Option.bind_none]

end Collecting

end Closing

section Masks

variable {masks : List Mask} {curr : List Nibble} {m : ℕ}

theorem exists_registerInParent (hm : m ≤ curr.length) (hm' : m ≤ masks.length) :
    ∃ masks', registerInParent masks curr m = some masks' ∧ masks'.length = masks.length ∧
      ∀ l d, (masks'.getD l 0).has d = true ↔
        (masks.getD l 0).has d = true ∨ m = l + 1 ∧ curr[l]? = some d := by
  cases m with
  | zero => exact ⟨masks, by simp [registerInParent], rfl, by simp⟩
  | succ k =>
    have hx : curr[k]? = some curr[k] := List.getElem?_eq_getElem hm
    refine ⟨setDigit masks k curr[k], by simp [registerInParent, hx], by simp [setDigit], ?_⟩
    intro l d
    rw [getD_setDigit masks hm']
    by_cases hl : l = k
    · subst hl
      rw [if_pos rfl, has_or_bit, Bool.or_eq_true, decide_eq_true_eq, hx]
      exact or_congr_right ⟨fun h => ⟨rfl, congrArg some h.symm⟩, fun h => (Option.some.inj h.2).symm⟩
    · rw [if_neg hl]
      exact (or_iff_left fun h => hl (Nat.succ.inj h.1).symm).symm

theorem growMasks_eq {hb : HashBuilder} (h : hb.treeMasks.length = hb.hashMasks.length) (n : ℕ) :
    growMasks hb n = { hb with treeMasks := growTo hb.treeMasks n
                               hashMasks := growTo hb.hashMasks n } := by
  unfold growMasks growTo
  rw [← h]
  split_ifs <;> rfl

/-- The hash masks show the finished branches, and the tree masks some of them. -/
structure Masks (C : List Nibble → Prop) (hb : HashBuilder) : Prop where
  nodeCollector : hb.nodeCollector = true
  length_eq : hb.treeMasks.length = hb.hashMasks.length
  hash : ∀ l d, (hb.hashMasks.getD l 0).has d = true ↔ Marks C l d
  tree : ∀ l, isSubset (hb.treeMasks.getD l 0) (hb.hashMasks.getD l 0) = true

variable {C C' : List Nibble → Prop} {hb : HashBuilder}

theorem Masks.congr (h : Masks C hb) (hC : ∀ r, C r ↔ C' r) : Masks C' hb :=
  ⟨h.nodeCollector, h.length_eq, fun l d => (h.hash l d).trans (marks_congr hC), h.tree⟩

theorem Masks.grow (h : Masks C hb) (n : ℕ) : Masks C (growMasks hb n) := by
  rw [growMasks_eq h.length_eq]
  refine ⟨h.nodeCollector, ?_, fun l d => ?_, fun l => ?_⟩
  · rw [length_growTo, length_growTo, h.length_eq]
  · rw [getD_growTo]
    exact h.hash l d
  · rw [getD_growTo, getD_growTo]
    exact h.tree l

theorem Masks.update (h : Masks C hb) (groups : List Mask) (stack : List Bytes) :
    Masks C { hb with groups, stack } := ⟨h.nodeCollector, h.length_eq, h.hash, h.tree⟩

theorem Masks.le_length (h : Masks C hb) (n : ℕ) : n ≤ (growMasks hb n).hashMasks.length := by
  rw [growMasks_eq h.length_eq, length_growTo]
  omega

/-- The masks after the branch at `p` has been registered with its parent. -/
theorem Masks.insert (h : Masks C hb) {p : List Nibble} (hp : p = curr.take m)
    (hm : m ≤ curr.length) (hlast : ∀ r, C r → Precedes r p) {hb' : HashBuilder}
    (hcol : hb'.nodeCollector = true)
    (hH : ∀ l d, (hb'.hashMasks.getD l 0).has d = true ↔
      (hb.hashMasks.getD l 0).has d = true ∨ m = l + 1 ∧ curr[l]? = some d)
    (hT : ∀ l d, (hb'.treeMasks.getD l 0).has d = true →
      (hb.treeMasks.getD l 0).has d = true ∨ m = l + 1 ∧ curr[l]? = some d) :
    Masks (fun r => C r ∨ r = p) (truncate hb' m) := by
  have hlen : p.length = m := by rw [hp, List.length_take, Nat.min_eq_left hm]
  have hget {l : ℕ} (hl : m = l + 1) : p.getLast? = curr[l]? := by
    have hx : curr[l]? = some (curr.get ⟨l, by omega⟩) := List.getElem?_eq_getElem _
    rw [hp, hl, take_succ_of_getElem? hx, List.getLast?_concat, hx]
  refine ⟨hcol, by simp only [truncate, length_resize], fun l d => ?_, fun l => ?_⟩
  · rw [marks_insert hlast, hlen]
    by_cases hl : l < m
    · rw [truncate, getD_resize _ hl, hH, h.hash]
      refine ⟨fun h' => ⟨hl, h'.imp_right fun h' => ⟨h'.1, (hget h'.1).trans h'.2⟩⟩, fun h' => ?_⟩
      exact h'.2.imp_right fun h' => ⟨h'.1, (hget h'.1).symm.trans h'.2⟩
    · rw [truncate, List.getD_eq_default _ _ (by rw [length_resize]; omega), has_zero]
      simp [hl]
  · by_cases hl : l < m
    · rw [truncate, getD_resize _ hl, getD_resize _ hl, isSubset_iff]
      intro d hd
      rw [hH]
      exact (hT l d hd).imp_left (isSubset_iff.mp (h.tree l) d)
    · rw [truncate, List.getD_eq_default _ _ (by rw [length_resize]; omega), isSubset_iff]
      intro d hd
      rw [has_zero] at hd
      exact absurd hd (by simp)

end Masks

end Silkworm.Trie
