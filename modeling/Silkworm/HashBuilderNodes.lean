import Silkworm.HashBuilder

/-!
# The nodes that the hash builder writes

The node encoders of the builder, which compute lengths and packed paths by index, agree
with the node encodings of the trie.
-/

namespace Silkworm.Trie
open Rlp

theorem unpackNibbles_eq (key : Bytes) : unpackNibbles key = nibbles key := by
  unfold unpackNibbles nibbles
  congr 1
  funext b
  have hb := b.toNat_lt
  have hlo : b.toNat &&& 0xF = b.toNat % 16 := Nat.and_two_pow_sub_one_eq_mod b.toNat 4
  have hhi : b.toNat >>> 4 = b.toNat / 16 := Nat.shiftRight_eq_div_pow b.toNat 4
  simp only [unpackNibble, hlo, hhi]
  congr 1
  · exact Fin.ext (Nat.mod_eq_of_lt (by omega))
  · congr 1
    exact Fin.ext (Nat.mod_eq_of_lt (by omega))

private theorem packPairs_eq_map : ∀ path : List Nibble, path.length % 2 = 0 →
    packPairs path = (List.range' 1 (path.length / 2)).map fun i =>
      pack (path.getD (2 * i - 2) 0) (path.getD (2 * i - 1) 0)
  | [], _ => rfl
  | [_], h => by simp at h
  | hi :: lo :: path, h => by
    have ih := packPairs_eq_map path (by simp only [List.length_cons] at h; omega)
    have hlen : (hi :: lo :: path).length / 2 = path.length / 2 + 1 := by
      simp only [List.length_cons]
      omega
    rw [packPairs, ih, hlen, List.range'_succ, List.map_cons]
    congr 1
    rw [← List.map_add_range', List.map_map]
    apply List.map_congr_left
    intro i hi'
    obtain ⟨h1, -⟩ := List.mem_range'_1.mp hi'
    have e1 : 2 * (1 + i) - 2 = 2 * i - 2 + 2 := by omega
    have e2 : 2 * (1 + i) - 1 = 2 * i - 1 + 2 := by omega
    simp only [Function.comp_apply, e1, e2, List.getD_cons_succ]

theorem encodePath_eq_hexPrefix (path : List Nibble) (terminating : Bool) :
    encodePath path terminating = hexPrefix path terminating := by
  by_cases h : path.length % 2 = 0
  · simp only [encodePath, hexPrefix, h, ne_eq, not_true_eq_false, ↓reduceIte, decide_false,
      packPairs_eq_map path h]
    cases terminating <;> rfl
  · cases path with
    | nil => simp at h
    | cons x rest =>
      have hrest : rest.length % 2 = 0 := by
        simp only [List.length_cons] at h
        omega
      have hlen : (x :: rest).length / 2 = rest.length / 2 := by
        simp only [List.length_cons]
        omega
      have hor : ∀ n ∈ [1, 3], 16 * n ||| x.val = 16 * n + x.val :=
        (by decide : ∀ y : Nibble, ∀ n ∈ [1, 3], 16 * n ||| y.val = 16 * n + y.val) x
      simp only [encodePath, hexPrefix, h, ne_eq, not_false_eq_true, ↓reduceIte, decide_true,
        packPairs_eq_map rest hrest, hlen, List.getD_cons_zero]
      congr 1
      · cases terminating
        · exact congrArg byte (hor 1 (by simp))
        · exact congrArg byte (hor 3 (by simp))
      · apply List.map_congr_left
        intro i hi
        obtain ⟨h1, -⟩ := List.mem_range'_1.mp hi
        have e1 : 2 * i - 1 = 2 * i - 2 + 1 := by omega
        have e2 : 2 * i = 2 * i - 1 + 1 := by omega
        rw [e2, List.getD_cons_succ, Nat.add_sub_cancel, e1, List.getD_cons_succ]
        congr 2

theorem leafNodeRlp_eq (path : List Nibble) (value : Bytes) :
    leafNodeRlp path value = leafNode path value := by
  simp only [leafNodeRlp, leafNode, encodeList, encodePath_eq_hexPrefix, List.length_append,
    length_encodeBytes, List.append_assoc]

theorem extensionNodeRlp_eq (path : List Nibble) (childRef : Bytes) :
    extensionNodeRlp path childRef = extensionNode path childRef := by
  simp only [extensionNodeRlp, extensionNode, encodeList, encodePath_eq_hexPrefix,
    List.length_append, length_encodeBytes, List.append_assoc]

section References

variable {keccak : Bytes → Bytes32}

theorem nodeRef_eq_reference (node : Bytes) : nodeRef keccak node = reference keccak node := by
  have h := encodeFixed_eq_encodeBytes (by norm_num) (by norm_num) (keccak node)
  simp only [nodeRef, reference, ← h]
  rfl

/-- Finalization hashes the root node, whether or not its reference embeds it. -/
theorem rootHashOfStack_reference (node : Bytes) (stack : List Bytes) :
    rootHashOfStack keccak (reference keccak node :: stack) = keccak node := by
  by_cases h : node.length < kHashLength
  · have hne : node.length ≠ kHashLength + 1 := by omega
    simp only [rootHashOfStack, reference, h, ↓reduceIte, hne, ↓reduceDIte]
  · have href : reference keccak node = byte (kEmptyStringCode + kHashLength) :: (keccak node).val := by
      rw [← nodeRef_eq_reference, nodeRef, if_neg h]
    have hlen : (reference keccak node).length = kHashLength + 1 := by
      rw [href, List.length_cons, (keccak node).property]
    rw [rootHashOfStack, dif_pos hlen]
    exact Subtype.ext (congrArg (List.drop 1) href)

theorem has_eq_getLsbD (m : Mask) (d : Nibble) : m.has d = m.getLsbD d.val := by
  have hbit (i : ℕ) (hi : i < 16) : (bit d).getLsbD i = decide (d.val = i) := by
    simp only [bit, BitVec.getLsbD_shiftLeft, BitVec.getLsbD_one, hi, decide_true, Bool.true_and,
      Nat.reduceLT]
    by_cases h : d.val = i
    · simp [h]
    · simp only [h, decide_false, Bool.and_eq_false_imp, Bool.not_eq_true', decide_eq_false_iff_not]
      omega
  rw [Mask.has, Bool.eq_iff_iff, decide_eq_true_eq]
  constructor
  · intro h
    by_contra hm
    refine h (BitVec.eq_of_getLsbD_eq fun i hi => ?_)
    rw [BitVec.getLsbD_and, hbit i hi, show (0 : Mask) = 0#16 from rfl, BitVec.getLsbD_zero]
    by_cases hd : d.val = i
    · rw [← hd, Bool.eq_false_iff.mpr hm, Bool.false_and]
    · simp [hd]
  · intro hm h0
    have := congrArg (BitVec.getLsbD · d.val) h0
    simp only [BitVec.getLsbD_and, hm, hbit d.val d.isLt, BitVec.ofNat_eq_ofNat,
      BitVec.getLsbD_zero, decide_true, Bool.and_self, Bool.true_eq_false] at this

@[simp] theorem has_zero (d : Nibble) : Mask.has 0 d = false := by
  simp [Mask.has]

theorem has_or_bit (m : Mask) (c d : Nibble) : (m ||| bit c).has d = (m.has d || decide (d = c)) := by
  have hbit : (bit c).getLsbD d.val = decide (d = c) := by
    rw [← has_eq_getLsbD]
    revert c d
    decide
  rw [has_eq_getLsbD, has_eq_getLsbD, BitVec.getLsbD_or, hbit]

theorem mask_eq_zero_iff {m : Mask} : m = 0 ↔ ∀ d, m.has d = false := by
  constructor
  · rintro rfl d
    exact has_zero d
  · intro h
    apply BitVec.eq_of_getLsbD_eq
    intro i hi
    rw [← has_eq_getLsbD m ⟨i, hi⟩, h]
    simp

theorem mem_digits {m : Mask} {d : Nibble} : d ∈ m.digits ↔ m.has d = true := by
  simp [Mask.digits]

theorem childrenByDigit_map (mask : Mask) (f : Nibble → Bytes) (ds : List Nibble) :
    childrenByDigit mask ds ((ds.filter mask.has).map f) =
      some (ds.map fun d => if mask.has d then some (f d) else none) := by
  induction ds with
  | nil => rfl
  | cons d ds ih =>
    by_cases hd : mask.has d = true
    · simp [childrenByDigit, hd, ih]
    · simp [childrenByDigit, hd, ih]

private theorem length_children (child : Nibble → Option Bytes) (ds : List Nibble) :
    1 + ((ds.map child).map fun c => (c.map List.length).getD 1).sum =
      (((ds.map child).map fun c => c.getD [byte kEmptyStringCode]).flatten ++
        [byte kEmptyStringCode]).length := by
  induction ds with
  | nil => rfl
  | cons d ds ih =>
    simp only [List.map_cons, List.sum_cons, List.flatten_cons, List.length_append,
      List.length_singleton] at ih ⊢
    have hd : ((child d).map List.length).getD 1 =
        ((child d).getD [byte kEmptyStringCode]).length := by
      cases child d <;> rfl
    rw [hd]
    omega

private theorem branchRlp_eq (child : Nibble → Option Bytes) :
    encodeHeader ⟨true,
        1 + (((List.finRange 16).map child).map fun c => (c.map List.length).getD 1).sum⟩ ++
      (((List.finRange 16).map child).map fun c => c.getD [byte kEmptyStringCode]).flatten ++
      [byte kEmptyStringCode] = branchNode child := by
  have hempty : encodeBytes [] = [byte kEmptyStringCode] := rfl
  rw [length_children, branchNode, encodeList, hempty, List.map_map, List.append_assoc]
  rfl

theorem isSubset_iff {sub sup : Mask} :
    isSubset sub sup = true ↔ ∀ d, sub.has d = true → sup.has d = true := by
  have hand (d : Nibble) : (sub &&& sup).has d = (sub.has d && sup.has d) := by
    rw [has_eq_getLsbD, has_eq_getLsbD, has_eq_getLsbD, BitVec.getLsbD_and]
  rw [isSubset, decide_eq_true_eq]
  constructor
  · intro h d hd
    have := hand d
    rw [h, hd] at this
    simpa using this.symm
  · intro h
    apply BitVec.eq_of_getLsbD_eq
    intro i hi
    have hi' := hand ⟨i, hi⟩
    rw [has_eq_getLsbD, has_eq_getLsbD] at hi'
    rw [hi']
    by_cases hsub : sub.getLsbD i = true
    · have := h ⟨i, hi⟩ (by rw [has_eq_getLsbD]; exact hsub)
      rw [hsub, this]
      rfl
    · rw [Bool.eq_false_iff.mpr hsub]
      rfl

private theorem selected_children {mask hashMask : Mask} (hsub : isSubset hashMask mask = true)
    (f : Nibble → Bytes) (ds : List Nibble) :
    ((ds.zip (ds.map fun d => if mask.has d then some (f d) else none)).filterMap
      fun c => if hashMask.has c.1 then c.2 else none) = (ds.filter hashMask.has).map f := by
  induction ds with
  | nil => rfl
  | cons d ds ih =>
    rw [List.map_cons, List.zip_cons_cons]
    by_cases hd : hashMask.has d = true
    · simp [hd, isSubset_iff.mp hsub d hd, ih]
    · simp [hd, ih]

/-- With one reference for each digit of the mask on the stack, `branch_ref` leaves the
reference of the branch with these children and returns those of the hash mask. -/
theorem branchRef_eq_of_isSubset {mask hashMask : Mask} (hsub : isSubset hashMask mask = true)
    (f : Nibble → Bytes) (rest : List Bytes) :
    branchRef keccak mask hashMask ((mask.digits.map f).reverse ++ rest) =
      some (hashMask.digits.map f, reference keccak
        (branchNode fun d => if mask.has d then some (f d) else none) :: rest) := by
  have hcount : ((mask.digits.map f).reverse).length = mask.count := by simp [Mask.count]
  have htake : (((mask.digits.map f).reverse ++ rest).take mask.count).reverse =
      ((List.finRange 16).filter mask.has).map f := by
    rw [← hcount, List.take_left, List.reverse_reverse]
    rfl
  have hdrop : ((mask.digits.map f).reverse ++ rest).drop mask.count = rest := by
    rw [← hcount, List.drop_left]
  have hlt : ¬((mask.digits.map f).reverse ++ rest).length < mask.count := by
    rw [List.length_append, hcount]
    omega
  simp only [branchRef, hsub, Bool.not_true, Bool.false_eq_true, ↓reduceIte, hlt, htake, hdrop,
    childrenByDigit_map, Option.bind_eq_bind, Option.bind_some, nodeRef_eq_reference,
    branchRlp_eq, selected_children hsub]
  rfl

/-- Without a hash mask no reference is returned. -/
theorem branchRef_eq {mask : Mask} {f : Nibble → Bytes} {rest : List Bytes} :
    branchRef keccak mask 0 ((mask.digits.map f).reverse ++ rest) =
      some ([], reference keccak
        (branchNode fun d => if mask.has d then some (f d) else none) :: rest) := by
  have hsub : isSubset 0 mask = true := by simp [isSubset]
  have hnil : Mask.digits 0 = [] := by
    rw [Mask.digits, List.filter_eq_nil_iff]
    intro d _
    rw [has_zero]
    simp
  rw [branchRef_eq_of_isSubset hsub, hnil, List.map_nil]

end References

end Silkworm.Trie
