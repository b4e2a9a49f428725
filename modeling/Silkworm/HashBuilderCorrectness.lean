import Silkworm.HashBuilderSpine
import Mathlib.Data.List.GetD

/-!
# The hash builder computes the root of the trie

The bitmaps of the builder are the siblings of the current path and its stack is the spine.
Each round of the step loop keeps this for a shorter path, until the path of the next key is
reached or the root node is finished.
-/

namespace Silkworm.Trie
open EntriesUnderPrefix Rlp

section Vectors

variable (masks : List Mask)

private theorem getD_nil (l : ℕ) : ([] : List Mask).getD l 0 = 0 := by simp

theorem length_resize (n : ℕ) : (resize masks n).length = n := by
  simp only [resize, List.length_append, List.length_take, List.length_replicate]
  omega

theorem length_growTo (n : ℕ) : (growTo masks n).length = max masks.length n := by
  unfold growTo
  split_ifs with h
  · rw [length_resize]
    omega
  · omega

theorem getD_resize {n l : ℕ} (hl : l < n) : (resize masks n).getD l 0 = masks.getD l 0 := by
  simp only [resize, List.getD_eq_getElem?_getD]
  by_cases h : l < masks.length
  · rw [List.getElem?_append_left (by rw [List.length_take]; omega), List.getElem?_take_of_lt hl]
  · rw [List.getElem?_append_right (by rw [List.length_take]; omega),
      List.getElem?_eq_none (l := masks) (by omega)]
    simp only [List.getElem?_replicate]
    split_ifs <;> rfl

theorem getD_growTo (n l : ℕ) : (growTo masks n).getD l 0 = masks.getD l 0 := by
  unfold growTo
  split_ifs with h
  · by_cases hl : l < n
    · exact getD_resize masks hl
    · rw [List.getD_eq_default _ _ (by rw [length_resize]; omega),
        List.getD_eq_default _ _ (by omega)]
  · rfl

theorem getD_setDigit {i : ℕ} (hi : i < masks.length) (d : Nibble) (l : ℕ) :
    (setDigit masks i d).getD l 0 = if l = i then masks.getD i 0 ||| bit d else masks.getD l 0 := by
  simp only [setDigit, List.getD_eq_getElem?_getD, List.getElem?_modify]
  by_cases h : l = i
  · subst h
    simp [hi]
  · have h' : i ≠ l := fun h' => h h'.symm
    simp [h, h']

theorem getD_popZeros (l : ℕ) : (popZeros masks).getD l 0 = masks.getD l 0 := by
  induction masks using List.reverseRecOn with
  | nil => rfl
  | append_singleton masks m ih =>
    rw [popZeros, List.rdropWhile_concat]
    split_ifs with hm
    · rw [← popZeros, ih]
      simp only [decide_eq_true_eq] at hm
      simp only [List.getD_eq_getElem?_getD, List.getElem?_append, hm]
      split_ifs with hl
      · rfl
      · rw [List.getElem?_eq_none (by omega)]
        cases l - masks.length <;> rfl
    · rfl

theorem length_popZeros_le : (popZeros masks).length ≤ masks.length :=
  (List.rdropWhile_prefix _ _).length_le

theorem popZeros_trimmed (h : popZeros masks ≠ []) :
    (popZeros masks).getD ((popZeros masks).length - 1) 0 ≠ 0 := by
  have hlast : ¬decide ((popZeros masks).getLast h = 0) = true :=
    List.rdropWhile_last_not (fun m : Mask => decide (m = 0)) masks h
  rw [decide_eq_true_eq, List.getLast_eq_getElem] at hlast
  rw [List.getD_eq_getElem _ _ (Nat.sub_lt (List.length_pos_of_ne_nil h) one_pos)]
  exact hlast

end Vectors

/-- The bitmaps above level `n` are those of the siblings, without empty ones at the end. -/
structure Groups (prev : List Entry) (cur : List Nibble) (n : ℕ) (groups : List Mask) : Prop where
  has_iff : ∀ l < n, ∀ d, (groups.getD l 0).has d = true ↔ d ∈ siblings prev cur l
  length_le : groups.length ≤ n
  trimmed : groups ≠ [] → groups.getD (groups.length - 1) 0 ≠ 0

section Groups

variable {prev : List Entry} {cur : List Nibble} {n : ℕ} {groups : List Mask}

theorem Groups.siblings_eq_nil (h : Groups prev cur n groups) {l : ℕ} (hl : groups.length ≤ l)
    (hn : l < n) : siblings prev cur l = [] := by
  rw [List.eq_nil_iff_forall_not_mem]
  intro d hd
  have := (h.has_iff l hn d).mpr hd
  rw [List.getD_eq_default _ _ hl, has_zero] at this
  exact absurd this (by simp)

theorem Groups.siblings_ne_nil (h : Groups prev cur n groups) {m : ℕ}
    (hm : groups.length = m + 1) : siblings prev cur m ≠ [] := by
  have htrim := h.trimmed (by intro h0; simp [h0] at hm)
  rw [hm, Nat.add_sub_cancel] at htrim
  have hlen := h.length_le
  intro hs
  apply htrim
  rw [mask_eq_zero_iff]
  intro d
  rw [Bool.eq_false_iff, ne_eq, h.has_iff m (by omega), hs]
  exact List.not_mem_nil

/-- The groups of the shorter path after a group has been closed. -/
theorem Groups.pop (h : Groups prev cur n groups) {m : ℕ} (hm : m ≤ n) {groups' : List Mask}
    (hg : ∀ l < m, groups'.getD l 0 = groups.getD l 0) (hlen : groups'.length = m) :
    Groups prev cur m (popZeros groups') where
  has_iff l hl d := by rw [getD_popZeros, hg l hl, h.has_iff l (by omega)]
  length_le := hlen ▸ length_popZeros_le groups'
  trimmed := popZeros_trimmed groups'

end Groups

theorem prefixLength_append (p : List Nibble) {x y : Nibble} (hxy : x ≠ y) (s t : List Nibble) :
    prefixLength (p ++ x :: s) (p ++ y :: t) = p.length := by
  induction p with
  | nil => simp [prefixLength, hxy]
  | cons c p ih => simp [prefixLength, ih]

/-- Without a collector the hash masks stay empty. -/
structure Idle (hb : HashBuilder) : Prop where
  nodeCollector : hb.nodeCollector = false
  length_eq : hb.treeMasks.length = hb.hashMasks.length
  hashMasks : ∀ m ∈ hb.hashMasks, m = 0

section Masks

variable {hb : HashBuilder}

private theorem mem_resize {masks : List Mask} (h : ∀ m ∈ masks, m = 0) (n : ℕ) :
    ∀ m ∈ resize masks n, m = 0 := by
  intro m hm
  rcases List.mem_append.mp hm with hm | hm
  · exact h m (List.mem_of_mem_take hm)
  · exact List.eq_of_mem_replicate hm

theorem Idle.grow (h : Idle hb) (n : ℕ) : Idle (growMasks hb n) := by
  unfold growMasks
  split_ifs
  · exact ⟨h.nodeCollector, by simp only [length_resize], mem_resize h.hashMasks n⟩
  · exact h

theorem Idle.trunc (h : Idle hb) (n : ℕ) : Idle (truncate hb n) :=
  ⟨h.nodeCollector, by simp only [truncate, length_resize], mem_resize h.hashMasks n⟩

theorem Idle.update (h : Idle hb) (groups : List Mask) (stack : List Bytes) :
    Idle { hb with groups, stack } := ⟨h.nodeCollector, h.length_eq, h.hashMasks⟩

theorem growMasks_with (hb : HashBuilder) (n : ℕ) :
    (growMasks hb n).groups = hb.groups ∧ (growMasks hb n).stack = hb.stack := by
  unfold growMasks
  split_ifs <;> exact ⟨rfl, rfl⟩

theorem Idle.hashMask_growMasks (h : Idle hb) {n l : ℕ} (hl : l < n) :
    (growMasks hb n).hashMasks[l]? = some 0 := by
  have hlen : l < (growMasks hb n).hashMasks.length := by
    unfold growMasks
    split_ifs with hn
    · rw [length_resize]
      exact hl
    · have := h.length_eq
      omega
  rw [List.getElem?_eq_getElem hlen, (h.grow n).hashMasks _ (List.getElem_mem hlen)]

variable {keccak : Bytes → Bytes32}

theorem closeGroup_eq (h : Idle hb) {curr : List Nibble} {len : ℕ} {mask : Mask}
    (hm : hb.groups[len]? = some mask) (hh : hb.hashMasks[len]? = some 0) {f : Nibble → Bytes}
    {rest : List Bytes} (hs : hb.stack = (mask.digits.map f).reverse ++ rest) :
    closeGroup keccak curr len hb = some { hb with
      stack := reference keccak (branchNode fun d => if mask.has d then some (f d) else none) ::
        rest } := by
  simp only [closeGroup, hm, hh, hs, branchRef_eq, h.nodeCollector, Option.bind_eq_bind,
    Option.bind_some, Bool.not_false, ↓reduceIte]

end Masks

section Rounds

variable {keccak : Bytes → Bytes32} {curr succ : List Nibble} {value : Bytes} {build : Bool}
  {hb : HashBuilder} {stack : List Bytes}

/-- A round that ends the loop at the prefix shared with the next key. -/
theorem genStructStep_return {len : ℕ} {x : Nibble} (hlen : prefixLength succ curr = len)
    (hx : curr[len]? = some x) (hg : hb.groups.length ≤ len + 1) (hsucc : succ ≠ [])
    (hpush : pushNode keccak build (curr.drop (len + 1)) value hb.stack = some stack) :
    genStructStep keccak curr succ value build hb = some { growMasks hb curr.length with
      groups := setDigit (growTo hb.groups (len + 1)) len x, stack } := by
  obtain ⟨hl, rfl⟩ := List.getElem?_eq_some_iff.mp hx
  have hmax : max (hb.groups.length - 1) len = len := by omega
  have hprec : hb.groups.length - 1 ≤ len := by omega
  rw [genStructStep]
  simp only [hlen, hmax, hl, ↓reduceDIte, hsucc, ne_eq, not_false_eq_true, true_or, ↓reduceIte,
    (growMasks_with hb curr.length).2, hpush, Option.bind_eq_bind, Option.bind_some, hprec,
    and_self]

/-- A round that closes the deepest open group. -/
theorem genStructStep_close_bind {m : ℕ} {x : Nibble} (hm : hb.groups.length = m + 1)
    (hx : curr[m]? = some x) (hsucc : succ = [] ∨ prefixLength succ curr < m)
    (hpush : pushNode keccak build (curr.drop (m + 1)) value hb.stack = some stack) :
    genStructStep keccak curr succ value build hb =
      (closeGroup keccak curr m { growMasks hb curr.length with
        groups := setDigit (growTo hb.groups (m + 1)) m x, stack }).bind fun hb' =>
      if m = 0 then some (truncate hb' m)
      else genStructStep keccak (curr.take m) succ value true
        { truncate hb' m with groups := popZeros (truncate hb' m).groups } := by
  obtain ⟨hl, rfl⟩ := List.getElem?_eq_some_iff.mp hx
  have hpre : prefixLength succ curr ≤ m := by
    rcases hsucc with rfl | h
    · simp [prefixLength]
    · exact h.le
  have hmax : max m (prefixLength succ curr) = m := by omega
  have hne : hb.groups ≠ [] := by
    intro h
    simp [h] at hm
  have hcont : ¬(m ≤ prefixLength succ curr ∧ ¬succ = []) := by
    rintro ⟨h, hs⟩
    rcases hsucc with hs' | h'
    · exact hs hs'
    · omega
  rw [genStructStep]
  simp only [hm, Nat.add_sub_cancel, hmax, hl, ↓reduceDIte, ne_eq, hne, not_false_eq_true, or_true,
    ↓reduceIte, (growMasks_with hb curr.length).2, hpush, Option.bind_eq_bind, Option.bind_some,
    hcont]

theorem genStructStep_close {m : ℕ} {x : Nibble} (hm : hb.groups.length = m + 1)
    (hx : curr[m]? = some x) (hsucc : succ = [] ∨ prefixLength succ curr < m)
    (hpush : pushNode keccak build (curr.drop (m + 1)) value hb.stack = some stack)
    {hb' : HashBuilder}
    (hclose : closeGroup keccak curr m { growMasks hb curr.length with
      groups := setDigit (growTo hb.groups (m + 1)) m x, stack } = some hb') :
    genStructStep keccak curr succ value build hb =
      if m = 0 then some (truncate hb' m)
      else genStructStep keccak (curr.take m) succ value true
        { truncate hb' m with groups := popZeros (truncate hb' m).groups } := by
  rw [genStructStep_close_bind hm hx hsucc hpush, hclose, Option.bind_some]

/-- The last round when no group is open: the remainder of the key is the root node. -/
theorem genStructStep_root {x : Nibble} (hg : hb.groups = []) (hx : curr[0]? = some x)
    (hpush : pushNode keccak build curr value hb.stack = some stack) :
    genStructStep keccak curr [] value build hb = some (truncate { growMasks hb curr.length with
      groups := setDigit (growTo hb.groups 1) 0 x, stack } 0) := by
  obtain ⟨hl, rfl⟩ := List.getElem?_eq_some_iff.mp hx
  rw [genStructStep]
  simp only [hg, prefixLength, List.length_nil, Nat.zero_sub, Nat.max_self, hl, ↓reduceDIte, ne_eq,
    not_true_eq_false, or_self, ↓reduceIte, List.drop_zero, (growMasks_with hb curr.length).2, hpush,
    Option.bind_eq_bind, Option.bind_some, and_false]

end Rounds

section Loop

variable (keccak : Bytes → Bytes32) (prev : List Entry) (cur : List Nibble) (val : Bytes)

/-- The state at the start of a round whose path is the first `n` digits of the current key.
In later rounds a finished branch is on top of the spine. -/
structure OpenAt (n : ℕ) (build : Bool) (hb : HashBuilder) : Prop where
  groups : Groups prev cur n hb.groups
  idle : Idle hb
  le : n ≤ cur.length
  first : build = false → n = cur.length ∧ hb.stack = spine keccak prev cur n
  later : build = true → Branches (along prev cur val n) ∧
    hb.stack = reference keccak (trieNode keccak (along prev cur val n)) :: spine keccak prev cur n

variable {keccak prev cur val} {n : ℕ} {build : Bool} {hb : HashBuilder}

theorem spine_eq_of_no_siblings {k : ℕ} (hkn : k ≤ n)
    (hs : ∀ l, k ≤ l → l < n → siblings prev cur l = []) :
    spine keccak prev cur n = spine keccak prev cur k := by
  induction n, hkn using Nat.le_induction with
  | base => rfl
  | succ n hkn ih =>
    rw [spine, siblingRefs, hs n hkn (by omega), ih fun l h h' => hs l h (by omega)]
    rfl

section Round

variable (hprev : ∀ e ∈ prev, Before e.1 cur) (h : OpenAt keccak prev cur val n build hb)

include hprev h

/-- After the push the node at level `k` is on top of the spine. -/
theorem OpenAt.pushNode_eq {k : ℕ} (hk : hb.groups.length ≤ k) (hkn : k ≤ n) :
    pushNode keccak build ((cur.take n).drop k) val hb.stack =
      some (reference keccak (trieNode keccak (along prev cur val k)) ::
        spine keccak prev cur k) := by
  have hs (l : ℕ) (hl : k ≤ l) (hn : l < n) : siblings prev cur l = [] :=
    h.groups.siblings_eq_nil (hk.trans hl) hn
  cases build with
  | false =>
    obtain ⟨rfl, hstack⟩ := h.first rfl
    rw [trieNode_leaf hprev hkn hs, ← spine_eq_of_no_siblings hkn hs, hstack]
    simp only [pushNode, Bool.not_false, ↓reduceIte, nodeRef_eq_reference, leafNodeRlp_eq,
      List.take_length]
  | true =>
    obtain ⟨hb', hstack⟩ := h.later rfl
    have hlen : ((cur.take n).drop k).length = n - k := by
      rw [List.length_drop, List.length_take, Nat.min_eq_left h.le]
    rcases Nat.eq_or_lt_of_le hkn with rfl | hlt
    · have hnil : (cur.take k).drop k = [] := List.eq_nil_of_length_eq_zero (by omega)
      simp only [pushNode, Bool.not_true, Bool.false_eq_true, ↓reduceIte, hnil, ne_eq,
        not_true_eq_false, hstack]
    · have hne : (cur.take n).drop k ≠ [] := by
        intro h0
        rw [h0, List.length_nil] at hlen
        omega
      rw [trieNode_along_extension hprev hlt h.le hs hb', ← spine_eq_of_no_siblings hkn hs, hstack]
      simp only [pushNode, Bool.not_true, Bool.false_eq_true, ↓reduceIte, hne, ne_eq,
        not_false_eq_true, nodeRef_eq_reference, extensionNodeRlp_eq]

/-- The bitmap of the group at level `m` when it is closed, and the references of its
children. -/
theorem OpenAt.exists_group {m : ℕ} {x : Nibble} (hm : hb.groups.length = m + 1)
    (hx : cur[m]? = some x) :
    ∃ mask : Mask, (setDigit (growTo hb.groups (m + 1)) m x)[m]? = some mask ∧
      (∀ d, mask.has d = true ↔ d ∈ siblings prev cur m ∨ d = x) ∧
      reference keccak (trieNode keccak (along prev cur val (m + 1))) ::
          spine keccak prev cur (m + 1) =
        (mask.digits.map fun d => reference keccak (trieNode keccak
          (under (prev ++ [(cur, val)]) (cur.take m ++ [d])))).reverse ++ spine keccak prev cur m := by
  have hlen := h.groups.length_le
  have hgrow : m < (growTo hb.groups (m + 1)).length := by
    rw [length_growTo]
    omega
  have hset : m < (setDigit (growTo hb.groups (m + 1)) m x).length := by
    rw [setDigit, List.length_modify]
    exact hgrow
  have hget := getD_setDigit _ hgrow x m
  rw [if_pos rfl, getD_growTo] at hget
  have hhas (d : Nibble) :
      (hb.groups.getD m 0 ||| bit x).has d = true ↔ d ∈ siblings prev cur m ∨ d = x := by
    rw [has_or_bit, Bool.or_eq_true, h.groups.has_iff m (by omega), decide_eq_true_eq]
  refine ⟨hb.groups.getD m 0 ||| bit x, ?_, hhas, ?_⟩
  · rw [List.getElem?_eq_getElem hset, ← hget, List.getD_eq_getElem _ _ hset]
  · rw [Mask.digits, digits_siblings_append hprev hx hhas, List.map_append, List.reverse_append]
    have hrefs : (siblings prev cur m).map (fun d => reference keccak (trieNode keccak
        (under (prev ++ [(cur, val)]) (cur.take m ++ [d])))) = siblingRefs keccak prev cur m := by
      apply List.map_congr_left
      intro d hd
      rw [under_sibling (mem_siblings.mp hd).1]
    rw [hrefs, along, take_succ_of_getElem? hx]
    rfl

/-- Closing the group at level `m` replaces its children by their branch. -/
theorem OpenAt.closeGroup_eq {m : ℕ} {x : Nibble} (hm : hb.groups.length = m + 1)
    (hx : cur[m]? = some x) :
    closeGroup keccak (cur.take n) m { growMasks hb (cur.take n).length with
      groups := setDigit (growTo hb.groups (m + 1)) m x
      stack := reference keccak (trieNode keccak (along prev cur val (m + 1))) ::
        spine keccak prev cur (m + 1) } =
    some { growMasks hb (cur.take n).length with
      groups := setDigit (growTo hb.groups (m + 1)) m x
      stack := reference keccak (trieNode keccak (along prev cur val m)) ::
        spine keccak prev cur m } := by
  have hlen := h.groups.length_le
  obtain ⟨mask, hmask, hhas, hstack⟩ := h.exists_group hprev hm hx
  rw [trieNode_along_branch hx (h.groups.siblings_ne_nil hm) hhas]
  refine Trie.closeGroup_eq ((h.idle.grow _).update _ _) hmask ?_ hstack
  refine h.idle.hashMask_growMasks ?_
  rw [List.length_take, Nat.min_eq_left h.le]
  omega

omit hprev in
/-- The state of the next round. -/
theorem OpenAt.next {m : ℕ} {x : Nibble} (hm : hb.groups.length = m + 1) (hx : cur[m]? = some x) :
    OpenAt keccak prev cur val m true
      (let hb' := truncate { growMasks hb (cur.take n).length with
        groups := setDigit (growTo hb.groups (m + 1)) m x
        stack := reference keccak (trieNode keccak (along prev cur val m)) ::
          spine keccak prev cur m } m
      { hb' with groups := popZeros hb'.groups }) where
  groups := by
    have hlen := h.groups.length_le
    have hgrow : m < (growTo hb.groups (m + 1)).length := by
      rw [length_growTo]
      omega
    refine h.groups.pop (by omega) (fun l hl => ?_) (length_resize _ _)
    rw [truncate, getD_resize _ hl, getD_setDigit _ hgrow, if_neg (by omega), getD_growTo]
  idle := by
    have := ((h.idle.grow (cur.take n).length).update
      (setDigit (growTo hb.groups (m + 1)) m x)
      (reference keccak (trieNode keccak (along prev cur val m)) :: spine keccak prev cur m)).trunc m
    exact ⟨this.nodeCollector, this.length_eq, this.hashMasks⟩
  le := by
    have := h.groups.length_le
    have := h.le
    omega
  first h0 := absurd h0 (by simp)
  later _ := ⟨branches_along val hx (h.groups.siblings_ne_nil hm), rfl⟩

end Round

/-- The digits of the path that a round reads are those of the key. -/
private theorem getElem?_path {l : ℕ} {x : Nibble} (hl : l < n) (hx : cur[l]? = some x) :
    (cur.take n)[l]? = some x := by
  rw [List.getElem?_take_of_lt hl, hx]

section Successor

variable {p a b : List Nibble} {x y : Nibble}

theorem prefixLength_path (hxy : x < y) (hn : p.length < n) :
    prefixLength (p ++ y :: b) ((p ++ x :: a).take n) = p.length := by
  obtain ⟨k, rfl⟩ : ∃ k, n = p.length + (k + 1) := ⟨n - p.length - 1, by omega⟩
  rw [List.take_append, List.take_of_length_le (by omega), Nat.add_sub_cancel_left,
    List.take_succ_cons]
  exact prefixLength_append p hxy.ne' _ _

/-- The state that the loop leaves for the next key. -/
theorem OpenAt.succ (hprev : ∀ e ∈ prev, Before e.1 (p ++ x :: a)) (hxy : x < y)
    (h : OpenAt keccak prev (p ++ x :: a) val n build hb) (hn : p.length < n)
    (hg : hb.groups.length ≤ p.length + 1) (val' : Bytes) (m : ℕ) :
    OpenAt keccak (prev ++ [(p ++ x :: a, val)]) (p ++ y :: b) val' (p ++ y :: b).length false
      { growMasks hb m with
        groups := setDigit (growTo hb.groups (p.length + 1)) p.length x
        stack := reference keccak (trieNode keccak (along prev (p ++ x :: a) val (p.length + 1))) ::
          spine keccak prev (p ++ x :: a) (p.length + 1) } where
  groups := by
    have hgrow : (growTo hb.groups (p.length + 1)).length = p.length + 1 := by
      rw [length_growTo]
      omega
    have hget (l : ℕ) := getD_setDigit (growTo hb.groups (p.length + 1)) (i := p.length)
      (by omega) x l
    have hlast : (setDigit (growTo hb.groups (p.length + 1)) p.length x).length = p.length + 1 := by
      rw [setDigit, List.length_modify, hgrow]
    refine ⟨fun l hl d => ?_, ?_, fun _ => ?_⟩
    · rw [hget, getD_growTo, getD_growTo]
      rcases Nat.lt_trichotomy l p.length with hlt | rfl | hgt
      · rw [if_neg hlt.ne, siblings_succ_of_lt hlt, h.groups.has_iff l (by omega)]
      · rw [if_pos rfl, siblings_succ_at hprev hxy, has_or_bit, Bool.or_eq_true,
          h.groups.has_iff _ hn, decide_eq_true_eq, List.mem_append, List.mem_singleton]
      · rw [if_neg hgt.ne', siblings_succ_of_gt hprev hxy hgt, List.getD_eq_default _ _ (by omega),
          has_zero]
        simp
    · rw [hlast]
      simp
    · rw [hlast, Nat.add_sub_cancel, hget, if_pos rfl]
      intro h0
      have := mask_eq_zero_iff.mp h0 x
      rw [has_or_bit] at this
      simp at this
  idle := (h.idle.grow m).update _ _
  le := le_rfl
  first _ := ⟨rfl, (spine_succ hprev hxy).symm⟩
  later h0 := absurd h0 (by simp)

/-- The loop between two keys. The induction is on the length of the path, which goes down
to the level of the group that was closed. -/
theorem genStructStep_succ (hprev : ∀ e ∈ prev, Before e.1 (p ++ x :: a)) (hxy : x < y)
    (val' : Bytes) (h : OpenAt keccak prev (p ++ x :: a) val n build hb) (hn : p.length < n) :
    ∃ hb', genStructStep keccak ((p ++ x :: a).take n) (p ++ y :: b) val build hb = some hb' ∧
      OpenAt keccak (prev ++ [(p ++ x :: a, val)]) (p ++ y :: b) val' (p ++ y :: b).length false
        hb' := by
  induction n using Nat.strong_induction_on generalizing build hb with
  | _ n ih =>
    have hlen := h.groups.length_le
    have hpre := prefixLength_path (a := a) (b := b) hxy hn
    by_cases hg : hb.groups.length ≤ p.length + 1
    · have hx : ((p ++ x :: a).take n)[p.length]? = some x := getElem?_path hn (by simp)
      exact ⟨_, genStructStep_return hpre hx hg (by simp) (h.pushNode_eq hprev hg hn),
        h.succ hprev hxy hn hg val' _⟩
    · obtain ⟨m, hm⟩ : ∃ m, hb.groups.length = m + 1 := ⟨hb.groups.length - 1, by omega⟩
      have hmlt : m < (p ++ x :: a).length := lt_of_lt_of_le (by omega) h.le
      have hx : (p ++ x :: a)[m]? = some (p ++ x :: a)[m] := List.getElem?_eq_getElem hmlt
      rw [genStructStep_close hm (getElem?_path (by omega) hx) (.inr (by omega))
        (h.pushNode_eq hprev hm.le (by omega)) (h.closeGroup_eq hprev hm hx), if_neg (by omega),
        List.take_take, Nat.min_eq_left (by omega)]
      exact ih m (by omega) (h.next hm hx) (by omega)

end Successor

/-- The loop at the end finishes the root node. -/
theorem genStructStep_last (hprev : ∀ e ∈ prev, Before e.1 cur)
    (h : OpenAt keccak prev cur val n build hb) (hn : 0 < n) :
    ∃ hb', genStructStep keccak (cur.take n) [] val build hb = some hb' ∧
      hb'.stack = [reference keccak (trieNode keccak (prev ++ [(cur, val)]))] := by
  have hroot : along prev cur val 0 = prev ++ [(cur, val)] := by simp [along]
  induction n using Nat.strong_induction_on generalizing build hb with
  | _ n ih =>
    have hlen := h.groups.length_le
    have hget {m : ℕ} (hm : m < n) : cur[m]? = some (cur.get ⟨m, hm.trans_le h.le⟩) :=
      List.getElem?_eq_getElem _
    cases hg : hb.groups.length with
    | zero =>
      have hpush := h.pushNode_eq hprev hg.le hn.le
      rw [List.drop_zero, hroot] at hpush
      exact ⟨_, genStructStep_root (List.eq_nil_of_length_eq_zero hg)
        (getElem?_path hn (hget hn)) hpush, rfl⟩
    | succ m =>
      rw [genStructStep_close hg (getElem?_path (by omega) (hget (m := m) (by omega))) (.inl rfl)
        (h.pushNode_eq hprev hg.le (by omega)) (h.closeGroup_eq hprev hg (hget (by omega))),
        List.take_take, Nat.min_eq_left (by omega)]
      split_ifs with h0
      · subst h0
        exact ⟨_, rfl, by rw [← hroot]; rfl⟩
      · exact ih m (by omega) (h.next hg (hget (by omega))) (by omega)

end Loop

end Silkworm.Trie
