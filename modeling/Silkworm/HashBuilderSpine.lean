import Silkworm.HashBuilderNodes
import Mathlib.Data.List.Sort

/-!
# The open spine of the trie

Between two steps of the builder the nodes along the path of the current key are open. Left
of the path, at each level, hang the finished nodes of the earlier keys. Keys are compared
at the first digit in which they differ.
-/

namespace Silkworm.Trie
open EntriesUnderPrefix Rlp

/-- The keys part at some digit, where the first key has the smaller one. In particular none
is a prefix of the other. -/
def Before (a b : List Nibble) : Prop :=
  ∃ p x y s t, a = p ++ x :: s ∧ b = p ++ y :: t ∧ x < y

theorem Before.not_initial {a b : List Nibble} (h : Before a b) : ¬a <+: b := by
  obtain ⟨p, x, y, s, t, rfl, rfl, hxy⟩ := h
  rw [List.prefix_append_right_inj, List.cons_prefix_cons]
  exact fun h => hxy.ne h.1

theorem Before.not_initial' {a b : List Nibble} (h : Before a b) : ¬b <+: a := by
  obtain ⟨p, x, y, s, t, rfl, rfl, hxy⟩ := h
  rw [List.prefix_append_right_inj, List.cons_prefix_cons]
  exact fun h => hxy.ne h.1.symm

theorem Before.lt_of_append {p s t : List Nibble} {x y : Nibble}
    (h : Before (p ++ x :: s) (p ++ y :: t)) (hxy : x ≠ y) : x < y := by
  obtain ⟨q, a, b, u, v, ha, hb, hab⟩ := h
  induction p generalizing q with
  | nil =>
    cases q with
    | nil =>
      simp only [List.nil_append, List.cons.injEq] at ha hb
      rw [ha.1, hb.1]
      exact hab
    | cons c q =>
      simp only [List.nil_append, List.cons_append, List.cons.injEq] at ha hb
      exact absurd (ha.1.trans hb.1.symm) hxy
  | cons c p ih =>
    cases q with
    | nil =>
      simp only [List.nil_append, List.cons_append, List.cons.injEq] at ha hb
      exact absurd (ha.1.symm.trans hb.1) hab.ne
    | cons d q =>
      simp only [List.cons_append, List.cons.injEq] at ha hb
      exact ih q ha.2 hb.2

/-- The digits left of the path at level `l` below which there are earlier keys. -/
def siblings (prev : List Entry) (cur : List Nibble) (l : ℕ) : List Nibble :=
  (List.finRange 16).filter fun d => cur[l]? ≠ some d ∧ under prev (cur.take l ++ [d]) ≠ []

theorem mem_siblings {prev : List Entry} {cur : List Nibble} {l : ℕ} {d : Nibble} :
    d ∈ siblings prev cur l ↔ cur[l]? ≠ some d ∧ under prev (cur.take l ++ [d]) ≠ [] := by
  simp [siblings]

section Spine

variable (keccak : Bytes → Bytes32)

def siblingRefs (prev : List Entry) (cur : List Nibble) (l : ℕ) : List Bytes :=
  (siblings prev cur l).map fun d =>
    reference keccak (trieNode keccak (under prev (cur.take l ++ [d])))

/-- The references of the finished nodes above level `n`, the deepest first. -/
def spine (prev : List Entry) (cur : List Nibble) : ℕ → List Bytes
  | 0 => []
  | l + 1 => (siblingRefs keccak prev cur l).reverse ++ spine prev cur l

variable {keccak} {prev : List Entry} {cur : List Nibble} {val : Bytes}

/-- The entries up to the current key, below the first `l` digits of that key. -/
def along (prev : List Entry) (cur : List Nibble) (val : Bytes) (l : ℕ) : List Entry :=
  under (prev ++ [(cur, val)]) (cur.take l)

variable (prev cur val) in
theorem along_eq (l : ℕ) :
    along prev cur val l = under prev (cur.take l) ++ [(cur.drop l, val)] := by
  rw [along, under_append, under_singleton, if_pos (List.take_prefix l cur), List.length_take]
  rcases Nat.le_total l cur.length with h | h
  · rw [Nat.min_eq_left h]
  · rw [Nat.min_eq_right h, List.drop_length, List.drop_of_length_le h]

theorem take_succ_of_getElem? {l : ℕ} {x : Nibble} (hx : cur[l]? = some x) :
    cur.take (l + 1) = cur.take l ++ [x] := by
  rw [List.take_add_one, hx]
  rfl

theorem drop_of_getElem? {l : ℕ} {x : Nibble} (hx : cur[l]? = some x) :
    cur.drop l = x :: cur.drop (l + 1) := by
  obtain ⟨hl, rfl⟩ := List.getElem?_eq_some_iff.mp hx
  exact List.drop_eq_getElem_cons hl

theorem under_sibling {l : ℕ} {d : Nibble} (hd : cur[l]? ≠ some d) :
    under (prev ++ [(cur, val)]) (cur.take l ++ [d]) = under prev (cur.take l ++ [d]) := by
  rw [under_append, under_singleton, if_neg, List.append_nil]
  rintro ⟨t, ht⟩
  have hlen := congrArg List.length ht
  have hget := congrArg (·[l]?) ht
  simp only [List.length_append, List.length_take, List.length_singleton] at hlen
  apply hd
  rw [← hget, List.append_assoc, List.getElem?_append_right (by simp)]
  rw [List.length_take, Nat.min_eq_left (by omega), Nat.sub_self]
  rfl

/-- A level with siblings has a branch. -/
structure Branches (J : List Entry) : Prop where
  two_le : 2 ≤ J.length
  commonPrefix : commonPrefix J = []

variable (val) in
theorem branches_along {l : ℕ} {x : Nibble} (hx : cur[l]? = some x)
    (hs : siblings prev cur l ≠ []) : Branches (along prev cur val l) := by
  obtain ⟨d, hd⟩ := List.exists_mem_of_ne_nil _ hs
  obtain ⟨hne, hd⟩ := mem_siblings.mp hd
  obtain ⟨⟨t, v⟩, hm⟩ := List.exists_mem_of_ne_nil _ hd
  have hmem : (d :: t, v) ∈ under prev (cur.take l) := by
    rw [mem_under]
    have := mem_under.mp hm
    rwa [List.append_assoc] at this
  constructor
  · rw [along_eq, List.length_append, List.length_singleton]
    have := List.length_pos_of_mem hmem
    omega
  · rw [along_eq]
    have h1 := commonPrefix_prefix (List.mem_append_left [(cur.drop l, val)] hmem)
    have h2 := commonPrefix_prefix
      (List.mem_append_right (under prev (cur.take l)) (List.mem_singleton_self (cur.drop l, val)))
    rw [drop_of_getElem? hx] at h1 h2
    cases hp : commonPrefix (under prev (cur.take l) ++ [(x :: cur.drop (l + 1), val)]) with
    | nil => rw [drop_of_getElem? hx, hp]
    | cons c p =>
      rw [hp, List.cons_prefix_cons] at h1 h2
      exact absurd (h2.1.symm.trans h1.1 ▸ hx) hne

/-- The children of the branch are those of the siblings and the one on the path. -/
theorem trieNode_along_branch {l : ℕ} {x : Nibble} (hx : cur[l]? = some x)
    (hs : siblings prev cur l ≠ []) {mask : Mask}
    (hmask : ∀ d, mask.has d = true ↔ d ∈ siblings prev cur l ∨ d = x) :
    trieNode keccak (along prev cur val l) = branchNode fun d =>
      if mask.has d then
        some (reference keccak (trieNode keccak (under (prev ++ [(cur, val)]) (cur.take l ++ [d]))))
      else none := by
  have hb := branches_along val hx hs
  rw [trieNode_branch hb.two_le hb.commonPrefix]
  congr 1
  funext d
  have hund : under (along prev cur val l) [d] =
      under (prev ++ [(cur, val)]) (cur.take l ++ [d]) := under_under ..
  have hnil : under (along prev cur val l) [d] = [] ↔ ¬mask.has d = true := by
    rw [hund, hmask]
    by_cases hd : d = x
    · subst hd
      rw [← take_succ_of_getElem? hx]
      have := along_eq prev cur val (l + 1)
      rw [along] at this
      simp [this]
    · have hne : cur[l]? ≠ some d := by
        rw [hx]
        exact fun h => hd (Option.some.inj h).symm
      rw [under_sibling hne, mem_siblings]
      simp [hd, hne]
  by_cases hd : mask.has d = true
  · rw [if_neg (by simp [hnil, hd]), if_pos hd, hund]
  · rw [if_pos (hnil.mpr hd), if_neg hd]

section Facts

variable (hprev : ∀ e ∈ prev, Before e.1 cur)

include hprev

theorem under_prev_eq_nil_of_prefix {k : List Nibble} (hk : cur <+: k) : under prev k = [] := by
  rw [List.eq_nil_iff_forall_not_mem]
  rintro ⟨t, v⟩ hm
  exact (hprev _ (mem_under.mp hm)).not_initial' (hk.trans (List.prefix_append k t))

/-- Sibling digits are smaller than the digit of the path. -/
theorem lt_of_mem_siblings {l : ℕ} {x d : Nibble} (hx : cur[l]? = some x)
    (hd : d ∈ siblings prev cur l) : d < x := by
  obtain ⟨hne, hd⟩ := mem_siblings.mp hd
  obtain ⟨⟨t, v⟩, hm⟩ := List.exists_mem_of_ne_nil _ hd
  have hb := hprev _ (mem_under.mp hm)
  have hcur : cur = cur.take l ++ x :: cur.drop (l + 1) := by
    rw [← drop_of_getElem? hx, List.take_append_drop]
  rw [List.append_assoc] at hb
  nth_rewrite 2 [hcur] at hb
  exact hb.lt_of_append fun h => hne (h ▸ hx)

theorem digits_siblings_append {l : ℕ} {x : Nibble} (hx : cur[l]? = some x) {p : Nibble → Bool}
    (hp : ∀ d, p d = true ↔ d ∈ siblings prev cur l ∨ d = x) :
    (List.finRange 16).filter p = siblings prev cur l ++ [x] := by
  have hsort {q : Nibble → Bool} : ((List.finRange 16).filter q).Pairwise (· < ·) :=
    (List.pairwise_lt_finRange 16).filter _
  have hsort' : (siblings prev cur l ++ [x]).Pairwise (· < ·) := by
    rw [List.pairwise_append]
    refine ⟨hsort, by simp, ?_⟩
    intro d hd y hy
    rw [List.mem_singleton.mp hy]
    exact lt_of_mem_siblings hprev hx hd
  refine List.Perm.eq_of_pairwise (fun a b _ _ h h' => absurd h' (lt_asymm h)) hsort hsort' ?_
  rw [List.perm_ext_iff_of_nodup (hsort.imp ne_of_lt) (hsort'.imp ne_of_lt)]
  intro d
  simp [hp]

/-- Without siblings a level adds the digit of the path to all keys. -/
theorem along_of_siblings_nil {l : ℕ} {x : Nibble} (hx : cur[l]? = some x)
    (hs : siblings prev cur l = []) :
    along prev cur val l = prepend [x] (along prev cur val (l + 1)) := by
  have hunder : under (along prev cur val l) [x] = along prev cur val (l + 1) := by
    rw [along, along, under_under, take_succ_of_getElem? hx]
  rw [← hunder, prepend_under]
  rintro ⟨k, v⟩ hm
  rw [along_eq, List.mem_append] at hm
  rcases hm with hm | hm
  · have hm' := mem_under.mp hm
    cases k with
    | nil =>
      rw [List.append_nil] at hm'
      exact absurd (List.take_prefix l cur) (hprev _ hm').not_initial
    | cons d k =>
      by_cases hd : d = x
      · rw [hd]
        simp
      · have hmem : d ∈ siblings prev cur l := by
          refine mem_siblings.mpr ⟨by rw [hx]; exact fun h => hd (Option.some.inj h).symm, ?_⟩
          refine List.ne_nil_of_mem (a := (k, v)) (mem_under.mpr ?_)
          rw [List.append_assoc]
          exact hm'
        rw [hs] at hmem
        exact absurd hmem List.not_mem_nil
  · rw [List.mem_singleton.mp hm, drop_of_getElem? hx]
    simp

theorem along_of_no_siblings {k n : ℕ} (hkn : k ≤ n) (hn : n ≤ cur.length)
    (hs : ∀ l, k ≤ l → l < n → siblings prev cur l = []) :
    along prev cur val k = prepend ((cur.take n).drop k) (along prev cur val n) := by
  induction n, hkn using Nat.le_induction with
  | base =>
    rw [List.drop_of_length_le (by simp)]
    simp [prepend]
  | succ n hkn ih =>
    have hx : cur[n]? = some cur[n] := List.getElem?_eq_getElem (by omega)
    rw [ih (by omega) fun l h h' => hs l h (by omega),
      along_of_siblings_nil hprev hx (hs n hkn (by omega)), take_succ_of_getElem? hx,
      List.drop_append_of_le_length (by rw [List.length_take]; omega)]
    simp [prepend]

/-- Below the last group of the current key there is only its own leaf. -/
theorem trieNode_leaf {k : ℕ} (hk : k ≤ cur.length)
    (hs : ∀ l, k ≤ l → l < cur.length → siblings prev cur l = []) :
    trieNode keccak (along prev cur val k) = leafNode (cur.drop k) val := by
  rw [along_of_no_siblings hprev hk le_rfl hs, along_eq, List.take_length,
    under_prev_eq_nil_of_prefix hprev List.prefix_rfl]
  simp [prepend, trieNode_singleton]

/-- Levels without siblings above a branch become one extension. -/
theorem trieNode_along_extension {k n : ℕ} (hkn : k < n) (hn : n ≤ cur.length)
    (hs : ∀ l, k ≤ l → l < n → siblings prev cur l = []) (hb : Branches (along prev cur val n)) :
    trieNode keccak (along prev cur val k) = extensionNode ((cur.take n).drop k)
      (reference keccak (trieNode keccak (along prev cur val n))) := by
  have hne : along prev cur val n ≠ [] := by
    have := hb.two_le
    intro h
    simp [h] at this
  rw [along_of_no_siblings hprev hkn.le hn hs]
  have hp : commonPrefix (prepend ((cur.take n).drop k) (along prev cur val n)) =
      (cur.take n).drop k := by
    rw [commonPrefix_prepend hne, hb.commonPrefix, List.append_nil]
  rw [trieNode_extension (by simpa [prepend] using hb.two_le), hp, under_prepend]
  rw [hp]
  intro h
  have := congrArg List.length h
  simp only [List.length_drop, List.length_take, List.length_nil] at this
  omega

end Facts

section Successor

variable {p a b : List Nibble} {x y : Nibble}

private theorem take_eq {l : ℕ} (hl : l ≤ p.length) : (p ++ y :: b).take l = (p ++ x :: a).take l := by
  rw [List.take_append_of_le_length hl, List.take_append_of_le_length hl]

private theorem getElem?_eq {l : ℕ} (hl : l < p.length) : (p ++ y :: b)[l]? = (p ++ x :: a)[l]? := by
  rw [List.getElem?_append_left hl, List.getElem?_append_left hl]

private theorem getElem?_at : (p ++ x :: a)[p.length]? = some x := by
  simp

variable (hprev : ∀ e ∈ prev, Before e.1 (p ++ x :: a)) (hxy : x < y)

/-- Above the digit at which the next key parts, the siblings stay. -/
theorem siblings_succ_of_lt {l : ℕ} (hl : l < p.length) :
    siblings (prev ++ [(p ++ x :: a, val)]) (p ++ y :: b) l = siblings prev (p ++ x :: a) l := by
  unfold siblings
  apply List.filter_congr
  intro d _
  rw [take_eq (x := x) (a := a) hl.le, getElem?_eq (x := x) (a := a) hl]
  by_cases hd : (p ++ x :: a)[l]? = some d
  · simp [hd]
  · rw [under_sibling hd]

theorem siblingRefs_succ_of_lt {l : ℕ} (hl : l < p.length) :
    siblingRefs keccak (prev ++ [(p ++ x :: a, val)]) (p ++ y :: b) l =
      siblingRefs keccak prev (p ++ x :: a) l := by
  unfold siblingRefs
  rw [siblings_succ_of_lt hl]
  apply List.map_congr_left
  intro d hd
  rw [take_eq (x := x) (a := a) hl.le, under_sibling (mem_siblings.mp hd).1]

theorem spine_succ_of_le {l : ℕ} (hl : l ≤ p.length) :
    spine keccak (prev ++ [(p ++ x :: a, val)]) (p ++ y :: b) l =
      spine keccak prev (p ++ x :: a) l := by
  induction l with
  | zero => rfl
  | succ l ih => rw [spine, spine, siblingRefs_succ_of_lt hl, ih (by omega)]

include hprev hxy

/-- There, the current key becomes the last sibling. -/
theorem siblings_succ_at :
    siblings (prev ++ [(p ++ x :: a, val)]) (p ++ y :: b) p.length =
      siblings prev (p ++ x :: a) p.length ++ [x] := by
  refine digits_siblings_append hprev getElem?_at fun d => ?_
  rw [decide_eq_true_eq, take_eq (x := x) (a := a) le_rfl, getElem?_at, mem_siblings, getElem?_at]
  by_cases hd : d = x
  · subst hd
    have := along_eq prev (p ++ d :: a) val (p.length + 1)
    rw [along, take_succ_of_getElem? getElem?_at] at this
    rw [this]
    simp [hxy.ne']
  · have hne : (p ++ x :: a)[p.length]? ≠ some d := by
      rw [getElem?_at]
      exact fun h => hd (Option.some.inj h).symm
    rw [under_sibling hne]
    have hdx : x ≠ d := fun h => hd h.symm
    simp only [ne_eq, Option.some.injEq, hdx, not_false_eq_true, true_and, hd, or_false,
      and_iff_right_iff_imp]
    rintro hu rfl
    have hlt := lt_of_mem_siblings hprev getElem?_at (mem_siblings.mpr ⟨hne, hu⟩)
    exact absurd hxy (lt_asymm hlt)

/-- Below it, the next key has no siblings. -/
theorem under_succ_eq_nil {t : List Nibble} :
    under (prev ++ [(p ++ x :: a, val)]) (p ++ y :: t) = [] := by
  have hlt {e : Entry} (he : e ∈ prev) {s : List Nibble} (hs : e.1 = p ++ y :: s) : False := by
    have hb := hprev e he
    rw [hs] at hb
    exact absurd (hb.lt_of_append hxy.ne') (lt_asymm hxy)
  rw [List.eq_nil_iff_forall_not_mem]
  rintro ⟨k, v⟩ hm
  have hm' := mem_under.mp hm
  rw [List.append_assoc, List.cons_append, List.mem_append] at hm'
  rcases hm' with hm' | hm'
  · exact hlt hm' rfl
  · have := congrArg Prod.fst (List.mem_singleton.mp hm')
    simp only [List.append_cancel_left_eq, List.cons.injEq] at this
    exact hxy.ne' this.1

theorem siblings_succ_of_gt {l : ℕ} (hl : p.length < l) :
    siblings (prev ++ [(p ++ x :: a, val)]) (p ++ y :: b) l = [] := by
  rw [List.eq_nil_iff_forall_not_mem]
  intro d hd
  refine (mem_siblings.mp hd).2 ?_
  obtain ⟨k, rfl⟩ : ∃ k, l = p.length + (k + 1) := ⟨l - p.length - 1, by omega⟩
  rw [List.take_append, List.take_of_length_le (by omega), Nat.add_sub_cancel_left,
    List.take_succ_cons, List.append_assoc, List.cons_append]
  exact under_succ_eq_nil hprev hxy

/-- The stack after the step to the next key. -/
theorem spine_succ :
    spine keccak (prev ++ [(p ++ x :: a, val)]) (p ++ y :: b) (p ++ y :: b).length =
      reference keccak (trieNode keccak (along prev (p ++ x :: a) val (p.length + 1))) ::
        spine keccak prev (p ++ x :: a) (p.length + 1) := by
  have hdeep (k : ℕ) : spine keccak (prev ++ [(p ++ x :: a, val)]) (p ++ y :: b)
      (p.length + 1 + k) = spine keccak (prev ++ [(p ++ x :: a, val)]) (p ++ y :: b)
      (p.length + 1) := by
    induction k with
    | zero => rfl
    | succ k ih =>
      rw [← Nat.add_assoc, spine, siblingRefs, siblings_succ_of_gt hprev hxy (by omega), ih]
      rfl
  have hlen : (p ++ y :: b).length = p.length + 1 + b.length := by
    simp only [List.length_append, List.length_cons]
    omega
  rw [hlen, hdeep, spine, spine_succ_of_le le_rfl, spine, siblingRefs, siblings_succ_at hprev hxy,
    List.map_append, List.reverse_append]
  have htake : (p ++ x :: a).take p.length ++ [x] = (p ++ x :: a).take (p.length + 1) :=
    (take_succ_of_getElem? getElem?_at).symm
  have hrefs : (siblings prev (p ++ x :: a) p.length).map (fun d => reference keccak (trieNode keccak
      (under (prev ++ [(p ++ x :: a, val)]) ((p ++ y :: b).take p.length ++ [d])))) =
      siblingRefs keccak prev (p ++ x :: a) p.length := by
    apply List.map_congr_left
    intro d hd
    rw [take_eq (x := x) (a := a) le_rfl, under_sibling (mem_siblings.mp hd).1]
  rw [hrefs]
  simp only [List.map_cons, List.map_nil, List.reverse_cons, List.reverse_nil, List.nil_append,
    List.cons_append, along]
  rw [take_eq (x := x) (a := a) le_rfl, htake]

end Successor

end Spine

end Silkworm.Trie
