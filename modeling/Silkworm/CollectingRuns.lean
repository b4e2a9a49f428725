import Silkworm.CollectedNodes

/-!
# Runs of the hash builder with a collector

The state between two rounds is that of a run without a collector, with the masks of the
branches finished so far. What the collector has received is right as long as the digits
shown when a branch was finished belonged to branches.
-/

namespace Silkworm.Trie
open EntriesUnderPrefix Rlp

section Promises

variable (keccak : Bytes → Bytes32) (J : List Entry)

/-- The node at a child of the branch at `p`. -/
def childNode (p : List Nibble) (d : Nibble) : Bytes := trieNode keccak (under J (p ++ [d]))

/-- What a collected node says about the trie at `p`. -/
structure Describes (p : List Nibble) (node : Node) : Prop where
  tree_subset : isSubset node.treeMask node.stateMask = true
  hash_subset : isSubset node.hashMask node.stateMask = true
  count_eq : node.hashMask.count = node.hashes.length
  state_iff : ∀ d, node.stateMask.has d = true ↔ ∃ e ∈ J, p ++ [d] <+: e.1
  branches : ∀ d, node.hashMask.has d = true → IsBranch J (p ++ [d])
  hashes : node.hashes = node.hashMask.digits.map fun d => keccak (childNode keccak J p d)

/-- No assertion fails when the branch at `p` is finished. -/
def Passes (p : List Nibble) : Prop :=
  ∀ d, Lingers J p d → under J (p ++ [d]) ≠ [] ∧ kHashLength ≤ (childNode keccak J p d).length

/-- Only branches linger when the branch at `p` is finished. -/
def Clean (p : List Nibble) : Prop := ∀ d, Lingers J p d → IsBranch J (p ++ [d])

/-- A computation that stops at a failing assertion, for a branch that does not pass, or
reaches a state with the property. -/
def StopsOr (r : Option HashBuilder) (P : HashBuilder → Prop) : Prop :=
  (r = none ∧ ∃ p, IsBranch J p ∧ ¬Passes keccak J p) ∨ ∃ hb, r = some hb ∧ P hb

/-- The state at the start of a round, as in `OpenAt`, of a run with a collector. -/
structure Collecting (prev : List Entry) (cur : List Nibble) (val : Bytes) (n : ℕ) (build : Bool)
    (hb : HashBuilder) : Prop where
  openAt : OpenAt keccak prev cur val n build { groups := hb.groups, stack := hb.stack }
  masks : Masks (Closed J cur n) hb
  passes : ∀ p, Closed J cur n p → Passes keccak J p
  described : (∀ c ∈ hb.collected, Describes keccak J c.1 c.2) ↔ ∀ p, Closed J cur n p → Clean J p

end Promises

variable {keccak : Bytes → Bytes32} {prev rest : List Entry} {cur : List Nibble} {val : Bytes}
  {n : ℕ} {build : Bool} {hb : HashBuilder}

theorem StopsOr.bind {J : List Entry} {r : Option HashBuilder} {P Q : HashBuilder → Prop}
    {f : HashBuilder → Option HashBuilder} (h : StopsOr keccak J r P)
    (hf : ∀ hb, P hb → StopsOr keccak J (f hb) Q) : StopsOr keccak J (r.bind f) Q := by
  rcases h with ⟨rfl, hstop⟩ | ⟨hb, rfl, hP⟩
  · exact .inl ⟨rfl, hstop⟩
  · exact hf hb hP

theorem OpenAt.forget (h : OpenAt keccak prev cur val n build hb) :
    OpenAt keccak prev cur val n build { groups := hb.groups, stack := hb.stack } :=
  ⟨h.groups, ⟨rfl, rfl, by simp⟩, h.le, h.first, h.later⟩

section Nodes

variable {J : List Entry} {p : List Nibble} {mask treeMask hashMask : Mask}
  (hmask : ∀ d, mask.has d = true ↔ under J (p ++ [d]) ≠ [])
  (hhash : ∀ d, hashMask.has d = true ↔ Lingers J p d)

include hmask hhash

theorem hashed_iff_passes :
    Hashed mask hashMask (childNode keccak J p) ↔ Passes keccak J p := by
  refine forall_congr' fun d => ?_
  rw [hhash, hmask]

theorem describes_iff_clean (hsub : isSubset treeMask hashMask = true)
    (hpass : Hashed mask hashMask (childNode keccak J p)) (root : Option Bytes32) :
    Describes keccak J p ⟨mask, treeMask, hashMask,
      hashMask.digits.map fun d => keccak (childNode keccak J p d), root⟩ ↔ Clean J p := by
  constructor
  · intro h d hd
    exact h.branches d ((hhash d).mpr hd)
  · intro h
    have hsub' : isSubset hashMask mask = true := isSubset_iff.mpr fun d hd => (hpass d hd).1
    refine ⟨isSubset_iff.mpr fun d hd => ?_, hsub', by simp [Mask.count], fun d => ?_, fun d hd => ?_,
      rfl⟩
    · exact isSubset_iff.mp hsub' d (isSubset_iff.mp hsub d hd)
    · exact (hmask d).trans under_ne_nil_iff
    · exact h d ((hhash d).mp hd)

end Nodes

section Round

variable {J : List Entry} (hJ : J.Pairwise fun a b => Before a.1 b.1)
  (hsplit : J = prev ++ (cur, val) :: rest) (h : Collecting keccak J prev cur val n build hb)
  {m : ℕ} {x : Nibble} (hm : hb.groups.length = m + 1) (hx : cur[m]? = some x)
  (hrest : ∀ e ∈ rest, ¬cur.take m <+: e.1)

include hJ hsplit in
theorem before_of_pairwise : ∀ e ∈ prev, Before e.1 cur := by
  subst hsplit
  intro e he
  exact (List.pairwise_append.mp hJ).2.2 e he (cur, val) (by simp)

include hsplit hrest in
theorem under_path (d : Nibble) :
    under (prev ++ [(cur, val)]) (cur.take m ++ [d]) = under J (cur.take m ++ [d]) := by
  rw [hsplit, under_of_rest hrest]

include hsplit hrest hx in
/-- The bitmap of a group shows the digits that follow its prefix. -/
theorem has_group_iff {mask : Mask}
    (hhas : ∀ d, mask.has d = true ↔ d ∈ siblings prev cur m ∨ d = x) (d : Nibble) :
    mask.has d = true ↔ under J (cur.take m ++ [d]) ≠ [] := by
  rw [hhas, ← under_path hsplit hrest]
  by_cases hd : d = x
  · subst hd
    have hmem : under (prev ++ [(cur, val)]) (cur.take m ++ [d]) ≠ [] := by
      refine under_ne_nil_iff.mpr ⟨(cur, val), by simp, ?_⟩
      rw [← take_succ_of_getElem? hx]
      exact List.take_prefix ..
    exact iff_of_true (.inr rfl) hmem
  · have hne : cur[m]? ≠ some d := by
      rw [hx]
      exact fun h => hd (Option.some.inj h).symm
    rw [under_sibling hne, mem_siblings]
    simp [hd, hne]

include h hm in
theorem Collecting.siblings_eq_nil {l : ℕ} (hl : m < l) (hn : l < n) : siblings prev cur l = [] := by
  refine h.openAt.groups.siblings_eq_nil ?_ hn
  simp only [hm]
  omega

section Closing

include hJ hsplit h hm hrest

theorem Collecting.closed_iff_precedes (r : List Nibble) :
    Closed J cur n r ↔ IsBranch J r ∧ Precedes r (cur.take m) := by
  have hlen : hb.groups.length ≤ n := h.openAt.groups.length_le
  subst hsplit
  exact Trie.closed_iff_precedes hJ (by omega) h.openAt.le hrest
    fun l hl hn => h.siblings_eq_nil hm hl hn

/-- The hash mask that is read shows the digits that linger. -/
theorem Collecting.marks_iff_lingers (d : Nibble) :
    Marks (Closed J cur n) m d ↔ Lingers J (cur.take m) d := by
  have hlen : hb.groups.length ≤ n := h.openAt.groups.length_le
  have hplen : (cur.take m).length = m := by
    rw [List.length_take]
    have := h.openAt.le
    omega
  rw [Lingers, hplen]
  exact marks_congr (h.closed_iff_precedes hJ hsplit hm hrest)

theorem Collecting.closed_next (r : List Nibble) :
    Closed J cur m r ↔ Closed J cur n r ∨ r = cur.take m := by
  have hlen : hb.groups.length ≤ n := h.openAt.groups.length_le
  have hsib : siblings prev cur m ≠ [] := h.openAt.groups.siblings_ne_nil hm
  subst hsplit
  exact Trie.closed_next hJ (by omega) h.openAt.le hrest
    (fun l hl hn => h.siblings_eq_nil hm hl hn) hsib

include hx

/-- Closing the group at level `m` leads to the state of the next round. -/
theorem Collecting.close :
    StopsOr keccak J (closeGroup keccak (cur.take n) m { growMasks hb (cur.take n).length with
        groups := setDigit (growTo hb.groups (m + 1)) m x
        stack := reference keccak (trieNode keccak (along prev cur val (m + 1))) ::
          spine keccak prev cur (m + 1) }) fun hb' =>
      Collecting keccak J prev cur val m true
        { truncate hb' m with groups := popZeros (truncate hb' m).groups } := by
  have hprev := before_of_pairwise hJ hsplit
  have hlen : hb.groups.length ≤ n := h.openAt.groups.length_le
  have hpath : (cur.take n).length = n := by
    rw [List.length_take, Nat.min_eq_left h.openAt.le]
  have htake : (cur.take n).take m = cur.take m := by
    rw [List.take_take, Nat.min_eq_left (by omega)]
  obtain ⟨mask, hmask, hhas, hstack⟩ := h.openAt.exists_group hprev hm hx
  have hstate := has_group_iff hsplit hx hrest hhas
  have hrefs (d : Nibble) : trieNode keccak (under (prev ++ [(cur, val)]) (cur.take m ++ [d])) =
      childNode keccak J (cur.take m) d := by
    rw [under_path hsplit hrest, childNode]
  simp only [hrefs] at hstack
  rw [hpath]
  have hM := (h.masks.grow n).update (setDigit (growTo hb.groups (m + 1)) m x)
    (reference keccak (trieNode keccak (along prev cur val (m + 1))) ::
      spine keccak prev cur (m + 1))
  have hH := h.masks.le_length n
  have hT : n ≤ (growMasks hb n).treeMasks.length := hM.length_eq ▸ hH
  have hhash := fun d => (hM.hash m d).trans (h.marks_iff_lingers hJ hsplit hm hrest d)
  have hlen : m ≤ (cur.take n).length := by omega
  have hlenH : m ≤ (growMasks hb n).hashMasks.length := by omega
  have hlenT : m ≤ (growMasks hb n).treeMasks.length := by omega
  obtain ⟨hashMasks, hregH, -, hgetH⟩ := exists_registerInParent hlen hlenH
  obtain ⟨treeMasks, hregT, -, hgetT⟩ := exists_registerInParent hlen hlenT
  have hh : (growMasks hb n).hashMasks[m]? = some ((growMasks hb n).hashMasks.getD m 0) := by
    rw [List.getElem?_eq_getElem (by omega), List.getD_eq_getElem _ _ (by omega)]
  have ht : (growMasks hb n).treeMasks[m]? = some ((growMasks hb n).treeMasks.getD m 0) := by
    rw [List.getElem?_eq_getElem (by omega), List.getD_eq_getElem _ _ (by omega)]
  by_cases hpass : Hashed mask ((growMasks hb n).hashMasks.getD m 0) (childNode keccak J (cur.take m))
  · obtain ⟨root, hb', hclose, hb'eq⟩ := closeGroup_collect hM.nodeCollector hmask hh ht (hM.tree m) hstack hregH
      hregT hpass
    refine .inr ⟨hb', hclose, ?_, ?_, ?_, ?_⟩
    · have hnode : trieNode keccak (along prev cur val m) = _ :=
        trieNode_along_branch hx (h.openAt.groups.siblings_ne_nil hm) hhas
      simp only [hrefs] at hnode
      have hnext := (h.openAt.next hm hx).forget
      rw [hnode] at hnext
      rw [hb'eq]
      exact hnext
    · have hins : Masks (fun r => Closed J cur n r ∨ r = cur.take m) (truncate hb' m) := by
        refine hM.insert htake.symm (by omega)
          (fun r hr => ((h.closed_iff_precedes hJ hsplit hm hrest r).mp hr).2) ?_ ?_ fun l d hd => ?_
        · rw [hb'eq]
          exact hM.nodeCollector
        · rw [hb'eq]
          exact hgetH
        · rw [hb'eq] at hd
          simp only at hd
          split_ifs at hd
          · exact .inl hd
          · exact (hgetT l d).mp hd
      exact (hins.congr fun r => (h.closed_next hJ hsplit hm hrest r).symm).update _ _
    · intro p hp
      rcases (h.closed_next hJ hsplit hm hrest p).mp hp with hp | rfl
      · exact h.passes p hp
      · exact (hashed_iff_passes hstate hhash).mp hpass
    · have hcollected : (growMasks hb n).collected = hb.collected := by
        rw [growMasks_eq h.masks.length_eq]
      have hnew : (∀ c ∈ (if (growMasks hb n).hashMasks.getD m 0 = 0 then [] else
          [((cur.take n).take m, (⟨mask, (growMasks hb n).treeMasks.getD m 0,
            (growMasks hb n).hashMasks.getD m 0, ((growMasks hb n).hashMasks.getD m 0).digits.map
              fun d => keccak (childNode keccak J (cur.take m) d), root⟩ : Node))]),
          Describes keccak J c.1 c.2) ↔ Clean J (cur.take m) := by
        split_ifs with h0
        · refine iff_of_true (by simp) fun d hd => ?_
          have := (hhash d).mpr hd
          simp only [h0, has_zero, Bool.false_eq_true] at this
        · rw [List.forall_mem_singleton, htake]
          exact describes_iff_clean hstate hhash (hM.tree m) hpass root
      rw [hb'eq, truncate, List.forall_mem_append, hcollected, hnew, h.described]
      simp only [h.closed_next hJ hsplit hm hrest, or_imp, forall_and, forall_eq]
  · refine .inl ⟨closeGroup_fails hM.nodeCollector hmask hh ht (hM.tree m) hstack hregH hregT hpass,
      cur.take m, ((h.closed_next hJ hsplit hm hrest _).mpr (.inr rfl)).1, ?_⟩
    exact fun hp => hpass ((hashed_iff_passes hstate hhash).mpr hp)

end Closing

end Round

section Successor

variable {J : List Entry} {p a b : List Nibble} {x y : Nibble} {val' : Bytes}
  (hJ : J.Pairwise fun a b => Before a.1 b.1)
  (hsplit : J = prev ++ (p ++ x :: a, val) :: (p ++ y :: b, val') :: rest) (hxy : x < y)

include hJ hsplit hxy

/-- The state that the loop leaves for the next key. -/
theorem Collecting.succ (h : Collecting keccak J prev (p ++ x :: a) val n build hb)
    (hn : p.length < n) (hg : hb.groups.length ≤ p.length + 1) (k : ℕ) :
    Collecting keccak J (prev ++ [(p ++ x :: a, val)]) (p ++ y :: b) val' (p ++ y :: b).length false
      { growMasks hb k with
        groups := setDigit (growTo hb.groups (p.length + 1)) p.length x
        stack := reference keccak (trieNode keccak (along prev (p ++ x :: a) val (p.length + 1))) ::
          spine keccak prev (p ++ x :: a) (p.length + 1) } := by
  have hclosed (r : List Nibble) : Closed J (p ++ x :: a) n r ↔
      Closed J (p ++ y :: b) (p ++ y :: b).length r := by
    subst hsplit
    refine closed_succ hJ hxy hn fun l hl hln => h.openAt.groups.siblings_eq_nil ?_ hln
    exact hg.trans hl
  refine ⟨(h.openAt.succ (before_of_pairwise hJ hsplit) hxy hn hg val' k).forget,
    ((h.masks.congr hclosed).grow k).update _ _, fun q hq => h.passes q ((hclosed q).mpr hq), ?_⟩
  rw [growMasks_eq h.masks.length_eq]
  exact h.described.trans (forall_congr' fun q => imp_congr_left (hclosed q))

/-- The later keys do not share a prefix beyond the digit at which the next key parts. -/
theorem not_initial_of_lt {l : ℕ} (hl : p.length < l) :
    ∀ e ∈ (p ++ y :: b, val') :: rest, ¬(p ++ x :: a).take l <+: e.1 := by
  have hpx : p ++ [x] <+: (p ++ x :: a).take l := by
    obtain ⟨k, rfl⟩ : ∃ k, l = p.length + (k + 1) := ⟨l - p.length - 1, by omega⟩
    rw [List.take_append, List.take_of_length_le (by omega), Nat.add_sub_cancel_left,
      List.take_succ_cons]
    simp
  intro e he hpre
  have hb : Before e.1 (p ++ y :: b) := by
    obtain ⟨s, hs⟩ := hpx.trans hpre
    exact ⟨p, x, y, s, b, by simp [← hs], rfl, hxy⟩
  subst hsplit
  have hrest := (List.pairwise_cons.mp (List.pairwise_append.mp hJ).2.1).2
  rcases List.mem_cons.mp he with rfl | he
  · exact Before.irrefl _ hb
  · exact (List.rel_of_pairwise_cons hrest he).asymm hb

/-- The loop between two keys, by induction on the length of the path. -/
theorem Collecting.genStructStep_succ
    (h : Collecting keccak J prev (p ++ x :: a) val n build hb) (hn : p.length < n) :
    StopsOr keccak J (genStructStep keccak ((p ++ x :: a).take n) (p ++ y :: b) val build hb) fun hb' =>
      Collecting keccak J (prev ++ [(p ++ x :: a, val)]) (p ++ y :: b) val' (p ++ y :: b).length false
        hb' := by
  have hprev := before_of_pairwise hJ hsplit
  induction n using Nat.strong_induction_on generalizing build hb with
  | _ n ih =>
    have hlen : hb.groups.length ≤ n := h.openAt.groups.length_le
    have hpre := prefixLength_path (a := a) (b := b) hxy hn
    by_cases hg : hb.groups.length ≤ p.length + 1
    · have hx : ((p ++ x :: a).take n)[p.length]? = some x := by
        rw [List.getElem?_take_of_lt hn]
        simp
      exact .inr ⟨_, genStructStep_return hpre hx hg (by simp) (h.openAt.pushNode_eq hprev hg hn),
        h.succ hJ hsplit hxy hn hg _⟩
    · obtain ⟨m, hm⟩ : ∃ m, hb.groups.length = m + 1 := ⟨hb.groups.length - 1, by omega⟩
      have hmlt : m < (p ++ x :: a).length := lt_of_lt_of_le (by omega) h.openAt.le
      have hx : (p ++ x :: a)[m]? = some (p ++ x :: a)[m] := List.getElem?_eq_getElem hmlt
      have hx' : ((p ++ x :: a).take n)[m]? = some (p ++ x :: a)[m] := by
        rw [List.getElem?_take_of_lt (by omega), hx]
      rw [genStructStep_close_bind hm hx' (.inr (by omega))
        (h.openAt.pushNode_eq hprev hm.le (by omega))]
      refine (h.close hJ hsplit hm hx (not_initial_of_lt hJ hsplit hxy (by omega))).bind
        fun hb' hnext => ?_
      rw [if_neg (by omega), List.take_take, Nat.min_eq_left (by omega)]
      exact ih m (by omega) hnext (by omega)

end Successor

/-- The loop at the end finishes every branch. -/
theorem Collecting.genStructStep_last {J : List Entry} (hJ : J.Pairwise fun a b => Before a.1 b.1)
    (hsplit : J = prev ++ [(cur, val)]) (h : Collecting keccak J prev cur val n build hb)
    (hn : 0 < n) :
    StopsOr keccak J (genStructStep keccak (cur.take n) [] val build hb) fun hb' =>
      hb'.stack = [reference keccak (trieNode keccak J)] ∧
      (∀ p, IsBranch J p → Passes keccak J p) ∧
      ((∀ c ∈ hb'.collected, Describes keccak J c.1 c.2) ↔ ∀ p, IsBranch J p → Clean J p) := by
  have hroot : along prev cur val 0 = J := by simp [along, hsplit]
  have hprev := before_of_pairwise hJ hsplit
  induction n using Nat.strong_induction_on generalizing build hb with
  | _ n ih =>
    have hlen : hb.groups.length ≤ n := h.openAt.groups.length_le
    have hget {m : ℕ} (hm : m < n) : cur[m]? = some (cur.get ⟨m, hm.trans_le h.openAt.le⟩) :=
      List.getElem?_eq_getElem _
    have hget' {m : ℕ} (hm : m < n) : (cur.take n)[m]? = some (cur.get ⟨m, hm.trans_le h.openAt.le⟩) := by
      rw [List.getElem?_take_of_lt hm, hget hm]
    -- all branches are finished as soon as the path above has no siblings
    have hall {n' : ℕ} (hs : ∀ l < n', siblings prev cur l = []) (q : List Nibble) :
        Closed J cur n' q ↔ IsBranch J q := by
      subst hsplit
      exact ⟨And.left, closed_last hJ hs⟩
    cases hg : hb.groups.length with
    | zero =>
      have hpush := h.openAt.pushNode_eq hprev hg.le hn.le
      rw [List.drop_zero, hroot] at hpush
      have hclosed := hall fun l hl => h.openAt.groups.siblings_eq_nil (hg.le.trans (Nat.zero_le l)) hl
      refine .inr ⟨_, genStructStep_root (List.eq_nil_of_length_eq_zero hg) (hget' hn) hpush, rfl,
        fun q hq => h.passes q ((hclosed q).mpr hq), ?_⟩
      rw [growMasks_eq h.masks.length_eq]
      exact h.described.trans (forall_congr' fun q => imp_congr_left (hclosed q))
    | succ m =>
      rw [genStructStep_close_bind hg (hget' (by omega)) (.inl rfl)
        (h.openAt.pushNode_eq hprev hg.le (by omega))]
      refine (h.close hJ hsplit hg (hget (by omega)) (by simp)).bind fun hb' hnext => ?_
      rw [List.take_take, Nat.min_eq_left (by omega)]
      split_ifs with h0
      · subst h0
        have hclosed := @hall 0 (by simp)
        refine .inr ⟨_, rfl, ?_, fun q hq => hnext.passes q ((hclosed q).mpr hq), ?_⟩
        · have := (hnext.openAt.later rfl).2
          rw [hroot] at this
          exact this
        · exact hnext.described.trans (forall_congr' fun q => imp_congr_left (hclosed q))
      · exact ih m (by omega) hnext (by omega)

section Runs

variable (keccak)

/-- Between calls of `add`, as in `Pending`, with the entries still to come. -/
structure Recording (J prev : List Entry) (cur : List Nibble) (val : Bytes) (rest : List Entry)
    (hb : HashBuilder) : Prop where
  key : hb.key = cur
  value : hb.value = val
  nonempty : cur ≠ []
  split : J = prev ++ (cur, val) :: rest
  collecting : Collecting keccak J prev cur val cur.length false hb

/-- The end of a run: the root node is on the stack and every branch was finished. -/
structure Recorded (J : List Entry) (hb : HashBuilder) : Prop where
  stack : hb.stack = if J = [] then [] else [reference keccak (trieNode keccak J)]
  passes : ∀ p, IsBranch J p → Passes keccak J p
  described : (∀ c ∈ hb.collected, Describes keccak J c.1 c.2) ↔ ∀ p, IsBranch J p → Clean J p

variable {keccak} {J : List Entry} (hJ : J.Pairwise fun a b => Before a.1 b.1)

theorem Collecting.key_value (h : Collecting keccak J prev cur val n build hb) (key : List Nibble)
    (value : Bytes) : Collecting keccak J prev cur val n build { hb with key, value } :=
  ⟨h.openAt, ⟨h.masks.nodeCollector, h.masks.length_eq, h.masks.hash, h.masks.tree⟩, h.passes,
    h.described⟩

include hJ

theorem add_collect_first {key value : Bytes} (hsplit : J = toEntry (key, value) :: rest)
    (hne : key ≠ []) :
    ∃ hb, add keccak key value { nodeCollector := true } = some hb ∧
      Recording keccak J [] (nibbles key) value rest hb := by
  obtain ⟨hb, hadd, hpending⟩ := add_first keccak value hne
  have hnone (r : List Nibble) : ¬Closed J (nibbles key) (nibbles key).length r := by
    subst hsplit
    exact not_closed_first hJ
  have hgt : unpackNibbles key > [] := by
    by_contra hgt
    simp [add, hgt] at hadd
  have hfirst : hb = { key := unpackNibbles key, value } := by
    simpa [add, hgt, eq_comm] using hadd
  refine ⟨{ nodeCollector := true, key := unpackNibbles key, value }, by simp [add, hgt],
    unpackNibbles_eq key, rfl, nibbles_ne_nil hne, hsplit, ?_, ?_, fun p hp => absurd hp (hnone p), ?_⟩
  · have := hpending.openAt.forget
    rw [hfirst] at this
    exact this
  · refine ⟨rfl, rfl, fun l d => ?_, fun l => by simp [isSubset]⟩
    rw [List.getD_nil, has_zero]
    refine iff_of_false (by simp) ?_
    rintro ⟨q, hq, -⟩
    exact hnone q hq
  · exact iff_of_true (by simp) fun p hp => absurd hp (hnone p)

theorem Recording.add_next {key value : Bytes}
    (h : Recording keccak J prev cur val (toEntry (key, value) :: rest) hb) (hne : key ≠ []) :
    StopsOr keccak J (add keccak key value hb) fun hb' =>
      Recording keccak J (prev ++ [(cur, val)]) (nibbles key) value rest hb' := by
  have hsplit := h.split
  have hcur : Before cur (nibbles key) := by
    have hpair := hJ
    rw [hsplit] at hpair
    exact List.rel_of_pairwise_cons (List.pairwise_append.mp hpair).2.1
      (List.mem_cons_self (a := toEntry (key, value)))
  have hgt : unpackNibbles key > hb.key := by
    rw [unpackNibbles_eq, h.key]
    exact hcur.lt
  have hkey : hb.key ≠ [] := h.key ▸ h.nonempty
  have hadd : add keccak key value hb =
      (genStructStep keccak cur (nibbles key) val false hb).bind fun hb' =>
        some { hb' with key := unpackNibbles key, value } := by
    simp only [add, hgt, not_true_eq_false, ↓reduceIte, hkey, ne_eq, not_false_eq_true,
      Option.bind_eq_bind]
    rw [h.key, h.value, unpackNibbles_eq]
  have hsplit' : J = (prev ++ [(cur, val)]) ++ (nibbles key, value) :: rest := by
    rw [hsplit]
    simp [toEntry]
  have hcol := h.collecting
  obtain ⟨p, x, y, s, t, hx, hy, hxy⟩ := hcur
  have hstep : StopsOr keccak J (genStructStep keccak cur (nibbles key) val false hb) fun hb' =>
      Collecting keccak J (prev ++ [(cur, val)]) (nibbles key) value (nibbles key).length false hb' := by
    have hsplit'' : J = prev ++ (p ++ x :: s, val) :: (p ++ y :: t, value) :: rest := by
      rw [hsplit, toEntry, hx, hy]
    rw [hx] at hcol
    have := hcol.genStructStep_succ hJ hsplit'' hxy (by simp)
    rw [List.take_length] at this
    rw [hx, hy]
    exact this
  rw [hadd]
  refine hstep.bind fun hb' hnext => .inr ⟨_, rfl, unpackNibbles_eq key, rfl, nibbles_ne_nil hne,
    hsplit', hnext.key_value _ _⟩

theorem Recording.addRest {entries : List (Bytes × Bytes)} (hne : ∀ e ∈ entries, e.1 ≠ [])
    (h : Recording keccak J prev cur val (entries.map toEntry) hb) :
    StopsOr keccak J (addAll keccak entries hb) fun hb' =>
      ∃ prev' cur' val', Recording keccak J prev' cur' val' [] hb' := by
  induction entries generalizing prev cur val hb with
  | nil => exact .inr ⟨hb, rfl, prev, cur, val, h⟩
  | cons e entries ih =>
    obtain ⟨hne_e, hne_rest⟩ := List.forall_mem_cons.mp hne
    exact (h.add_next hJ hne_e).bind fun hb' hnext => ih hne_rest hnext

theorem Recording.finish (h : Recording keccak J prev cur val [] hb) :
    StopsOr keccak J (finalize keccak hb) (Recorded keccak J) := by
  have hpos := List.length_pos_of_ne_nil h.nonempty
  have hlast := h.collecting.genStructStep_last hJ h.split hpos
  have hJne : J ≠ [] := by
    rw [h.split]
    simp
  rw [List.take_length] at hlast
  have hfin : finalize keccak hb = (genStructStep keccak cur [] val false hb).bind fun hb' =>
      some { hb' with key := [], value := [] } := by
    simp only [Trie.finalize, h.key, h.value, h.nonempty, ne_eq, not_false_eq_true, ↓reduceIte]
    cases genStructStep keccak cur [] val false hb <;> rfl
  rw [hfin]
  refine hlast.bind fun hb' hend => .inr ⟨_, rfl, ?_, hend.2.1, hend.2.2⟩
  rw [if_neg hJne]
  exact hend.1

end Runs

section Entries

variable {l : List (Bytes × Bytes)} (hne : ∀ e ∈ l, e.1 ≠ [])
  (hfree : ∀ a ∈ l, ∀ b ∈ l, a.1 <+: b.1 → a = b) (hsorted : l.Pairwise fun a b => a.1 < b.1)

include hne hfree hsorted

/-- A whole run with a collector. -/
theorem addAll_collect (keccak : Bytes → Bytes32) :
    StopsOr keccak (l.map toEntry)
      ((addAll keccak l { nodeCollector := true }).bind (finalize keccak))
      (Recorded keccak (l.map toEntry)) := by
  have hJ := pairwise_before hfree hsorted
  cases l with
  | nil =>
    refine .inr ⟨_, rfl, rfl, ?_, iff_of_true (by simp) ?_⟩
    · rintro p ⟨d, -, -, hd, -⟩
      exact absurd rfl hd
    · rintro p ⟨d, -, -, hd, -⟩
      exact absurd rfl hd
  | cons e entries =>
    obtain ⟨hne_e, hne_rest⟩ := List.forall_mem_cons.mp hne
    obtain ⟨hb, hadd, hrec⟩ :
        ∃ hb, add keccak e.1 e.2 { nodeCollector := true } = some hb ∧ Recording keccak _ _ _ _ _ hb :=
      add_collect_first hJ rfl hne_e
    have hrun : addAll keccak (e :: entries) { nodeCollector := true } = addAll keccak entries hb := by
      rw [addAll, List.foldlM_cons, hadd]
      rfl
    rw [hrun]
    refine (hrec.addRest hJ hne_rest).bind ?_
    rintro hb' ⟨prev', cur', val', h⟩
    exact h.finish hJ

/-- The run fails at some branch, or its root hash is that of the trie. -/
theorem rootHash_collect (keccak : Bytes → Bytes32) :
    ((addAll keccak l { nodeCollector := true }).bind (rootHash keccak) = none ∧
        ¬∀ p, IsBranch (l.map toEntry) p → Passes keccak (l.map toEntry) p) ∨
      ∃ hb, (addAll keccak l { nodeCollector := true }).bind (rootHash keccak) =
          some (trieRoot keccak l, hb) ∧ Recorded keccak (l.map toEntry) hb := by
  have hroot : (addAll keccak l { nodeCollector := true }).bind (rootHash keccak) =
      ((addAll keccak l { nodeCollector := true }).bind (finalize keccak)).bind fun hb =>
        some (rootHashOfStack keccak hb.stack, hb) := by
    rw [Option.bind_assoc]
    rfl
  rw [hroot]
  rcases addAll_collect hne hfree hsorted keccak with ⟨hnone, p, hp, hfail⟩ | ⟨hb, hsome, hend⟩
  · rw [hnone]
    exact .inl ⟨rfl, fun hall => hfail (hall p hp)⟩
  · refine .inr ⟨hb, ?_, hend⟩
    rw [hsome, Option.bind_some, hend.stack, trieRoot]
    by_cases hl : l = []
    · subst hl
      rfl
    · rw [if_neg (by simpa using hl), if_neg hl, rootHashOfStack_reference]
      rfl

end Entries

/-- There is a branch at `q`, and its parent holds its hash. -/
def HashedBranch (keccak : Bytes → Bytes32) (J : List Entry) (q : List Nibble) : Prop :=
  IsBranch J q ∧ kHashLength ≤ (trieNode keccak (under J q)).length

/-- No assertion fails and every collected node describes the trie exactly when each digit
that lingers at the end of a branch leads to a branch of 32 bytes or more. -/
theorem collected_describe_iff (keccak : Bytes → Bytes32) {l : List (Bytes × Bytes)}
    (hne : ∀ e ∈ l, e.1 ≠ []) (hfree : ∀ a ∈ l, ∀ b ∈ l, a.1 <+: b.1 → a = b)
    (hsorted : l.Pairwise fun a b => a.1 < b.1) :
    (∃ hb root hb', addAll keccak l { nodeCollector := true } = some hb ∧
        rootHash keccak hb = some (root, hb') ∧
        ∀ c ∈ hb'.collected, Describes keccak (l.map toEntry) c.1 c.2) ↔
      ∀ p d, IsBranch (l.map toEntry) p → Lingers (l.map toEntry) p d →
        HashedBranch keccak (l.map toEntry) (p ++ [d]) := by
  constructor
  · rintro ⟨hb, root, hb', hadd, hroot, hdesc⟩ p d hp hd
    rcases rootHash_collect hne hfree hsorted keccak with ⟨hnone, -⟩ | ⟨hb'', hsome, hend⟩
    · rw [hadd, Option.bind_some, hroot] at hnone
      exact absurd hnone (by simp)
    · rw [hadd, Option.bind_some, hroot, Option.some.injEq, Prod.mk.injEq] at hsome
      rw [← hsome.2] at hend
      exact ⟨hend.described.mp hdesc p hp d hd, (hend.passes p hp d hd).2⟩
  · intro hall
    have hpass : ∀ p, IsBranch (l.map toEntry) p → Passes keccak (l.map toEntry) p := by
      intro p hp d hd
      have hq := hall p d hp hd
      obtain ⟨⟨e, -, -, he, -⟩, hlen⟩ := hq
      obtain ⟨k, hk, hpre⟩ := under_ne_nil_iff.mp he
      exact ⟨under_ne_nil_iff.mpr ⟨k, hk, (List.prefix_append _ [e]).trans hpre⟩, hlen⟩
    rcases rootHash_collect hne hfree hsorted keccak with ⟨-, hfail⟩ | ⟨hb', hsome, hend⟩
    · exact absurd hpass hfail
    · obtain ⟨hb, hadd, hroot⟩ := Option.bind_eq_some_iff.mp hsome
      exact ⟨hb, _, hb', hadd, hroot, hend.described.mpr fun p hp d hd => (hall p d hp hd).1⟩

/-- Three keys below two branches. -/
theorem collected_describe_iff_three :
    (∃ hb root hb', addAll (fun _ => default) [([0x00], [1]), ([0x01], [1]), ([0x10], [1])]
        { nodeCollector := true } = some hb ∧
        rootHash (fun _ => default) hb = some (root, hb') ∧
        ∀ c ∈ hb'.collected, Describes (fun _ => default)
          ([([0x00], [1]), ([0x01], [1]), ([0x10], [1])].map toEntry) c.1 c.2) ↔
      ∀ p d, IsBranch ([([0x00], [1]), ([0x01], [1]), ([0x10], [1])].map toEntry) p →
        Lingers ([([0x00], [1]), ([0x01], [1]), ([0x10], [1])].map toEntry) p d →
        HashedBranch (fun _ => default) ([([0x00], [1]), ([0x01], [1]), ([0x10], [1])].map toEntry)
          (p ++ [d]) :=
  collected_describe_iff (fun _ => default) (by decide) (by decide) (by decide)

private theorem length_trieNode_pair :
    (trieNode (fun _ => default) [([0], [1]), ([1], [1])]).length = 22 := by
  have hchild (d : Nibble) : (if under [(([0] : List Nibble), ([1] : Bytes)), ([1], [1])] [d] = [] then
      none else some (reference (fun _ => default) (trieNode (fun _ => default)
        (under [(([0] : List Nibble), ([1] : Bytes)), ([1], [1])] [d])))) =
      if d = 0 ∨ d = 1 then some (leafNode [] [1]) else none := by
    have hleaf : reference (fun _ => default) (leafNode [] [1]) = leafNode [] [1] := by decide
    have hunder : ∀ d : Nibble, under [(([0] : List Nibble), ([1] : Bytes)), ([1], [1])] [d] =
        if d = 0 ∨ d = 1 then [([], [1])] else [] := by decide
    rw [hunder]
    by_cases hd : d = 0 ∨ d = 1
    · rw [if_pos hd, if_pos hd, if_neg (by simp), trieNode_singleton, hleaf]
    · rw [if_neg hd, if_neg hd, if_pos rfl]
  rw [trieNode_branch (by decide) (by decide)]
  simp only [hchild]
  decide

/-- The inner branch is embedded in the root, but the hash mask of the root shows it. -/
theorem not_collected_describe_three :
    ¬∃ hb root hb', addAll (fun _ => default) [([0x00], [1]), ([0x01], [1]), ([0x10], [1])]
        { nodeCollector := true } = some hb ∧
        rootHash (fun _ => default) hb = some (root, hb') ∧
        ∀ c ∈ hb'.collected, Describes (fun _ => default)
          ([([0x00], [1]), ([0x01], [1]), ([0x10], [1])].map toEntry) c.1 c.2 := by
  rintro ⟨hb, root, hb', hadd, hroot, -⟩
  have hlingers : Lingers ([([0x00], [1]), ([0x01], [1]), ([0x10], [1])].map toEntry) [] 0 := by
    refine ⟨[0], ⟨by decide, .inr ⟨List.nil_prefix, by simp⟩⟩, rfl, rfl, ?_⟩
    rintro r ⟨-, hr⟩ hlen
    rw [List.eq_nil_of_length_eq_zero (Nat.le_zero.mp hlen)] at hr
    exact absurd hr (Precedes.irrefl [])
  have hunder : under ([([0x00], [1]), ([0x01], [1]), ([0x10], [1])].map toEntry) ([] ++ [0]) =
      [([0], [1]), ([1], [1])] := by decide
  rcases rootHash_collect (l := [([0x00], [1]), ([0x01], [1]), ([0x10], [1])]) (by decide) (by decide)
    (by decide) fun _ => default with ⟨hnone, -⟩ | ⟨hb'', -, hend⟩
  · rw [hadd, Option.bind_some, hroot] at hnone
    exact absurd hnone (by simp)
  · have hlen := (hend.passes [] (by decide) 0 hlingers).2
    rw [childNode, hunder, length_trieNode_pair] at hlen
    exact absurd hlen (by decide)

end Silkworm.Trie
