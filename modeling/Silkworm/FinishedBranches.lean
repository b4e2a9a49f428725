import Silkworm.HashBuilderRuns

/-!
# The order in which branches are finished

A branch is finished when the last key below it has been left behind: first the branches left
of a path, then those along it, from the deepest to the root. A finished branch lingers in
the bitmap of the level above until a branch of that level or of a higher one is finished.
-/

namespace Silkworm.Trie
open EntriesUnderPrefix Rlp

section Order

variable {a b c : List Nibble}

theorem Before.append (h : Before a b) (s t : List Nibble) : Before (a ++ s) (b ++ t) := by
  obtain ⟨p, x, y, u, v, rfl, rfl, hxy⟩ := h
  exact ⟨p, x, y, u ++ s, v ++ t, by simp, by simp, hxy⟩

theorem Before.of_initial_left (h : Before a b) (hc : a <+: c) : Before c b := by
  obtain ⟨t, rfl⟩ := hc
  simpa using h.append t []

theorem Before.of_initial_right (h : Before a b) (hc : b <+: c) : Before a c := by
  obtain ⟨t, rfl⟩ := hc
  simpa using h.append [] t

theorem Before.irrefl (a : List Nibble) : ¬Before a a := fun h => h.not_initial List.prefix_rfl

theorem Before.asymm (h : Before a b) : ¬Before b a := fun h' => List.lt_asymm h.lt h'.lt

/-- Two keys part at some digit unless one is a prefix of the other. -/
theorem before_or_initial (a b : List Nibble) : Before a b ∨ Before b a ∨ a <+: b ∨ b <+: a := by
  induction a generalizing b with
  | nil => exact .inr (.inr (.inl List.nil_prefix))
  | cons x a ih =>
    cases b with
    | nil => exact .inr (.inr (.inr List.nil_prefix))
    | cons y b =>
      rcases lt_trichotomy x y with hxy | rfl | hxy
      · exact .inl ⟨[], x, y, a, b, rfl, rfl, hxy⟩
      · rcases ih b with h | h | h | h
        · exact .inl (h.append_left [x])
        · exact .inr (.inl (h.append_left [x]))
        · exact .inr (.inr (.inl (List.cons_prefix_cons.mpr ⟨rfl, h⟩)))
        · exact .inr (.inr (.inr (List.cons_prefix_cons.mpr ⟨rfl, h⟩)))
      · exact .inr (.inl ⟨[], y, x, b, a, rfl, rfl, hxy⟩)

theorem Before.trans (h : Before a b) (h' : Before b c) : Before a c := by
  rcases before_or_initial a c with hac | hca | hac | hca
  · exact hac
  · exact absurd (List.lt_trans h.lt h'.lt) (List.lt_asymm hca.lt)
  · exact absurd h' (h.of_initial_left hac).asymm
  · exact absurd h (h'.of_initial_right hca).asymm

/-- The branch at `q` is finished before the one at `p`. -/
def Precedes (q p : List Nibble) : Prop := Before q p ∨ p <+: q ∧ p ≠ q

theorem Precedes.irrefl (p : List Nibble) : ¬Precedes p p := by
  rintro (h | h)
  · exact Before.irrefl p h
  · exact h.2 rfl

theorem Precedes.asymm {q p : List Nibble} (h : Precedes q p) : ¬Precedes p q := by
  rintro (h' | h')
  · rcases h with h | h
    · exact h.asymm h'
    · exact h'.not_initial h.1
  · rcases h with h | h
    · exact h.not_initial h'.1
    · exact h.2 (h.1.eq_of_length (Nat.le_antisymm h.1.length_le h'.1.length_le))

end Order

section Marks

/-- Among the finished branches of `C` there is one below level `l` that ends with `d`, and
none of level `l` or higher was finished after it. -/
def Marks (C : List Nibble → Prop) (l : ℕ) (d : Nibble) : Prop :=
  ∃ q, C q ∧ q.length = l + 1 ∧ q.getLast? = some d ∧ ∀ r, C r → r.length ≤ l → ¬Precedes q r

variable {C C' : List Nibble → Prop} {p : List Nibble} {l : ℕ} {d : Nibble}

theorem marks_congr (h : ∀ r, C r ↔ C' r) : Marks C l d ↔ Marks C' l d := by
  have hC : C = C' := funext fun r => propext (h r)
  rw [hC]

/-- Finishing one more branch marks it at the level above and clears what is below. -/
theorem marks_insert (hlast : ∀ r, C r → Precedes r p) :
    Marks (fun r => C r ∨ r = p) l d ↔
      l < p.length ∧ (Marks C l d ∨ p.length = l + 1 ∧ p.getLast? = some d) := by
  constructor
  · rintro ⟨q, hq | rfl, hlen, hd, hmax⟩
    · refine ⟨?_, .inl ⟨q, hq, hlen, hd, fun r hr => hmax r (.inl hr)⟩⟩
      by_contra hl
      exact hmax p (.inr rfl) (by omega) (hlast q hq)
    · exact ⟨by omega, .inr ⟨hlen, hd⟩⟩
  · rintro ⟨hl, ⟨q, hq, hlen, hd, hmax⟩ | ⟨hlen, hd⟩⟩
    · refine ⟨q, .inl hq, hlen, hd, ?_⟩
      rintro r (hr | rfl) hrl
      · exact hmax r hr hrl
      · omega
    · refine ⟨p, .inr rfl, hlen, hd, ?_⟩
      rintro r (hr | rfl) hrl
      · exact (hlast r hr).asymm
      · omega

end Marks

/-- At least two digits follow the prefix. -/
def IsBranch (J : List Entry) (p : List Nibble) : Prop :=
  ∃ d e, d ≠ e ∧ under J (p ++ [d]) ≠ [] ∧ under J (p ++ [e]) ≠ []

instance (J : List Entry) (p : List Nibble) : Decidable (IsBranch J p) :=
  inferInstanceAs (Decidable (∃ d e, d ≠ e ∧ under J (p ++ [d]) ≠ [] ∧ under J (p ++ [e]) ≠ []))

theorem under_ne_nil_iff {J : List Entry} {p : List Nibble} :
    under J p ≠ [] ↔ ∃ e ∈ J, p <+: e.1 := by
  constructor
  · intro h
    obtain ⟨⟨t, v⟩, hm⟩ := List.exists_mem_of_ne_nil _ h
    exact ⟨_, mem_under.mp hm, List.prefix_append p t⟩
  · rintro ⟨⟨k, v⟩, hm, t, rfl⟩
    exact List.ne_nil_of_mem (mem_under.mpr hm)

/-- A digit that the bitmap shows when the branch at `p` is finished. -/
def Lingers (J : List Entry) (p : List Nibble) (d : Nibble) : Prop :=
  Marks (fun r => IsBranch J r ∧ Precedes r p) p.length d

/-- The branches that are finished when the path is the first `n` digits of the current key. -/
def Closed (J : List Entry) (cur : List Nibble) (n : ℕ) (r : List Nibble) : Prop :=
  IsBranch J r ∧ (Before r cur ∨ r <+: cur ∧ n ≤ r.length)

section Path

variable {prev rest : List Entry} {cur r : List Nibble} {val : Bytes} {n m : ℕ}

/-- Below a prefix that later keys do not share there are only the entries so far. -/
theorem under_of_rest (hrest : ∀ e ∈ rest, ¬cur.take m <+: e.1) (t : List Nibble) :
    under (prev ++ (cur, val) :: rest) (cur.take m ++ t) =
      under (prev ++ [(cur, val)]) (cur.take m ++ t) := by
  have hnil : under rest (cur.take m ++ t) = [] := by
    by_contra h
    obtain ⟨e, he, hpre⟩ := under_ne_nil_iff.mp h
    exact hrest e he ((List.prefix_append _ t).trans hpre)
  rw [List.append_cons, under_append, hnil, List.append_nil]

theorem isBranch_take_iff {x : Nibble} (hx : cur[m]? = some x)
    (hrest : ∀ e ∈ rest, ¬cur.take m <+: e.1) :
    IsBranch (prev ++ (cur, val) :: rest) (cur.take m) ↔ siblings prev cur m ≠ [] := by
  have hpath : under (prev ++ [(cur, val)]) (cur.take m ++ [x]) ≠ [] := by
    refine under_ne_nil_iff.mpr ⟨(cur, val), by simp, ?_⟩
    rw [← take_succ_of_getElem? hx]
    exact List.take_prefix ..
  have hmem {d : Nibble} (hd : d ≠ x) (hu : under (prev ++ [(cur, val)]) (cur.take m ++ [d]) ≠ []) :
      siblings prev cur m ≠ [] := by
    have hne : cur[m]? ≠ some d := by
      rw [hx]
      exact fun h => hd (Option.some.inj h).symm
    rw [under_sibling hne] at hu
    exact List.ne_nil_of_mem (mem_siblings.mpr ⟨hne, hu⟩)
  constructor
  · rintro ⟨d, e, hde, hd, he⟩
    rw [under_of_rest hrest] at hd he
    by_cases hdx : d = x
    · exact hmem (fun hex => hde (hdx.trans hex.symm)) he
    · exact hmem hdx hd
  · intro hs
    obtain ⟨d, hd⟩ := List.exists_mem_of_ne_nil _ hs
    obtain ⟨hne, hu⟩ := mem_siblings.mp hd
    refine ⟨d, x, ?_, ?_, ?_⟩
    · rintro rfl
      exact hne hx
    · rw [under_of_rest hrest, under_sibling hne]
      exact hu
    · rw [under_of_rest hrest]
      exact hpath

section Ordered

variable (hJ : (prev ++ (cur, val) :: rest).Pairwise fun a b => Before a.1 b.1)

include hJ

/-- No branch is at or below a whole key. -/
theorem not_initial_of_isBranch (hr : IsBranch (prev ++ (cur, val) :: rest) r) : ¬cur <+: r := by
  intro hcur
  obtain ⟨d, -, -, hd, -⟩ := hr
  obtain ⟨e, he, hpre⟩ := under_ne_nil_iff.mp hd
  have hlt : cur.length < e.1.length := by
    have h1 := hcur.length_le
    have h2 := hpre.length_le
    simp only [List.length_append, List.length_singleton] at h2
    omega
  have hce : cur <+: e.1 := hcur.trans ((List.prefix_append r [d]).trans hpre)
  obtain ⟨-, hrest, hprev⟩ := List.pairwise_append.mp hJ
  rcases List.mem_append.mp he with he | he
  · exact (hprev e he (cur, val) (by simp)).not_initial' hce
  · rcases List.mem_cons.mp he with rfl | he
    · exact absurd hlt (lt_irrefl _)
    · exact (List.rel_of_pairwise_cons hrest he).not_initial hce

/-- A branch is left of the current key, or a prefix of it, or there are later keys below. -/
theorem isBranch_cases (hr : IsBranch (prev ++ (cur, val) :: rest) r) :
    Before r cur ∨ r <+: cur ∨ Before cur r ∧ ∃ e ∈ rest, r <+: e.1 := by
  rcases before_or_initial r cur with h | h | h | h
  · exact .inl h
  · obtain ⟨d, -, -, hd, -⟩ := hr
    obtain ⟨e, he, hpre⟩ := under_ne_nil_iff.mp hd
    have hre : r <+: e.1 := (List.prefix_append r [d]).trans hpre
    have hce : Before cur e.1 := h.of_initial_right hre
    obtain ⟨-, -, hprev⟩ := List.pairwise_append.mp hJ
    rcases List.mem_append.mp he with he | he
    · exact absurd hce (hprev e he (cur, val) (by simp)).asymm
    · rcases List.mem_cons.mp he with rfl | he
      · exact absurd hce (Before.irrefl cur)
      · exact .inr (.inr ⟨h, e, he, hre⟩)
  · exact .inr (.inl h)
  · exact absurd h (not_initial_of_isBranch hJ hr)

/-- On the path, a level without siblings has no branch. -/
theorem le_length_of_isBranch (hr : IsBranch (prev ++ (cur, val) :: rest) r) (hpre : r <+: cur)
    (hrest : ∀ e ∈ rest, ¬r <+: e.1) (hs : r.length < n → siblings prev cur r.length = []) :
    n ≤ r.length := by
  by_contra hn
  have hne : r.length ≠ cur.length := fun h =>
    not_initial_of_isBranch hJ hr (by rw [hpre.eq_of_length h])
  have hlt : r.length < cur.length := lt_of_le_of_ne hpre.length_le hne
  have htake : cur.take r.length = r := (List.prefix_iff_eq_take.mp hpre).symm
  rw [← htake] at hr hrest
  exact (isBranch_take_iff (List.getElem?_eq_getElem hlt) hrest).mp hr (hs (by omega))

section Closing

variable (hmn : m < n) (hn : n ≤ cur.length) (hrest : ∀ e ∈ rest, ¬cur.take m <+: e.1)
  (hs : ∀ l, m < l → l < n → siblings prev cur l = [])

include hmn hn hrest hs

/-- When the group at level `m` is closed, the finished branches are those that precede its
own. -/
theorem closed_iff_precedes : Closed (prev ++ (cur, val) :: rest) cur n r ↔
    IsBranch (prev ++ (cur, val) :: rest) r ∧ Precedes r (cur.take m) := by
  refine and_congr_right fun hr => ⟨?_, ?_⟩
  · rintro (h | ⟨hpre, hlen⟩)
    · rcases before_or_initial r (cur.take m) with h' | h' | h' | h'
      · exact .inl h'
      · exact absurd (h'.of_initial_left (List.take_prefix m cur)) h.asymm
      · exact absurd (h'.trans (List.take_prefix m cur)) h.not_initial
      · refine .inr ⟨h', ?_⟩
        rintro rfl
        exact h.not_initial (List.take_prefix m cur)
    · refine .inr ⟨List.prefix_of_prefix_length_le (List.take_prefix m cur) hpre ?_, ?_⟩
      · rw [List.length_take]
        omega
      · rintro rfl
        rw [List.length_take] at hlen
        omega
  · rintro (h | ⟨hpre, hne⟩)
    · exact .inl (h.of_initial_right (List.take_prefix m cur))
    · have hlt : m < r.length := by
        have hle := hpre.length_le
        rw [List.length_take, Nat.min_eq_left (by omega)] at hle
        refine lt_of_le_of_ne hle fun h => hne (hpre.eq_of_length ?_)
        rw [List.length_take, ← h]
        omega
      have hrest' : ∀ e ∈ rest, ¬r <+: e.1 := fun e he h => hrest e he (hpre.trans h)
      rcases isBranch_cases hJ hr with h | h | ⟨-, e, he, h⟩
      · exact .inl h
      · exact .inr ⟨h, le_length_of_isBranch hJ hr h hrest' (hs _ hlt)⟩
      · exact absurd h (hrest' e he)

theorem closed_next (hsib : siblings prev cur m ≠ []) :
    Closed (prev ++ (cur, val) :: rest) cur m r ↔
      Closed (prev ++ (cur, val) :: rest) cur n r ∨ r = cur.take m := by
  constructor
  · rintro ⟨hr, h | ⟨hpre, hlen⟩⟩
    · exact .inl ⟨hr, .inl h⟩
    · rcases Nat.eq_or_lt_of_le hlen with heq | hlt
      · exact .inr (heq ▸ List.prefix_iff_eq_take.mp hpre)
      · have hm : cur.take m <+: r := by
          refine List.prefix_of_prefix_length_le (List.take_prefix m cur) hpre ?_
          rw [List.length_take]
          omega
        exact .inl ⟨hr, .inr ⟨hpre, le_length_of_isBranch hJ hr hpre
          (fun e he h => hrest e he (hm.trans h)) (hs _ hlt)⟩⟩
  · rintro (⟨hr, h | ⟨hpre, hlen⟩⟩ | rfl)
    · exact ⟨hr, .inl h⟩
    · exact ⟨hr, .inr ⟨hpre, by omega⟩⟩
    · refine ⟨(isBranch_take_iff (List.getElem?_eq_getElem (by omega)) hrest).mpr hsib,
        .inr ⟨List.take_prefix m cur, ?_⟩⟩
      rw [List.length_take]
      omega

end Closing

end Ordered

/-- Nothing is finished before the first key is left. -/
theorem not_closed_first (hJ : ((cur, val) :: rest).Pairwise fun a b => Before a.1 b.1) :
    ¬Closed ((cur, val) :: rest) cur cur.length r := by
  rintro ⟨hr, h | ⟨hpre, hlen⟩⟩
  · obtain ⟨d, -, -, hd, -⟩ := hr
    obtain ⟨e, he, hre⟩ := under_ne_nil_iff.mp hd
    have hec : Before e.1 cur := h.of_initial_left ((List.prefix_append r [d]).trans hre)
    rcases List.mem_cons.mp he with rfl | he
    · exact Before.irrefl cur hec
    · exact (List.rel_of_pairwise_cons hJ he).asymm hec
  · have heq := hpre.eq_of_length (Nat.le_antisymm hpre.length_le hlen)
    have hinitial : ¬cur <+: r := @not_initial_of_isBranch [] rest cur r val hJ hr
    exact hinitial (by rw [heq])

/-- In the end every branch is finished. -/
theorem closed_last (hJ : (prev ++ [(cur, val)]).Pairwise fun a b => Before a.1 b.1)
    (hs : ∀ l < n, siblings prev cur l = []) (hr : IsBranch (prev ++ [(cur, val)]) r) :
    Closed (prev ++ [(cur, val)]) cur n r := by
  refine ⟨hr, ?_⟩
  rcases isBranch_cases hJ hr with h | h | ⟨-, e, he, -⟩
  · exact .inl h
  · exact .inr ⟨h, le_length_of_isBranch hJ hr h (by simp) (hs _)⟩
  · exact absurd he List.not_mem_nil

section Successor

variable {p a b : List Nibble} {x y : Nibble} {val' : Bytes}

/-- Going on to the next key finishes no further branch. -/
theorem closed_succ
    (hJ : (prev ++ (p ++ x :: a, val) :: (p ++ y :: b, val') :: rest).Pairwise
      fun a b => Before a.1 b.1)
    (hxy : x < y) (hn : p.length < n)
    (hs : ∀ l, p.length < l → l < n → siblings prev (p ++ x :: a) l = []) :
    Closed (prev ++ (p ++ x :: a, val) :: (p ++ y :: b, val') :: rest) (p ++ x :: a) n r ↔
      Closed (prev ++ (p ++ x :: a, val) :: (p ++ y :: b, val') :: rest) (p ++ y :: b)
        (p ++ y :: b).length r := by
  have hnext : Before (p ++ x :: a) (p ++ y :: b) := ⟨p, x, y, a, b, rfl, rfl, hxy⟩
  have hJ' : ((prev ++ [(p ++ x :: a, val)]) ++ (p ++ y :: b, val') :: rest).Pairwise
      fun a b => Before a.1 b.1 := by simpa using hJ
  refine and_congr_right fun hr => ⟨?_, ?_⟩
  · rintro (h | ⟨hpre, hlen⟩)
    · exact .inl (h.trans hnext)
    · obtain ⟨s, hs⟩ : p ++ [x] <+: r := by
        have hstart : p ++ [x] <+: p ++ x :: a := by simp
        refine List.prefix_of_prefix_length_le hstart hpre ?_
        simp only [List.length_append, List.length_singleton]
        omega
      exact .inl ⟨p, x, y, s, b, by simp [← hs], rfl, hxy⟩
  · rintro (h | ⟨hpre, hlen⟩)
    · have hlater : ∀ e ∈ (p ++ y :: b, val') :: rest, ¬r <+: e.1 := by
        intro e he hre
        have hbe := h.of_initial_left hre
        rcases List.mem_cons.mp he with rfl | he
        · exact Before.irrefl _ hbe
        · exact (List.rel_of_pairwise_cons (List.pairwise_append.mp hJ').2.1 he).asymm hbe
      rcases isBranch_cases hJ hr with h' | h' | ⟨-, e, he, h'⟩
      · exact .inl h'
      · refine .inr ⟨h', le_length_of_isBranch hJ hr h' hlater (hs _ ?_)⟩
        by_contra hle
        have hp : r <+: p := List.prefix_of_prefix_length_le h' (List.prefix_append ..) (by omega)
        exact h.not_initial (hp.trans (List.prefix_append ..))
      · exact absurd h' (hlater e he)
    · have heq := hpre.eq_of_length (Nat.le_antisymm hpre.length_le hlen)
      refine absurd (List.prefix_rfl (l := r)) ?_
      nth_rewrite 1 [heq]
      exact not_initial_of_isBranch hJ' (by simpa using hr)

end Successor

end Path

end Silkworm.Trie
