import Mathlib.Data.List.Nodup

/-!
# Lists in the order of use

Entries with the most recently used one in front. The front part of such a list, of a given length,
is kept up by the same operations on it alone, so that a cache need not remember what it has dropped.
-/

namespace Silkworm.Recency

variable {K V : Type} [DecidableEq K]

def others (k : K) (es : List (K × V)) : List (K × V) := es.filter fun e => e.1 ≠ k

def find (k : K) (es : List (K × V)) : Option (K × V) := es.find? fun e => e.1 = k

def put (k : K) (v : V) (es : List (K × V)) : List (K × V) := (k, v) :: others k es

/-- An entry that is used comes to the front. -/
def promote (k : K) (es : List (K × V)) : List (K × V) :=
  match find k es with
  | some e => e :: others k es
  | none => es

def Distinct (es : List (K × V)) : Prop := (es.map Prod.fst).Nodup

variable {k k' : K} {v : V} {e : K × V} {es : List (K × V)} {n : ℕ}

@[simp] theorem others_nil : others k ([] : List (K × V)) = [] := rfl

theorem others_cons_self (v : V) : others k ((k, v) :: es) = others k es :=
  List.filter_cons_of_neg (by simp)

theorem others_cons_ne (h : e.1 ≠ k) : others k (e :: es) = e :: others k es :=
  List.filter_cons_of_pos (by simpa using h)

theorem mem_others : e ∈ others k es ↔ e ∈ es ∧ e.1 ≠ k := by
  rw [others, List.mem_filter, decide_eq_true_iff]

theorem others_eq_self (h : k ∉ es.map Prod.fst) : others k es = es :=
  List.filter_eq_self.mpr fun e he => by
    simpa using fun heq : e.1 = k => h (heq ▸ List.mem_map_of_mem he)

theorem find_eq_some_iff (h : Distinct es) : find k es = some e ↔ e ∈ es ∧ e.1 = k := by
  constructor
  · exact fun hf => ⟨List.mem_of_find?_eq_some hf, by simpa using List.find?_some hf⟩
  · intro hmem
    induction es with
    | nil => exact absurd hmem.1 List.not_mem_nil
    | cons x es ih =>
      obtain ⟨hx, hes⟩ := List.nodup_cons.mp h
      rw [find, List.find?_cons]
      rcases List.mem_cons.mp hmem.1 with rfl | he
      · rw [decide_eq_true hmem.2]
      · have hne : x.1 ≠ k := fun heq => hx (heq.trans hmem.2.symm ▸ List.mem_map_of_mem he)
        rw [decide_eq_false hne]
        exact ih hes ⟨he, hmem.2⟩

theorem find_eq_none_iff : find k es = none ↔ k ∉ es.map Prod.fst := by
  rw [find, List.find?_eq_none, List.mem_map]
  constructor
  · intro h hmem
    obtain ⟨e, he, heq⟩ := hmem
    exact h e he (decide_eq_true heq)
  · exact fun h e he heq => h ⟨e, he, of_decide_eq_true heq⟩

theorem Distinct.others (h : Distinct es) : Distinct (others k es) :=
  h.sublist (List.filter_sublist.map Prod.fst)

omit [DecidableEq K] in
theorem Distinct.take (h : Distinct es) : Distinct (es.take n) :=
  h.sublist ((List.take_sublist n es).map Prod.fst)

theorem Distinct.cons_others (h : Distinct es) (hk : e.1 = k) : Distinct (e :: Recency.others k es) := by
  rw [Distinct, List.map_cons, List.nodup_cons]
  refine ⟨fun hmem => ?_, h.others⟩
  obtain ⟨e', he', heq⟩ := List.mem_map.mp hmem
  exact (mem_others.mp he').2 (heq.trans hk)

theorem Distinct.put (h : Distinct es) : Distinct (put k v es) := h.cons_others rfl

theorem Distinct.promote (h : Distinct es) : Distinct (promote k es) := by
  rw [Recency.promote]
  cases hf : find k es with
  | none => exact h
  | some e => exact h.cons_others ((find_eq_some_iff h).mp hf).2

theorem mem_promote (h : Distinct es) : e ∈ promote k es ↔ e ∈ es := by
  rw [promote]
  cases hf : find k es with
  | none => rfl
  | some x =>
    obtain ⟨hx, hk⟩ := (find_eq_some_iff h).mp hf
    rw [List.mem_cons, mem_others]
    constructor
    · rintro (rfl | ⟨he, -⟩)
      · exact hx
      · exact he
    · intro he
      by_cases heq : e.1 = k
      · exact .inl (Option.some.inj (((find_eq_some_iff h).mpr ⟨he, heq⟩).symm.trans hf))
      · exact .inr ⟨he, heq⟩

/-- Whether an entry is removed from the front part or from the whole list. -/
theorem take_others_take (h : Distinct es) :
    (others k (es.take (n + 1))).take n = (others k es).take n := by
  induction es generalizing n with
  | nil => rfl
  | cons x es ih =>
    obtain ⟨hx, hes⟩ := List.nodup_cons.mp h
    cases n with
    | zero => rw [List.take_zero, List.take_zero]
    | succ n =>
      rw [List.take_succ_cons]
      by_cases hk : x.1 = k
      · obtain rfl := hk
        have hmem : x.1 ∉ (es.take (n + 1)).map Prod.fst := fun hmem =>
          hx ((List.take_sublist _ es).map Prod.fst |>.subset hmem)
        rw [others_cons_self x.2, others_cons_self x.2, others_eq_self hmem, others_eq_self hx,
          List.take_take, Nat.min_self]
      · rw [others_cons_ne hk, others_cons_ne hk, List.take_succ_cons, List.take_succ_cons, ih hes]

/-- An entry is put into the front part, of which the last entry may be dropped. -/
theorem take_put (h : Distinct es) : (put k v (es.take n)).take n = (put k v es).take n := by
  cases n with
  | zero => rw [List.take_zero, List.take_zero]
  | succ n => rw [put, put, List.take_succ_cons, List.take_succ_cons, take_others_take h]

/-- An entry of the front part is used. -/
theorem take_promote (h : Distinct es) (hf : find k (es.take n) = some e) :
    promote k (es.take n) = (promote k es).take n := by
  obtain ⟨he, hk⟩ := (find_eq_some_iff h.take).mp hf
  have hall : find k es = some e := (find_eq_some_iff h).mpr ⟨List.mem_of_mem_take he, hk⟩
  rw [promote, promote, hf, hall]
  cases n with
  | zero => exact absurd he (by simp)
  | succ n =>
    have hlt : (others k (es.take (n + 1))).length < (es.take (n + 1)).length :=
      List.length_filter_lt_length_iff_exists.mpr ⟨e, he, by simpa using hk⟩
    have hle := List.length_take_le (n + 1) es
    have hall : (others k (es.take (n + 1))).length ≤ n := by omega
    change e :: others k (es.take (n + 1)) = e :: (others k es).take n
    rw [← take_others_take h, List.take_of_length_le hall]

/-- Where something has to give way to a new entry, it is the entry that is longest unused. -/
theorem getLast?_of_not_mem_put (hle : es.length ≤ n) (he : e ∈ es) (hk : e.1 ≠ k)
    (hout : e ∉ (put k v es).take n) : es.getLast? = some e := by
  obtain ⟨front, last, rfl⟩ : ∃ front last, es = front ++ [last] :=
    ⟨_, _, (List.dropLast_append_getLast (List.ne_nil_of_mem he)).symm⟩
  rw [List.getLast?_append_of_ne_nil _ (List.cons_ne_nil _ _), List.getLast?_singleton]
  rcases List.mem_append.mp he with he | he
  · obtain ⟨m, rfl⟩ : ∃ m, n = m + 1 := ⟨n - 1, by
      rw [List.length_append, List.length_singleton] at hle
      omega⟩
    have hfront : (others k front).length ≤ m := by
      have hfilter : (others k front).length ≤ front.length := List.length_filter_le _ _
      rw [List.length_append, List.length_singleton] at hle
      omega
    have hothers : others k (front ++ [last]) = others k front ++ others k [last] :=
      List.filter_append ..
    refine absurd ?_ hout
    rw [put, List.take_succ_cons, hothers, List.take_append, List.take_of_length_le hfront]
    exact List.mem_cons_of_mem _ (List.mem_append_left _ (mem_others.mpr ⟨he, hk⟩))
  · rw [List.mem_singleton.mp he]

end Silkworm.Recency
