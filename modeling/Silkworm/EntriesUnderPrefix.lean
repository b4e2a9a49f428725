import Mathlib.Algebra.GroupWithZero.Nat
import Mathlib.Data.List.Basic
import Mathlib.Data.List.Perm.Basic
import Mathlib.Tactic.Common

/-!
# Keyed entries below a prefix

A finite map whose keys are strings is a list of entries. The entries below a prefix, with
the prefix removed, form a map of their own. The longest common prefix of all keys does not
depend on the order of the entries.
-/

namespace Silkworm.EntriesUnderPrefix

variable {α β : Type} [DecidableEq α]

/-- The entries whose key starts with `p`, without that prefix. -/
def under (J : List (List α × β)) (p : List α) : List (List α × β) :=
  J.filterMap fun e => if p <+: e.1 then some (e.1.drop p.length, e.2) else none

/-- Put a prefix in front of every key. -/
def prepend (p : List α) (J : List (List α × β)) : List (List α × β) :=
  J.map fun e => (p ++ e.1, e.2)

theorem mem_under {J : List (List α × β)} {p k : List α} {v : β} :
    (k, v) ∈ under J p ↔ (p ++ k, v) ∈ J := by
  simp only [under, List.mem_filterMap, Option.ite_none_right_eq_some, Option.some.injEq,
    Prod.mk.injEq]
  constructor
  · rintro ⟨⟨k', v'⟩, hm, ⟨t, ht⟩, hk, rfl⟩
    simp only at ht hk
    rw [← ht, List.drop_left] at hk
    rw [← hk, ht]
    exact hm
  · intro hm
    exact ⟨_, hm, List.prefix_append p k, List.drop_left, rfl⟩

@[simp] theorem under_nil (J : List (List α × β)) : under J [] = J := by
  simp [under]

theorem under_append (J K : List (List α × β)) (p : List α) :
    under (J ++ K) p = under J p ++ under K p := List.filterMap_append

theorem under_singleton (k : List α) (v : β) (p : List α) :
    under [(k, v)] p = if p <+: k then [(k.drop p.length, v)] else [] := by
  simp only [under, List.filterMap_cons, List.filterMap_nil]
  split_ifs <;> rfl

theorem under_perm {J K : List (List α × β)} (h : J.Perm K) (p : List α) :
    (under J p).Perm (under K p) := h.filterMap _

theorem under_under (J : List (List α × β)) (p q : List α) :
    under (under J p) q = under J (p ++ q) := by
  simp only [under, List.filterMap_filterMap]
  congr 1
  funext e
  by_cases hp : p <+: e.1
  · obtain ⟨t, ht⟩ := hp
    rw [if_pos ⟨t, ht⟩]
    simp [← ht, ← List.drop_drop]
  · have hpq : ¬p ++ q <+: e.1 := fun h => hp ((List.prefix_append p q).trans h)
    simp [hp, hpq]

theorem under_prepend (p : List α) (J : List (List α × β)) : under (prepend p J) p = J := by
  simp [under, prepend, List.filterMap_map]

/-- When all keys start with `p` nothing is lost below it. -/
theorem prepend_under {J : List (List α × β)} {p : List α} (h : ∀ e ∈ J, p <+: e.1) :
    prepend p (under J p) = J := by
  induction J with
  | nil => rfl
  | cons e J ih =>
    obtain ⟨he, hJ⟩ := List.forall_mem_cons.mp h
    have hcons : under (e :: J) p = (e.1.drop p.length, e.2) :: under J p := by
      simp [under, he]
    rw [hcons, prepend, List.map_cons, List.prefix_iff_eq_append.mp he]
    exact congrArg (e :: ·) (ih hJ)

def lcp : List α → List α → List α
  | a :: s, b :: t => if a = b then a :: lcp s t else []
  | _, _ => []

theorem prefix_lcp_iff {p s t : List α} : p <+: lcp s t ↔ p <+: s ∧ p <+: t := by
  induction s, t using lcp.induct generalizing p with
  | case1 a s t ih =>
    cases p with
    | nil => simp
    | cons c p =>
      simp only [lcp, ↓reduceIte, List.cons_prefix_cons, ih]
      tauto
  | case2 a s b t hab =>
    simp only [lcp, hab, ↓reduceIte, List.prefix_nil]
    constructor
    · rintro rfl
      simp
    · rintro ⟨hs, ht⟩
      cases p with
      | nil => rfl
      | cons c p =>
        rw [List.cons_prefix_cons] at hs ht
        exact absurd (hs.1.symm.trans ht.1) hab
  | case3 s t h =>
    cases s with
    | nil => simp +contextual [lcp]
    | cons a s =>
      cases t with
      | nil => simp +contextual [lcp]
      | cons b t => exact (h a s b t rfl rfl).elim

/-- The longest common prefix of the keys. -/
def commonPrefix : List (List α × β) → List α
  | [] => []
  | [e] => e.1
  | e :: f :: J => lcp e.1 (commonPrefix (f :: J))

theorem prefix_commonPrefix_iff {J : List (List α × β)} (hJ : J ≠ []) {p : List α} :
    p <+: commonPrefix J ↔ ∀ e ∈ J, p <+: e.1 := by
  induction J with
  | nil => exact absurd rfl hJ
  | cons e J ih =>
    cases J with
    | nil => simp [commonPrefix]
    | cons f J =>
      rw [commonPrefix, prefix_lcp_iff, ih (by simp)]
      exact (List.forall_mem_cons (p := fun d : List α × β => p <+: d.1)).symm

theorem commonPrefix_prefix {J : List (List α × β)} {e : List α × β} (he : e ∈ J) :
    commonPrefix J <+: e.1 :=
  (prefix_commonPrefix_iff (List.ne_nil_of_mem he)).mp List.prefix_rfl e he

theorem commonPrefix_perm {J K : List (List α × β)} (h : J.Perm K) :
    commonPrefix J = commonPrefix K := by
  by_cases hJ : J = []
  · subst hJ
    rw [h.nil_eq]
  have hK : K ≠ [] := fun hK => hJ (hK ▸ h).eq_nil
  have hJK : commonPrefix J <+: commonPrefix K :=
    (prefix_commonPrefix_iff hK).mpr fun e he => commonPrefix_prefix (h.mem_iff.mpr he)
  have hKJ : commonPrefix K <+: commonPrefix J :=
    (prefix_commonPrefix_iff hJ).mpr fun e he => commonPrefix_prefix (h.mem_iff.mp he)
  exact hJK.eq_of_length (Nat.le_antisymm hJK.length_le hKJ.length_le)

theorem commonPrefix_prepend {J : List (List α × β)} (hJ : J ≠ []) (p : List α) :
    commonPrefix (prepend p J) = p ++ commonPrefix J := by
  induction J with
  | nil => exact absurd rfl hJ
  | cons e J ih =>
    cases J with
    | nil => rfl
    | cons f J =>
      have hlcp (s t : List α) : lcp (p ++ s) (p ++ t) = p ++ lcp s t := by
        clear ih
        induction p with
        | nil => rfl
        | cons a p ih => simp [lcp, ih]
      have hf := ih (by simp)
      simp only [prepend, List.map_cons, commonPrefix] at hf ⊢
      rw [hf, hlcp]

/-- The size of a map, which goes down below a nonempty prefix. -/
def mass (J : List (List α × β)) : ℕ := (J.map fun e => e.1.length + 1).sum

theorem mass_under_le (J : List (List α × β)) (p : List α) :
    mass (under J p) + J.length * min 1 p.length ≤ mass J := by
  induction J with
  | nil => simp [under, mass]
  | cons e J ih =>
    have hmin : min 1 p.length ≤ p.length := Nat.min_le_right ..
    have hone : min 1 p.length ≤ 1 := Nat.min_le_left ..
    have hlen : (e :: J).length * min 1 p.length = J.length * min 1 p.length + min 1 p.length := by
      rw [List.length_cons, Nat.succ_mul]
    have hmass : mass (e :: J) = e.1.length + 1 + mass J := rfl
    by_cases he : p <+: e.1
    · have hcons : under (e :: J) p = (e.1.drop p.length, e.2) :: under J p := by
        simp [under, he]
      have hle := he.length_le
      have : mass (under (e :: J) p) = e.1.length - p.length + 1 + mass (under J p) := by
        rw [hcons]
        simp [mass]
      omega
    · have hcons : under (e :: J) p = under J p := by simp [under, he]
      rw [hcons]
      omega

theorem mass_under_lt {J : List (List α × β)} (hJ : J ≠ []) {p : List α} (hp : p ≠ []) :
    mass (under J p) < mass J := by
  have h := mass_under_le J p
  have hJ' := List.length_pos_of_ne_nil hJ
  have hp' := List.length_pos_of_ne_nil hp
  rw [Nat.min_eq_left hp', Nat.mul_one] at h
  omega

end Silkworm.EntriesUnderPrefix
