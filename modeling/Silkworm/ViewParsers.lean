import Mathlib.Data.List.Basic
import Mathlib.Data.List.Forall2
import Mathlib.Tactic.Common

/-!
# Parsers that read from a bounded view

A parser consumes a prefix of a view and either returns a value with the rest of the
view, or reports an error, or leaves the bounds of the view. The last outcome is kept
apart from errors, so that absence of out-of-bounds accesses is a statement about runs.
A loop that stops making progress ends in a fourth outcome.
-/

namespace Silkworm.ViewParsers

variable {σ ε α β : Type}

inductive Outcome (σ ε α : Type) where
  | ok (value : α) (rest : List σ)
  | error (e : ε) (rest : List σ)
  | outOfBounds
  | diverges
  deriving DecidableEq

def Parser (σ ε α : Type) := List σ → Outcome σ ε α

instance : Monad (Parser σ ε) where
  pure a := fun s => .ok a s
  bind p f := fun s => match p s with
    | .ok a rest => f a rest
    | .error e rest => .error e rest
    | .outOfBounds => .outOfBounds
    | .diverges => .diverges

def fail (e : ε) : Parser σ ε α := fun s => .error e s

/-- The first element of the view, left in place. -/
def peek : Parser σ ε σ
  | [] => .outOfBounds
  | x :: xs => .ok x (x :: xs)

def remaining : Parser σ ε ℕ := fun s => .ok s.length s

def removePrefix (n : ℕ) : Parser σ ε Unit := fun s =>
  if n ≤ s.length then .ok () (s.drop n) else .outOfBounds

/-- The view of the first `n` elements, clamped to the size of the view. -/
def substr (n : ℕ) : Parser σ ε (List σ) := fun s => .ok (s.take n) s

/-- A copy of the first `n` elements. Unlike `substr` it does not clamp. -/
def copy (n : ℕ) : Parser σ ε {l : List σ // l.length = n} := fun s =>
  if h : n ≤ s.length then .ok ⟨s.take n, by simp [h]⟩ s else .outOfBounds

/-- Run a parser on another view and leave the present view alone. -/
def within (view : List σ) (p : Parser σ ε α) : Parser σ ε (α × List σ) := fun s =>
  match p view with
  | .ok a rest => .ok (a, rest) s
  | .error e _ => .error e s
  | .outOfBounds => .outOfBounds
  | .diverges => .diverges

/-- A copy of the first `n` elements, which are removed. -/
def consume (n : ℕ) : Parser σ ε {l : List σ // l.length = n} := do
  let l ← copy n
  removePrefix n
  pure l

/-- Repeat a parser a fixed number of times. -/
def times (p : Parser σ ε α) : ℕ → Parser σ ε (List α)
  | 0 => pure []
  | k + 1 => do
    let a ← p
    let as ← times p k
    pure (a :: as)

/-- Repeat a parser until the view is empty. The fuel bounds the number of rounds. -/
def untilEmpty (p : Parser σ ε α) : ℕ → Parser σ ε (List α)
  | _, [] => .ok [] []
  | 0, _ :: _ => .diverges
  | fuel + 1, x :: xs => (do let a ← p; let as ← untilEmpty p fuel; pure (a :: as)) (x :: xs)

@[simp] theorem pure_apply (a : α) (s : List σ) : (pure a : Parser σ ε α) s = .ok a s := rfl

@[simp] theorem fail_apply (e : ε) (s : List σ) : (fail e : Parser σ ε α) s = .error e s := rfl

@[simp] theorem remaining_apply (s : List σ) :
    (remaining : Parser σ ε ℕ) s = .ok s.length s := rfl

@[simp] theorem substr_apply (n : ℕ) (s : List σ) :
    (substr n : Parser σ ε (List σ)) s = .ok (s.take n) s := rfl

@[simp] theorem peek_nil : (peek : Parser σ ε σ) [] = .outOfBounds := rfl

@[simp] theorem peek_cons (x : σ) (xs : List σ) :
    (peek : Parser σ ε σ) (x :: xs) = .ok x (x :: xs) := rfl

theorem removePrefix_of_le {n : ℕ} {s : List σ} (h : n ≤ s.length) :
    (removePrefix n : Parser σ ε Unit) s = .ok () (s.drop n) := if_pos h

theorem copy_of_le {n : ℕ} {s : List σ} (h : n ≤ s.length) :
    (copy n : Parser σ ε _) s = .ok ⟨s.take n, List.length_take_of_le h⟩ s := dif_pos h

@[simp] theorem removePrefix_one_cons (x : σ) (xs : List σ) :
    (removePrefix 1 : Parser σ ε Unit) (x :: xs) = .ok () xs := by
  simp [removePrefix]

theorem bind_apply (p : Parser σ ε α) (f : α → Parser σ ε β) (s : List σ) :
    (p >>= f) s = match p s with
      | .ok a rest => f a rest
      | .error e rest => .error e rest
      | .outOfBounds => .outOfBounds
      | .diverges => .diverges := rfl

theorem bind_of_ok {p : Parser σ ε α} {f : α → Parser σ ε β} {s r : List σ} {a : α}
    (h : p s = .ok a r) : (p >>= f) s = f a r := by
  rw [bind_apply, h]

theorem bind_of_error {p : Parser σ ε α} {f : α → Parser σ ε β} {s r : List σ} {e : ε}
    (h : p s = .error e r) : (p >>= f) s = .error e r := by
  rw [bind_apply, h]

@[simp] theorem bind_eq_ok {p : Parser σ ε α} {f : α → Parser σ ε β} {s r : List σ} {b : β} :
    (p >>= f) s = .ok b r ↔ ∃ a m, p s = .ok a m ∧ f a m = .ok b r := by
  rw [bind_apply]
  cases h : p s <;> simp

@[simp] theorem bind_eq_outOfBounds {p : Parser σ ε α} {f : α → Parser σ ε β} {s : List σ} :
    (p >>= f) s = .outOfBounds ↔
      p s = .outOfBounds ∨ ∃ a m, p s = .ok a m ∧ f a m = .outOfBounds := by
  rw [bind_apply]
  cases h : p s <;> simp

@[simp] theorem bind_eq_diverges {p : Parser σ ε α} {f : α → Parser σ ε β} {s : List σ} :
    (p >>= f) s = .diverges ↔
      p s = .diverges ∨ ∃ a m, p s = .ok a m ∧ f a m = .diverges := by
  rw [bind_apply]
  cases h : p s <;> simp

@[simp] theorem within_eq_ok {view s r : List σ} {p : Parser σ ε α} {b : α × List σ} :
    within view p s = .ok b r ↔ p view = .ok b.1 b.2 ∧ r = s := by
  obtain ⟨a, m⟩ := b
  simp only [within]
  cases h : p view <;> simp [eq_comm, and_assoc]

@[simp] theorem within_eq_outOfBounds {view s : List σ} {p : Parser σ ε α} :
    within view p s = .outOfBounds ↔ p view = .outOfBounds := by
  simp only [within]
  cases h : p view <;> simp

@[simp] theorem within_eq_diverges {view s : List σ} {p : Parser σ ε α} :
    within view p s = .diverges ↔ p view = .diverges := by
  simp only [within]
  cases h : p view <;> simp

/-- The parser succeeds exactly on the strings that start with a word of the relation. -/
def Accepts (p : Parser σ ε α) (R : List σ → α → Prop) : Prop :=
  ∀ s a r, p s = .ok a r ↔ ∃ t, R t a ∧ s = t ++ r

/-- The same of the views of at most the given length. -/
def AcceptsUpTo (n : ℕ) (p : Parser σ ε α) (R : List σ → α → Prop) : Prop :=
  ∀ s, s.length ≤ n → ∀ a r, p s = .ok a r ↔ ∃ t, R t a ∧ s = t ++ r

/-- No input makes the parser read or remove elements outside of its view. -/
def InBounds (p : Parser σ ε α) : Prop := ∀ s, p s ≠ .outOfBounds

/-- No input keeps the parser in a loop. -/
def Terminates (p : Parser σ ε α) : Prop := ∀ s, p s ≠ .diverges

theorem Accepts.ok {p : Parser σ ε α} {R : List σ → α → Prop} (h : Accepts p R)
    {t : List σ} {a : α} (ht : R t a) (r : List σ) : p (t ++ r) = .ok a r :=
  (h _ _ _).mpr ⟨t, ht, rfl⟩

theorem Accepts.upTo {p : Parser σ ε α} {R : List σ → α → Prop} (h : Accepts p R) (n : ℕ) :
    AcceptsUpTo n p R :=
  fun s _ => h s

theorem InBounds.pure (a : α) : InBounds (pure a : Parser σ ε α) := by
  simp [InBounds]

theorem InBounds.bind {p : Parser σ ε α} {f : α → Parser σ ε β} (hp : InBounds p)
    (hf : ∀ a, InBounds (f a)) : InBounds (p >>= f) := by
  intro s h
  rcases bind_eq_outOfBounds.mp h with h | ⟨a, m, -, h⟩
  · exact hp s h
  · exact hf a m h

/-- Concatenation of words, one for each value. -/
def Words (R : List σ → α → Prop) (t : List σ) (as : List α) : Prop :=
  ∃ ts, List.Forall₂ R ts as ∧ t = ts.flatten

theorem Words.nil (R : List σ → α → Prop) : Words R [] [] := ⟨[], .nil, rfl⟩

theorem Words.cons {R : List σ → α → Prop} {t u : List σ} {a : α} {as : List α}
    (ha : R t a) (has : Words R u as) : Words R (t ++ u) (a :: as) := by
  obtain ⟨ts, hts, rfl⟩ := has
  exact ⟨t :: ts, .cons ha hts, rfl⟩

theorem words_nil_iff {R : List σ → α → Prop} {t : List σ} : Words R t [] ↔ t = [] := by
  constructor
  · rintro ⟨ts, hts, rfl⟩
    cases hts
    rfl
  · rintro rfl
    exact .nil R

theorem words_cons_iff {R : List σ → α → Prop} {t : List σ} {a : α} {as : List α} :
    Words R t (a :: as) ↔ ∃ u v, R u a ∧ Words R v as ∧ t = u ++ v := by
  constructor
  · rintro ⟨ts, hts, rfl⟩
    cases hts with
    | cons ha has => exact ⟨_, _, ha, ⟨_, has, rfl⟩, rfl⟩
  · rintro ⟨u, v, ha, has, rfl⟩
    exact .cons ha has

theorem Words.append {R : List σ → α → Prop} {t u : List σ} {as bs : List α}
    (ha : Words R t as) (hb : Words R u bs) : Words R (t ++ u) (as ++ bs) := by
  obtain ⟨ts, hts, rfl⟩ := ha
  obtain ⟨us, hus, rfl⟩ := hb
  exact ⟨ts ++ us, List.rel_append hts hus, List.flatten_append.symm⟩

/-- A bound on every word is a bound on their concatenation. -/
theorem Words.length_le {R : List σ → α → Prop} {f : α → List σ}
    (h : ∀ t a, R t a → t.length ≤ (f a).length) {t : List σ} {as : List α} (hw : Words R t as) :
    t.length ≤ (as.map f).flatten.length := by
  induction as generalizing t with
  | nil => simp [words_nil_iff.mp hw]
  | cons a as ih =>
    obtain ⟨u, v, hu, hv, rfl⟩ := words_cons_iff.mp hw
    have := h u a hu
    have := ih hv
    simp only [List.length_append, List.map_cons, List.flatten_cons]
    omega

/-- When the words are the codes of their values, so is their concatenation. -/
theorem words_code_iff {f : α → List σ} {t : List σ} {as : List α} :
    Words (fun t a => t = f a) t as ↔ t = (as.map f).flatten := by
  induction as generalizing t with
  | nil => simp [words_nil_iff]
  | cons a as ih => simp [words_cons_iff, ih]

section Times

variable {p : Parser σ ε α} {R : List σ → α → Prop}

/-- The rule for a value that is followed by others. -/
theorem Accepts.bind_eq_ok {enc : α → List σ} (hp : Accepts p fun t a => t = enc a)
    {f : α → Parser σ ε β} {s r : List σ} {b : β} :
    (p >>= f) s = .ok b r ↔ ∃ a m, s = enc a ++ m ∧ f a m = .ok b r := by
  simp only [ViewParsers.bind_eq_ok, hp _ _ _, exists_eq_left]

theorem consume_of_le {n : ℕ} {s : List σ} (h : n ≤ s.length) :
    (consume n : Parser σ ε _) s = .ok ⟨s.take n, List.length_take_of_le h⟩ (s.drop n) := by
  rw [consume, bind_of_ok (copy_of_le h), bind_of_ok (removePrefix_of_le h), pure_apply]

theorem consume_eq_outOfBounds {n : ℕ} {s : List σ} :
    (consume n : Parser σ ε _) s = .outOfBounds ↔ s.length < n := by
  by_cases h : n ≤ s.length
  · rw [consume_of_le h]
    exact iff_of_false (by simp) (Nat.not_lt.mpr h)
  · rw [consume, bind_apply, copy, dif_neg h]
    exact iff_of_true rfl (Nat.lt_of_not_le h)

theorem consume_accepts (n : ℕ) :
    Accepts (consume n : Parser σ ε {l : List σ // l.length = n}) fun t l => t = l.val := by
  intro s l r
  simp only [exists_eq_left]
  by_cases h : n ≤ s.length
  · rw [consume_of_le h, Outcome.ok.injEq]
    constructor
    · rintro ⟨rfl, rfl⟩
      exact (List.take_append_drop n s).symm
    · rintro rfl
      exact ⟨Subtype.ext (List.take_left' l.property), List.drop_left' l.property⟩
  · rw [consume_eq_outOfBounds.mpr (Nat.lt_of_not_le h)]
    refine iff_of_false (by simp) ?_
    rintro rfl
    rw [List.length_append, l.property] at h
    exact h (Nat.le_add_right _ _)

theorem Accepts.times (hp : Accepts p R) (k : ℕ) :
    Accepts (times p k) fun t as => as.length = k ∧ Words R t as := by
  induction k with
  | zero =>
    intro s as r
    cases as with
    | nil => simp [ViewParsers.times, words_nil_iff]
    | cons a as => simp [ViewParsers.times]
  | succ k ih =>
    intro s as r
    rw [ViewParsers.times, ViewParsers.bind_eq_ok]
    constructor
    · rintro ⟨a, m, ha, h⟩
      obtain ⟨bs, m', hb, h⟩ := ViewParsers.bind_eq_ok.mp h
      simp only [pure_apply, Outcome.ok.injEq] at h
      obtain ⟨rfl, rfl⟩ := h
      obtain ⟨t, ht, rfl⟩ := (hp _ _ _).mp ha
      obtain ⟨u, ⟨hlen, hu⟩, rfl⟩ := (ih _ _ _).mp hb
      exact ⟨t ++ u, ⟨congrArg (· + 1) hlen, .cons ht hu⟩, (List.append_assoc ..).symm⟩
    · rintro ⟨t, ⟨hlen, hw⟩, rfl⟩
      cases as with
      | nil => cases hlen
      | cons a as =>
        obtain ⟨u, v, hu, hv, rfl⟩ := words_cons_iff.mp hw
        rw [List.append_assoc]
        refine ⟨a, v ++ r, hp.ok hu _, ViewParsers.bind_eq_ok.mpr ⟨as, r, ?_, rfl⟩⟩
        exact (ih _ _ _).mpr ⟨v, ⟨Nat.succ.inj hlen, hv⟩, rfl⟩

/-- A view that is long enough for the words has them all. -/
theorem exists_times_consume {n k : ℕ} {s : List σ} (h : n * k ≤ s.length) :
    ∃ ls r, (times (consume n) k : Parser σ ε _) s = .ok ls r := by
  induction k generalizing s with
  | zero => exact ⟨[], s, rfl⟩
  | succ k ih =>
    rw [Nat.mul_succ] at h
    have hn : n ≤ s.length := Nat.le_trans (Nat.le_add_left _ _) h
    obtain ⟨ls, r, hls⟩ := ih (s := s.drop n) (by rw [List.length_drop]; omega)
    exact ⟨_, r, by rw [ViewParsers.times, bind_of_ok (consume_of_le hn), bind_of_ok hls, pure_apply]⟩

end Times

section Loop

variable {p : Parser σ ε α} {R : List σ → α → Prop}

@[simp] theorem untilEmpty_nil (fuel : ℕ) : untilEmpty p fuel [] = .ok [] [] := by
  cases fuel <;> rfl

/-- Without elements there are no words, as every word has one. -/
theorem untilEmpty_nil_eq_ok (hne : ∀ t a, R t a → t ≠ []) {fuel : ℕ} {as : List α} {r : List σ} :
    untilEmpty p fuel [] = .ok as r ↔ r = [] ∧ Words R [] as := by
  cases as with
  | nil => simp [words_nil_iff, eq_comm]
  | cons a as =>
    simp only [untilEmpty_nil, Outcome.ok.injEq, reduceCtorEq, false_and, false_iff, not_and]
    intro _ hw
    obtain ⟨u, v, hu, -, h⟩ := words_cons_iff.mp hw
    exact hne u a hu (List.append_eq_nil_iff.mp h.symm).1

theorem untilEmpty_cons (fuel : ℕ) (x : σ) (xs : List σ) :
    untilEmpty p (fuel + 1) (x :: xs) =
      (do let a ← p; let as ← untilEmpty p fuel; pure (a :: as)) (x :: xs) := rfl

/-- The loop accepts the concatenations of accepted words, provided that every word has
at least one element and the fuel covers the view. -/
theorem untilEmpty_eq_ok_upTo {N : ℕ} (hp : AcceptsUpTo N p R) (hne : ∀ t a, R t a → t ≠ [])
    {fuel : ℕ} {s : List σ} (hN : s.length ≤ N) (hf : s.length ≤ fuel) {as : List α}
    {r : List σ} : untilEmpty p fuel s = .ok as r ↔ r = [] ∧ Words R s as := by
  induction fuel generalizing s as with
  | zero =>
    obtain rfl : s = [] := List.eq_nil_of_length_eq_zero (Nat.le_zero.mp hf)
    exact untilEmpty_nil_eq_ok hne
  | succ fuel ih =>
    cases s with
    | nil => exact untilEmpty_nil_eq_ok hne
    | cons x xs =>
      rw [untilEmpty_cons, bind_eq_ok]
      constructor
      · rintro ⟨a, m, ha, h⟩
        have hN' := hN
        obtain ⟨t, ht, hs⟩ := (hp _ hN _ _).mp ha
        have hlen := congrArg List.length hs
        have hpos := List.length_pos_of_ne_nil (hne t a ht)
        simp only [List.length_append, List.length_cons] at hlen hf hN'
        obtain ⟨bs, n, hb, h⟩ := bind_eq_ok.mp h
        simp only [pure_apply, Outcome.ok.injEq] at h
        obtain ⟨rfl, rfl⟩ := h
        obtain ⟨rfl, hw⟩ := (ih (by omega) (by omega)).mp hb
        rw [hs]
        exact ⟨rfl, .cons ht hw⟩
      · rintro ⟨rfl, hw⟩
        cases as with
        | nil => simp [words_nil_iff] at hw
        | cons a as =>
          have hN' := hN
          obtain ⟨u, v, hu, hv, hs⟩ := words_cons_iff.mp hw
          have hlen := congrArg List.length hs
          have hpos := List.length_pos_of_ne_nil (hne u a hu)
          simp only [List.length_append, List.length_cons] at hlen hf hN'
          refine ⟨a, v, (hp _ hN _ _).mpr ⟨u, hu, hs⟩, bind_eq_ok.mpr ⟨as, [], ?_, rfl⟩⟩
          exact (ih (by omega) (by omega)).mpr ⟨rfl, hv⟩

theorem untilEmpty_eq_ok (hp : Accepts p R) (hne : ∀ t a, R t a → t ≠ []) {fuel : ℕ}
    {s : List σ} (hf : s.length ≤ fuel) {as : List α} {r : List σ} :
    untilEmpty p fuel s = .ok as r ↔ r = [] ∧ Words R s as :=
  untilEmpty_eq_ok_upTo (hp.upTo s.length) hne (Nat.le_refl _) hf

/-- The loop leaves its view exactly when some accepted words are followed by a nonempty
rest on which one round of the parser leaves the view. -/
theorem untilEmpty_eq_outOfBounds (hp : Accepts p R) (hne : ∀ t a, R t a → t ≠ []) {fuel : ℕ}
    {s : List σ} (hf : s.length ≤ fuel) :
    untilEmpty p fuel s = .outOfBounds ↔
      ∃ t as u, Words R t as ∧ s = t ++ u ∧ u ≠ [] ∧ p u = .outOfBounds := by
  induction fuel generalizing s with
  | zero =>
    obtain rfl : s = [] := List.eq_nil_of_length_eq_zero (Nat.le_zero.mp hf)
    simp
  | succ fuel ih =>
    cases s with
    | nil => simp
    | cons x xs =>
      rw [untilEmpty_cons, bind_eq_outOfBounds]
      constructor
      · rintro (h | ⟨a, m, ha, h⟩)
        · exact ⟨[], [], x :: xs, .nil R, rfl, by simp, h⟩
        · obtain ⟨t, ht, hs⟩ := (hp _ _ _).mp ha
          have hlen := congrArg List.length hs
          have hpos := List.length_pos_of_ne_nil (hne t a ht)
          simp only [List.length_append, List.length_cons] at hlen hf
          simp only [bind_eq_outOfBounds, pure_apply, reduceCtorEq, and_false, exists_false,
            or_false] at h
          obtain ⟨t', as, u, hw, rfl, hu, hb⟩ := (ih (by omega)).mp h
          exact ⟨t ++ t', a :: as, u, .cons ht hw, by rw [hs, List.append_assoc], hu, hb⟩
      · rintro ⟨t, as, u, hw, hs, hu, hb⟩
        cases as with
        | nil =>
          obtain rfl := words_nil_iff.mp hw
          exact .inl (by rw [hs]; exact hb)
        | cons a as =>
          obtain ⟨v, w, hv, hw', rfl⟩ := words_cons_iff.mp hw
          have hlen := congrArg List.length hs
          have hpos := List.length_pos_of_ne_nil (hne v a hv)
          simp only [List.length_append, List.length_cons] at hlen hf
          refine .inr ⟨a, w ++ u, (hp _ _ _).mpr ⟨v, hv, by rw [hs, List.append_assoc]⟩, ?_⟩
          rw [bind_eq_outOfBounds]
          exact .inl ((ih (by simp only [List.length_append]; omega)).mpr ⟨w, as, u, hw', rfl, hu, hb⟩)

theorem untilEmpty_terminates (hp : Accepts p R) (hne : ∀ t a, R t a → t ≠ []) (ht : Terminates p)
    {fuel : ℕ} {s : List σ} (hf : s.length ≤ fuel) : untilEmpty p fuel s ≠ .diverges := by
  induction fuel generalizing s with
  | zero =>
    obtain rfl : s = [] := List.eq_nil_of_length_eq_zero (Nat.le_zero.mp hf)
    simp
  | succ fuel ih =>
    cases s with
    | nil => simp
    | cons x xs =>
      rw [untilEmpty_cons]
      intro h
      rcases bind_eq_diverges.mp h with h | ⟨a, m, ha, h⟩
      · exact ht _ h
      · obtain ⟨t, hta, hs⟩ := (hp _ _ _).mp ha
        have hlen := congrArg List.length hs
        have hpos := List.length_pos_of_ne_nil (hne t a hta)
        simp only [List.length_append, List.length_cons] at hlen hf
        simp only [bind_eq_diverges, pure_apply, reduceCtorEq, and_false, exists_false,
          or_false] at h
        exact ih (by omega) h

end Loop

end Silkworm.ViewParsers
