import Mathlib.Algebra.Order.Group.Nat
import Mathlib.Data.List.Basic
import Mathlib.Tactic.Ring

/-!
# Padded blocks

A message is padded with a mark, zeros and the field of its length, and cut into blocks of one size.
The blocks are folded into a state. The whole blocks of the message come first, and one or two
blocks close it.
-/

namespace PaddedBlocks

variable {α σ : Type}

section Blocks

/-- The parts of `n` items, without what is left over. -/
def blocks (n : ℕ) (l : List α) : List (List α) :=
  (List.range (l.length / n)).map fun i => (l.drop (n * i)).take n

variable {n : ℕ} {a l : List α}

@[simp] theorem blocks_nil (n : ℕ) : blocks n ([] : List α) = [] := by
  simp [blocks]

theorem blocks_of_lt (h : l.length < n) : blocks n l = [] := by
  simp [blocks, Nat.div_eq_of_lt h]

theorem blocks_append (hn : 0 < n) (ha : a.length = n) : blocks n (a ++ l) = a :: blocks n l := by
  have hlength : (a ++ l).length / n = l.length / n + 1 := by
    rw [List.length_append, ha, Nat.add_comm n, Nat.add_div_right _ hn]
  rw [blocks, hlength, List.range_succ_eq_map, List.map_cons, List.map_map]
  congr 1
  · rw [Nat.mul_zero, List.drop_zero, ← ha, List.take_left]
  · apply List.map_congr_left
    intro i _
    have hdrop : (a ++ l).drop (n * (i + 1)) = l.drop (n * i) := by
      rw [Nat.mul_succ, Nat.add_comm, ← List.drop_drop, List.drop_left' ha]
    simp only [Function.comp_apply, Nat.succ_eq_add_one, hdrop]

theorem blocks_of_length (hn : 0 < n) (ha : a.length = n) : blocks n a = [a] := by
  have h := blocks_append (l := []) hn ha
  rwa [List.append_nil, blocks_nil] at h

theorem blocks_of_le (hn : 0 < n) (hl : n ≤ l.length) :
    blocks n l = l.take n :: blocks n (l.drop n) := by
  have h := blocks_append (l := l.drop n) hn (List.length_take_of_le hl)
  rwa [List.take_append_drop] at h

/-- An end that fills the last block. -/
theorem blocks_append_of_add_eq (hn : 0 < n) {e : List α} (he : l.length % n + e.length = n) :
    blocks n (l ++ e) = blocks n l ++ [l.drop (n * (l.length / n)) ++ e] := by
  induction hk : l.length / n generalizing l with
  | zero =>
    have hlt := (Nat.div_eq_zero_iff_lt hn).mp hk
    rw [Nat.mod_eq_of_lt hlt] at he
    rw [blocks_of_lt hlt, Nat.mul_zero, List.drop_zero, List.nil_append]
    exact blocks_of_length hn (by rw [List.length_append, he])
  | succ k ih =>
    have hle : n ≤ l.length := by
      by_contra hlt
      rw [Nat.div_eq_of_lt (not_le.mp hlt)] at hk
      exact absurd hk (Nat.succ_ne_zero k).symm
    have hlength : l.length = (l.drop n).length + n := by
      rw [List.length_drop]
      omega
    have hsplit : l ++ e = l.take n ++ (l.drop n ++ e) := by
      rw [← List.append_assoc, List.take_append_drop]
    rw [hlength, Nat.add_mod_right] at he
    rw [hlength, Nat.add_div_right _ hn] at hk
    rw [hsplit, blocks_append hn (List.length_take_of_le hle), ih he (Nat.succ.inj hk),
      blocks_of_le hn hle, List.cons_append, List.drop_drop, Nat.mul_succ, Nat.add_comm (n * k)]

theorem length_of_mem_blocks (h : a ∈ blocks n l) : a.length = n := by
  obtain ⟨i, hi, rfl⟩ := List.mem_map.mp h
  have hle : n * i + n ≤ l.length := by
    have hmul := Nat.mul_le_mul_left n (List.mem_range.mp hi)
    rw [Nat.mul_succ] at hmul
    exact hmul.trans (Nat.mul_div_le _ _)
  rw [List.length_take, List.length_drop]
  omega

/-- An item is in one block, at its place modulo the size. -/
theorem take_drop_set_of_eq {i j : ℕ} (h : j / n = i) (v : α) :
    ((l.set j v).drop (n * i)).take n = ((l.drop (n * i)).take n).set (j % n) v := by
  have hdiv := Nat.mod_add_div j n
  rw [h] at hdiv
  have hle : ¬ j < n * i := by omega
  rw [List.drop_set, if_neg hle, List.take_set, show j - n * i = j % n by omega]

theorem take_drop_set_of_ne {i j : ℕ} (hn : 0 < n) (h : j / n ≠ i) (v : α) :
    ((l.set j v).drop (n * i)).take n = (l.drop (n * i)).take n := by
  rw [List.drop_set]
  split_ifs with hlt
  · rfl
  · have hle : n ≤ j - n * i := by
      rcases Nat.lt_or_gt_of_ne h with hless | hgreater
      · exact absurd ((Nat.div_lt_iff_lt_mul hn).mp hless) (by rwa [Nat.mul_comm i])
      · have hmul := (Nat.le_div_iff_mul_le hn).mp hgreater
        rw [Nat.succ_eq_add_one, Nat.add_mul, Nat.one_mul, Nat.mul_comm i] at hmul
        omega
    rw [List.take_set_of_le hle]

end Blocks

/-- How messages are padded: the sizes of a block and of the length field. -/
structure Scheme (α : Type) where
  blockSize : ℕ
  lengthSize : ℕ
  mark : α
  zero : α
  lengthField : ℕ → List α
  lengthSize_lt : lengthSize < blockSize
  length_lengthField : ∀ n, (lengthField n).length = lengthSize

namespace Scheme

variable (S : Scheme α)

/-- As many zeros as are needed to fill a block. -/
def zeros (n : ℕ) : List α :=
  List.replicate ((2 * S.blockSize - 1 - S.lengthSize - n % S.blockSize) % S.blockSize) S.zero

def pad (message : List α) : List α :=
  message ++ S.mark :: S.zeros message.length ++ S.lengthField message.length

def digest (compress : σ → List α → σ) (s : σ) (message : List α) : σ :=
  (blocks S.blockSize (S.pad message)).foldl compress s

theorem blockSize_pos : 0 < S.blockSize := Nat.zero_lt_of_lt S.lengthSize_lt

/-- What closes a message of length `n` whose last items are `tail`. -/
def closing (n : ℕ) (tail : List α) : List (List α) :=
  if tail.length + 1 + S.lengthSize ≤ S.blockSize then
    [tail ++ S.mark :: List.replicate (S.blockSize - S.lengthSize - 1 - tail.length) S.zero ++
      S.lengthField n]
  else
    [tail ++ S.mark :: List.replicate (S.blockSize - 1 - tail.length) S.zero,
      List.replicate (S.blockSize - S.lengthSize) S.zero ++ S.lengthField n]

theorem blocks_closing {n : ℕ} {tail : List α} (ht : n % S.blockSize = tail.length) :
    blocks S.blockSize (tail ++ S.mark :: S.zeros n ++ S.lengthField n) = S.closing n tail := by
  have hpos := S.blockSize_pos
  have hlt := S.lengthSize_lt
  have hmod := Nat.mod_lt n hpos
  rw [closing, zeros, ht]
  rw [ht] at hmod
  split_ifs with h
  · have hzeros : (2 * S.blockSize - 1 - S.lengthSize - tail.length) % S.blockSize =
        S.blockSize - S.lengthSize - 1 - tail.length := by
      rw [show 2 * S.blockSize - 1 - S.lengthSize - tail.length =
        S.blockSize - S.lengthSize - 1 - tail.length + S.blockSize by omega, Nat.add_mod_right]
      exact Nat.mod_eq_of_lt (by omega)
    rw [hzeros]
    apply blocks_of_length hpos
    simp only [List.length_append, List.length_cons, List.length_replicate, S.length_lengthField]
    omega
  · have hzeros : (2 * S.blockSize - 1 - S.lengthSize - tail.length) % S.blockSize =
        (S.blockSize - 1 - tail.length) + (S.blockSize - S.lengthSize) := by
      rw [Nat.mod_eq_of_lt (by omega)]
      omega
    have hsplit : tail ++ S.mark :: List.replicate ((S.blockSize - 1 - tail.length) +
        (S.blockSize - S.lengthSize)) S.zero ++ S.lengthField n =
        (tail ++ S.mark :: List.replicate (S.blockSize - 1 - tail.length) S.zero) ++
          (List.replicate (S.blockSize - S.lengthSize) S.zero ++ S.lengthField n) := by
      rw [List.replicate_add]
      simp only [List.append_assoc, List.cons_append]
    rw [hzeros, hsplit, blocks_append hpos, blocks_of_length hpos]
    · simp only [List.length_append, List.length_replicate, S.length_lengthField]
      omega
    · simp only [List.length_append, List.length_cons, List.length_replicate]
      omega

/-- The rest of the padded message when `message` is left of one of length `n`. -/
def rest (n : ℕ) (message : List α) : List α :=
  message ++ S.mark :: S.zeros n ++ S.lengthField n

theorem blocks_rest_of_le {n : ℕ} {message : List α} (h : S.blockSize ≤ message.length) :
    blocks S.blockSize (S.rest n message) =
      message.take S.blockSize :: blocks S.blockSize (S.rest n (message.drop S.blockSize)) := by
  have hsplit : S.rest n message =
      message.take S.blockSize ++ S.rest n (message.drop S.blockSize) := by
    rw [rest, rest, List.append_assoc, List.append_assoc, ← List.append_assoc (message.take _),
      List.take_append_drop]
  rw [hsplit, blocks_append S.blockSize_pos (List.length_take_of_le h)]

/-- The whole blocks of the message first, and then its end. -/
theorem blocks_rest {n : ℕ} {message : List α}
    (h : n % S.blockSize = message.length % S.blockSize) :
    blocks S.blockSize (S.rest n message) = blocks S.blockSize message ++
      S.closing n (message.drop (S.blockSize * (message.length / S.blockSize))) := by
  have hpos := S.blockSize_pos
  induction hk : message.length / S.blockSize generalizing message with
  | zero =>
    have hlt := (Nat.div_eq_zero_iff_lt hpos).mp hk
    rw [blocks_of_lt hlt, Nat.mul_zero, List.drop_zero, List.nil_append]
    rw [Nat.mod_eq_of_lt hlt] at h
    exact S.blocks_closing h
  | succ k ih =>
    have hle : S.blockSize ≤ message.length := by
      by_contra hlt
      rw [Nat.div_eq_of_lt (not_le.mp hlt)] at hk
      exact absurd hk (Nat.succ_ne_zero k).symm
    have hlength : message.length = (message.drop S.blockSize).length + S.blockSize := by
      rw [List.length_drop]
      omega
    rw [hlength, Nat.add_mod_right] at h
    rw [hlength, Nat.add_div_right _ hpos] at hk
    rw [S.blocks_rest_of_le hle, ih h (Nat.succ.inj hk), blocks_of_le hpos hle, List.cons_append,
      List.drop_drop, Nat.mul_succ, Nat.add_comm (S.blockSize * k)]

end Scheme

end PaddedBlocks
