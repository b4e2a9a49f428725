import Mathlib.Data.Nat.Digits.Lemmas

/-!
# Minimal big-endian byte strings

The bytes of a natural number, most significant first and without leading zeros.
Zero is the empty string. The two directions are mutually inverse on strings that
do not start with a zero byte, so a decoder that rejects leading zeros accepts
exactly one string for each number.
-/

namespace Silkworm.BigEndian

abbrev Bytes := List UInt8

/-- The minimal big-endian bytes of `n`. -/
def bigEndian (n : ℕ) : Bytes := ((Nat.digits 256 n).map UInt8.ofNat).reverse

/-- The number that a big-endian string denotes, leading zeros allowed. -/
def ofBigEndian (b : Bytes) : ℕ := Nat.ofDigits 256 (b.reverse.map UInt8.toNat)

theorem toNat_lt (b : UInt8) : b.toNat < 256 := b.toNat_lt

theorem toNat_ofNat {n : ℕ} (h : n < 256) : (UInt8.ofNat n).toNat = n := by
  simp [Nat.mod_eq_of_lt h]

private theorem toNat_map_digits (n : ℕ) :
    ((Nat.digits 256 n).map UInt8.ofNat).map UInt8.toNat = Nat.digits 256 n := by
  rw [List.map_map]
  conv_rhs => rw [← List.map_id (Nat.digits 256 n)]
  apply List.map_congr_left
  intro d hd
  exact toNat_ofNat (Nat.digits_lt_base (by norm_num) hd)

private theorem ofNat_map_toNat (b : Bytes) : (b.map UInt8.toNat).map UInt8.ofNat = b := by
  rw [List.map_map]
  conv_rhs => rw [← List.map_id b]
  apply List.map_congr_left
  intro x _
  simp

@[simp] theorem bigEndian_zero : bigEndian 0 = [] := by simp [bigEndian]

@[simp] theorem ofBigEndian_nil : ofBigEndian [] = 0 := by simp [ofBigEndian]

@[simp] theorem ofBigEndian_bigEndian (n : ℕ) : ofBigEndian (bigEndian n) = n := by
  simp only [ofBigEndian, bigEndian, List.reverse_reverse, toNat_map_digits, Nat.ofDigits_digits]

theorem bigEndian_ofBigEndian {b : Bytes} (h : ∀ x, b.head? = some x → x ≠ 0) :
    bigEndian (ofBigEndian b) = b := by
  have hd : Nat.digits 256 (ofBigEndian b) = b.reverse.map UInt8.toNat := by
    apply Nat.digits_ofDigits 256 (by norm_num)
    · intro l hl
      obtain ⟨x, -, rfl⟩ := List.mem_map.mp hl
      exact toNat_lt x
    · intro hne
      cases b with
      | nil => simp at hne
      | cons x xs =>
        have hx := h x rfl
        simpa [List.getLast_map] using fun h0 : x.toNat = 0 => hx (UInt8.toNat_inj.mp (by simpa using h0))
  rw [bigEndian, hd, ofNat_map_toNat, List.reverse_reverse]

theorem ofBigEndian_lt (b : Bytes) : ofBigEndian b < 256 ^ b.length := by
  have h := Nat.ofDigits_lt_base_pow_length (b := 256) (l := b.reverse.map UInt8.toNat) (by norm_num)
    (by intro x hx; obtain ⟨y, -, rfl⟩ := List.mem_map.mp hx; exact toNat_lt y)
  simpa [ofBigEndian] using h

theorem length_bigEndian_le {n k : ℕ} : (bigEndian n).length ≤ k ↔ n < 256 ^ k := by
  simp only [bigEndian, List.length_reverse, List.length_map]
  exact Nat.digits_length_le_iff (by norm_num) n

theorem lt_length_bigEndian {n k : ℕ} : k < (bigEndian n).length ↔ 256 ^ k ≤ n := by
  have h := length_bigEndian_le (n := n) (k := k)
  omega

theorem bigEndian_head_ne_zero (n : ℕ) : ∀ x, (bigEndian n).head? = some x → x ≠ 0 := by
  intro x hx h0
  subst h0
  rcases Nat.eq_zero_or_pos n with rfl | hn
  · simp at hx
  have hne : Nat.digits 256 n ≠ [] := Nat.digits_ne_nil_iff_ne_zero.mpr (by omega)
  have hl := Nat.getLast_digit_ne_zero 256 (m := n) (by omega)
  simp only [bigEndian, List.head?_reverse, List.getLast?_map, List.getLast?_eq_some_getLast hne,
    Option.map_some, Option.some.injEq] at hx
  apply hl
  have hlt := Nat.digits_lt_base (b := 256) (by norm_num) (List.getLast_mem hne)
  rw [← toNat_ofNat hlt, hx]
  rfl

theorem bigEndian_ne_nil {n : ℕ} (h : n ≠ 0) : bigEndian n ≠ [] := by
  simpa [bigEndian] using Nat.digits_ne_nil_iff_ne_zero.mpr h

theorem bigEndian_injective {m n : ℕ} (h : bigEndian m = bigEndian n) : m = n := by
  rw [← ofBigEndian_bigEndian m, h, ofBigEndian_bigEndian]

/-- A number below the base is its own single byte. -/
theorem bigEndian_of_lt {n : ℕ} (h0 : n ≠ 0) (h : n < 256) : bigEndian n = [UInt8.ofNat n] := by
  simp [bigEndian, Nat.digits_of_lt 256 n h0 h]

/-- The big-endian bytes of a number in a fixed width. -/
def fixedBigEndian (k n : ℕ) : Bytes :=
  List.replicate (k - (bigEndian n).length) 0 ++ bigEndian n

theorem length_fixedBigEndian {k n : ℕ} (h : n < 256 ^ k) : (fixedBigEndian k n).length = k := by
  have hle := length_bigEndian_le.mpr h
  rw [fixedBigEndian, List.length_append, List.length_replicate]
  omega

/-- Zeros in front do not count. -/
theorem ofBigEndian_replicate_append (m : ℕ) (b : Bytes) :
    ofBigEndian (List.replicate m 0 ++ b) = ofBigEndian b := by
  have hzero (m : ℕ) : Nat.ofDigits 256 (List.replicate m 0) = 0 := by
    induction m with
    | zero => rfl
    | succ m ih => rw [List.replicate_succ, Nat.ofDigits_cons, ih]
  rw [ofBigEndian, List.reverse_append, List.map_append, Nat.ofDigits_append,
    List.reverse_replicate, List.map_replicate]
  simp only [UInt8.toNat_zero, hzero, Nat.mul_zero, Nat.add_zero]
  rfl

theorem ofBigEndian_replicate (m : ℕ) : ofBigEndian (List.replicate m 0) = 0 := by
  have h := ofBigEndian_replicate_append m []
  rw [List.append_nil] at h
  rw [h, ofBigEndian_nil]

@[simp] theorem ofBigEndian_fixedBigEndian (k n : ℕ) : ofBigEndian (fixedBigEndian k n) = n := by
  rw [fixedBigEndian, ofBigEndian_replicate_append, ofBigEndian_bigEndian]

theorem ofBigEndian_append (a b : Bytes) :
    ofBigEndian (a ++ b) = ofBigEndian b + 256 ^ b.length * ofBigEndian a := by
  rw [ofBigEndian, List.reverse_append, List.map_append, Nat.ofDigits_append, List.length_map,
    List.length_reverse]
  rfl

theorem ofBigEndian_cons (x : UInt8) (b : Bytes) :
    ofBigEndian (x :: b) = ofBigEndian b + 256 ^ b.length * x.toNat := by
  rw [ofBigEndian, List.reverse_cons, List.map_append, Nat.ofDigits_append, List.length_map,
    List.length_reverse, List.map_singleton, Nat.ofDigits_singleton]
  rfl

theorem eq_of_ofBigEndian {b b' : Bytes} (hlen : b.length = b'.length)
    (h : ofBigEndian b = ofBigEndian b') : b = b' := by
  have hlt (b : Bytes) : ∀ n ∈ b.reverse.map UInt8.toNat, n < 256 := by
    intro n hn
    obtain ⟨x, -, rfl⟩ := List.mem_map.mp hn
    exact x.toNat_lt
  have hdigits := Nat.ofDigits_inj_of_len_eq (by norm_num) (by simp [hlen]) (hlt b) (hlt b') h
  exact List.reverse_inj.mp (List.map_injective_iff.mpr (fun _ _ => UInt8.toNat_inj.mp) hdigits)

/-- Bytes of the width are those of their number. -/
theorem fixedBigEndian_ofBigEndian {k : ℕ} {b : Bytes} (h : b.length = k) :
    fixedBigEndian k (ofBigEndian b) = b := by
  have hlt := ofBigEndian_lt b
  rw [h] at hlt
  apply eq_of_ofBigEndian
  · rw [length_fixedBigEndian hlt, h]
  · exact ofBigEndian_fixedBigEndian k (ofBigEndian b)

/-- Among bytes of one length the order is that of the numbers. -/
theorem lt_iff_ofBigEndian_lt {b b' : Bytes} (h : b.length = b'.length) :
    b < b' ↔ ofBigEndian b < ofBigEndian b' := by
  induction b generalizing b' with
  | nil =>
    cases List.length_eq_zero_iff.mp h.symm
    simp
  | cons x b ih =>
    cases b' with
    | nil => cases h
    | cons x' b' =>
      have hlen : b.length = b'.length := Nat.succ.inj h
      have hb := ofBigEndian_lt b
      have hb' := ofBigEndian_lt b'
      rw [List.cons_lt_cons_iff, ih hlen, ofBigEndian_cons, ofBigEndian_cons, hlen,
        UInt8.lt_iff_toNat_lt, ← UInt8.toNat_inj]
      rw [hlen] at hb
      rcases lt_trichotomy x.toNat x'.toNat with hlt | heq | hgt
      · have := Nat.mul_le_mul_left (256 ^ b'.length) (Nat.succ_le_of_lt hlt)
        rw [Nat.mul_succ] at this
        refine iff_of_true (.inl hlt) ?_
        omega
      · simp [heq]
      · have := Nat.mul_le_mul_left (256 ^ b'.length) (Nat.succ_le_of_lt hgt)
        rw [Nat.mul_succ] at this
        refine iff_of_false (by omega) ?_
        omega

end Silkworm.BigEndian
