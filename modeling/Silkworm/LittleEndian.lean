import Silkworm.BigEndian

/-!
# Little-endian numbers

The bytes of a number in a fixed width, the lowest first, and the number of given bytes. A byte that
is added to a word where it has none is added to the bytes.
-/

namespace Silkworm.LittleEndian
open BigEndian

def ofLittleEndian (b : Bytes) : ℕ := Nat.ofDigits 256 (b.map UInt8.toNat)

/-- The low `k` bytes of `n`. -/
def littleEndian : ℕ → ℕ → Bytes
  | 0, _ => []
  | k + 1, n => UInt8.ofNat n :: littleEndian k (n / 256)

@[simp] theorem ofLittleEndian_nil : ofLittleEndian [] = 0 := rfl

@[simp] theorem ofLittleEndian_cons (x : UInt8) (b : Bytes) :
    ofLittleEndian (x :: b) = x.toNat + 256 * ofLittleEndian b := by
  rw [ofLittleEndian, List.map_cons, Nat.ofDigits_cons]
  rfl

theorem ofLittleEndian_append (a b : Bytes) :
    ofLittleEndian (a ++ b) = ofLittleEndian a + 256 ^ a.length * ofLittleEndian b := by
  rw [ofLittleEndian, List.map_append, Nat.ofDigits_append, List.length_map]
  rfl

theorem ofLittleEndian_lt (b : Bytes) : ofLittleEndian b < 256 ^ b.length := by
  have hlt := Nat.ofDigits_lt_base_pow_length (b := 256) (l := b.map UInt8.toNat) (by norm_num)
    (by
      intro x hx
      obtain ⟨y, -, rfl⟩ := List.mem_map.mp hx
      exact toNat_lt y)
  rwa [List.length_map] at hlt

@[simp] theorem ofLittleEndian_replicate (k : ℕ) : ofLittleEndian (List.replicate k 0) = 0 := by
  induction k with
  | zero => rfl
  | succ k ih => simp [List.replicate_succ, ih]

@[simp] theorem length_littleEndian (k n : ℕ) : (littleEndian k n).length = k := by
  induction k generalizing n with
  | zero => rfl
  | succ k ih => rw [littleEndian, List.length_cons, ih]

theorem ofLittleEndian_littleEndian (k n : ℕ) :
    ofLittleEndian (littleEndian k n) = n % 256 ^ k := by
  induction k generalizing n with
  | zero => simp [littleEndian, Nat.mod_one]
  | succ k ih => simp [littleEndian, ih, pow_succ', Nat.mod_mul]

theorem littleEndian_ofLittleEndian (b : Bytes) :
    littleEndian b.length (ofLittleEndian b) = b := by
  induction b with
  | nil => rfl
  | cons x b ih =>
    have hlt := toNat_lt x
    have hlow : UInt8.ofNat (x.toNat + 256 * ofLittleEndian b) = x := by
      apply UInt8.toNat_inj.mp
      rw [UInt8.toNat_ofNat', Nat.add_mul_mod_self_left, Nat.mod_eq_of_lt hlt]
    have hrest : (x.toNat + 256 * ofLittleEndian b) / 256 = ofLittleEndian b := by omega
    rw [ofLittleEndian_cons, List.length_cons, littleEndian, hlow, hrest, ih]

theorem littleEndian_add (j k n : ℕ) :
    littleEndian (j + k) n = littleEndian j n ++ littleEndian k (n / 256 ^ j) := by
  induction j generalizing n with
  | zero => simp [littleEndian]
  | succ j ih =>
    rw [Nat.succ_add, littleEndian, ih, littleEndian, List.cons_append, Nat.div_div_eq_div_mul,
      pow_succ']

section Xor

theorem xor_shifted {low high x y k : ℕ} (hlow : low < 2 ^ k) (hx : x < 256) (hy : y < 256) :
    (low + 2 ^ k * (y + 256 * high)) ^^^ (2 ^ k * x) = low + 2 ^ k * ((y ^^^ x) + 256 * high) := by
  have hxy : y ^^^ x < 256 := Nat.xor_lt_two_pow (n := 8) hy hx
  have hinner : (y + 256 * high) ^^^ x = (y ^^^ x) + 256 * high := by
    have hmod : ((y + 256 * high) ^^^ x) % 2 ^ 8 = y ^^^ x := by
      rw [Nat.xor_mod_two_pow, Nat.add_mul_mod_self_left, Nat.mod_eq_of_lt hy, Nat.mod_eq_of_lt hx]
    have hdiv : ((y + 256 * high) ^^^ x) / 2 ^ 8 = high := by
      rw [Nat.xor_div_two_pow, Nat.add_mul_div_left _ _ (by decide), Nat.div_eq_of_lt hy,
        Nat.div_eq_of_lt hx, Nat.xor_zero, Nat.zero_add]
    omega
  have hmod : ((low + 2 ^ k * (y + 256 * high)) ^^^ (2 ^ k * x)) % 2 ^ k = low := by
    rw [Nat.xor_mod_two_pow, Nat.add_mul_mod_self_left, Nat.mul_mod_right, Nat.xor_zero,
      Nat.mod_eq_of_lt hlow]
  have hdiv : ((low + 2 ^ k * (y + 256 * high)) ^^^ (2 ^ k * x)) / 2 ^ k =
      (y ^^^ x) + 256 * high := by
    rw [Nat.xor_div_two_pow, Nat.add_mul_div_left _ _ (Nat.two_pow_pos k),
      Nat.mul_div_cancel_left _ (Nat.two_pow_pos k), Nat.div_eq_of_lt hlow, Nat.zero_add, hinner]
  rw [← hdiv, ← Nat.mod_add_div ((low + 2 ^ k * (y + 256 * high)) ^^^ (2 ^ k * x)) (2 ^ k), hmod,
    hdiv, Nat.add_mul_div_left _ _ (Nat.two_pow_pos k), Nat.div_eq_of_lt hlow, Nat.zero_add]

/-- A byte is changed in the word at its place. -/
theorem ofLittleEndian_set {b : Bytes} {i : ℕ} {y : UInt8} (h : b[i]? = some y) (x : UInt8) :
    ofLittleEndian (b.set i (y ^^^ x)) = ofLittleEndian b ^^^ (2 ^ (8 * i) * x.toNat) := by
  obtain ⟨hi, hy⟩ := List.getElem?_eq_some_iff.mp h
  have hlen : (b.take i).length = i := List.length_take_of_le hi.le
  have hlow := ofLittleEndian_lt (b.take i)
  have hpow : (256 : ℕ) ^ i = 2 ^ (8 * i) := (pow_mul 2 8 i).symm
  have hset : b.set i (y ^^^ x) = b.take i ++ (y ^^^ x) :: b.drop (i + 1) := by
    rw [List.set_eq_take_append_cons_drop, if_pos hi]
  have hsplit : b = b.take i ++ y :: b.drop (i + 1) := by
    rw [← hy, List.getElem_cons_drop, List.take_append_drop]
  rw [hlen, hpow] at hlow
  rw [hset]
  conv_rhs => rw [hsplit]
  simp only [ofLittleEndian_append, ofLittleEndian_cons, hlen, hpow, UInt8.toNat_xor]
  exact (xor_shifted hlow (toNat_lt x) (toNat_lt y)).symm

end Xor

end Silkworm.LittleEndian
