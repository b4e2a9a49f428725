import Silkworm.Evm
import Silkworm.PaddedViews
import Mathlib.Data.Nat.Size

/-!
# Modular exponentiation

The precompiled contract: its gas, and its result by the big integers of the library. Reads that
leave a view and strings that are too long are undefined, which is `none`.
-/

namespace Silkworm.Precompiled
open BigEndian

abbrev kGQuadDivisorByzantium : Uint256 := 20
abbrev kGQuadDivisorBerlin : Uint256 := 3

section Words

def sqr (x : Uint256) : Uint256 := x * x

/-- The number of zeros in front of the first bit. -/
def clz (x : Uint256) : ℕ := 256 - x.toNat.size

def countSignificantWords (x : Uint256) : ℕ := (x.toNat.size + 63) / 64

/-- The big-endian number in `k` bytes of a view. -/
def loadBig (buffer : Bytes) (view : PaddedView) (pos k : ℕ) : Option (BitVec (8 * k)) :=
  if view.length < pos + k then none
  else some (BitVec.ofNat (8 * k) (ofBigEndian (((view.bytes buffer).drop pos).take k)))

end Words

section Gas

def multComplexityEip198 (x : Uint256) : Uint256 :=
  if x ≤ 64 then sqr x
  else if x ≤ 1024 then sqr x >>> 2 + 96 * x - 3072
  else sqr x >>> 4 + 480 * x - 199680

/-- The square of the number of words of 8 bytes. -/
def multComplexityEip2565 (maxLength : Uint256) : Uint256 := sqr ((maxLength + 7) >>> 3)

/-- The first 32 bytes of the exponent, which may begin or end behind the input. -/
def loadExpHead (limit : MaxSize) (input : PaddedView) (buffer : Bytes)
    (baseLen64 expLen64 : Uint64) : Option Uint256 := do
  if baseLen64.toNat < input.length then
    let rest ← input.removePrefix baseLen64.toNat
    let (expInput, buffer) ← rightPad limit rest 32 buffer
    let (expInput, buffer) ←
      if expLen64 < 32 then leftPad limit (expInput.first expLen64.toNat) 32 buffer
      else some (expInput, buffer)
    loadBig buffer expInput 0 32
  else some 0

def adjustedExponentLen (expLen256 : Uint256) (bitLen : ℕ) : Uint256 :=
  let len : Uint256 := if 32 < expLen256 then 8 * (expLen256 - 32) else 0
  let len := if 1 < bitLen then len + BitVec.ofNat 256 (bitLen - 1) else len
  if len < 1 then 1 else len

def maxGas : Uint64 := BitVec.allOnes 64

def minGas (rev : Revision) : Uint64 := if .berlin ≤ rev then 200 else 0

def expmodPrice (rev : Revision) (maxLength adjustedLen : Uint256) : Uint64 :=
  let gas :=
    if .berlin ≤ rev then multComplexityEip2565 maxLength * adjustedLen / kGQuadDivisorBerlin
    else multComplexityEip198 maxLength * adjustedLen / kGQuadDivisorByzantium
  if 1 < countSignificantWords gas then maxGas
  else if minGas rev < gas.setWidth 64 then gas.setWidth 64 else minGas rev

def expmodGas (limit : MaxSize) (input : Bytes) (rev : Revision) : Option Uint64 := do
  let (input, buffer) ← rightPad limit (.outside input) (3 * 32) []
  let baseLen256 : Uint256 ← loadBig buffer input 0 32
  let expLen256 : Uint256 ← loadBig buffer input 32 32
  let modLen256 : Uint256 ← loadBig buffer input 64 32
  if baseLen256 = 0 ∧ modLen256 = 0 then some (minGas rev)
  else if 1 < countSignificantWords baseLen256 ∨ 1 < countSignificantWords expLen256 ∨
      1 < countSignificantWords modLen256 then some maxGas
  else
    let input ← input.removePrefix (3 * 32)
    let expHead ← loadExpHead limit input buffer (baseLen256.setWidth 64) (expLen256.setWidth 64)
    let bitLen := 256 - clz expHead
    let maxLength := if modLen256 < baseLen256 then baseLen256 else modLen256
    some (expmodPrice rev maxLength (adjustedExponentLen expLen256 bitLen))

end Gas

section Specification

variable (input : Bytes)

/-- The length in the given one of the three leading words. -/
def lengthWord (k : ℕ) : ℕ := ofBigEndian (zeroExtended input (32 * k) 32)

def baseLength : ℕ := lengthWord input 0

def exponentLength : ℕ := lengthWord input 1

def modulusLength : ℕ := lengthWord input 2

/-- The first bytes of the exponent, at most 32. -/
def exponentHead : ℕ :=
  ofBigEndian (zeroExtended input (96 + baseLength input) (min 32 (exponentLength input)))

/-- The length of the exponent in bits, less one, as both prices estimate it. -/
def adjustedLength : ℕ := max 1 (8 * (exponentLength input - 32) + Nat.log2 (exponentHead input))

def complexityEip198 (x : ℕ) : ℕ :=
  if x ≤ 64 then x ^ 2
  else if x ≤ 1024 then x ^ 2 / 4 + 96 * x - 3072
  else x ^ 2 / 16 + 480 * x - 199680

def complexityEip2565 (x : ℕ) : ℕ := ((x + 7) / 8) ^ 2

/-- The price of EIP-2565 from Berlin on, and of EIP-198 before. -/
def exactPrice (rev : Revision) : ℕ :=
  let maxLength := max (modulusLength input) (baseLength input)
  if .berlin ≤ rev then max 200 (complexityEip2565 maxLength * adjustedLength input / 3)
  else complexityEip198 maxLength * adjustedLength input / 20

def exactGas (rev : Revision) : ℕ :=
  if baseLength input = 0 ∧ modulusLength input = 0 then if .berlin ≤ rev then 200 else 0
  else if baseLength input < 2 ^ 64 ∧ exponentLength input < 2 ^ 64 ∧
      modulusLength input < 2 ^ 64 ∧ exactPrice input rev < 2 ^ 64 then exactPrice input rev
  else 2 ^ 64 - 1

end Specification

section Loads

variable {buffer : Bytes} {view : PaddedView}

theorem loadBig_spec (hv : view.Valid buffer) (pos k : ℕ) (h : pos + k ≤ view.length) :
    ∃ x, loadBig buffer view pos k = some x ∧
      x.toNat = ofBigEndian (zeroExtended (view.bytes buffer) pos k) := by
  have hlen := PaddedView.length_bytes hv
  have hlt := ofBigEndian_lt (zeroExtended (view.bytes buffer) pos k)
  have hpow : 2 ^ (8 * k) = 256 ^ k := by
    rw [pow_mul]
    norm_num
  rw [length_zeroExtended] at hlt
  rw [loadBig, if_neg (Nat.not_lt.mpr h), take_drop_eq_zeroExtended _ _ _ (by omega)]
  refine ⟨_, rfl, ?_⟩
  rw [BitVec.toNat_ofNat, hpow, Nat.mod_eq_of_lt hlt]

theorem one_lt_countSignificantWords (x : Uint256) :
    1 < countSignificantWords x ↔ 2 ^ 64 ≤ x.toNat := by
  rw [countSignificantWords, ← Nat.lt_size]
  omega

theorem sub_clz (x : Uint256) : 256 - clz x = x.toNat.size := by
  have hle : x.toNat.size ≤ 256 := Nat.size_le.mpr x.isLt
  rw [clz]
  omega

theorem size_sub_one (n : ℕ) : n.size - 1 = Nat.log2 n := by
  by_cases hn : n = 0
  · rw [hn]
    decide
  · have hle : n.size ≤ Nat.log2 n + 1 := Nat.size_le.mpr Nat.lt_log2_self
    have hlt : Nat.log2 n < n.size := Nat.lt_size.mpr (Nat.log2_self_le hn)
    omega

end Loads

section Prices

variable {x : Uint256}

theorem toNat_sqr (hx : x.toNat < 2 ^ 64) : (sqr x).toNat = x.toNat * x.toNat := by
  have hlt : x.toNat * x.toNat < 2 ^ 64 * 2 ^ 64 := Nat.mul_lt_mul'' hx hx
  rw [sqr, BitVec.toNat_mul, Nat.mod_eq_of_lt (by omega)]

/-- A square plus a multiple less a constant: the terms of a price. -/
theorem toNat_quadratic (hx : x.toNat < 2 ^ 64) (k : ℕ) {c d : Uint256} (hc : c.toNat ≤ 1024)
    (hd : d.toNat ≤ c.toNat * x.toNat) :
    (sqr x >>> k + c * x - d).toNat = x.toNat * x.toNat / 2 ^ k + c.toNat * x.toNat - d.toNat := by
  have hsq : x.toNat * x.toNat < 2 ^ 64 * 2 ^ 64 := Nat.mul_lt_mul'' hx hx
  have hdiv : x.toNat * x.toNat / 2 ^ k ≤ x.toNat * x.toNat := Nat.div_le_self _ _
  have hmul : c.toNat * x.toNat ≤ 1024 * x.toNat := Nat.mul_le_mul_right _ hc
  have hshift : (sqr x >>> k).toNat = x.toNat * x.toNat / 2 ^ k := by
    rw [BitVec.toNat_ushiftRight, Nat.shiftRight_eq_div_pow, toNat_sqr hx]
  have hprod : (c * x).toNat = c.toNat * x.toNat := by
    rw [BitVec.toNat_mul, Nat.mod_eq_of_lt (by omega)]
  have hsum : (sqr x >>> k + c * x).toNat = x.toNat * x.toNat / 2 ^ k + c.toNat * x.toNat := by
    rw [BitVec.toNat_add, hshift, hprod, Nat.mod_eq_of_lt (by omega)]
  have hle : d ≤ sqr x >>> k + c * x := by
    rw [BitVec.le_def, hsum]
    omega
  rw [BitVec.toNat_sub_of_le hle, hsum]

theorem toNat_multComplexityEip198 (hx : x.toNat < 2 ^ 64) :
    (multComplexityEip198 x).toNat = complexityEip198 x.toNat := by
  have hsmall : x ≤ 64 ↔ x.toNat ≤ 64 := by
    rw [BitVec.le_def]
    rfl
  have hmedium : x ≤ 1024 ↔ x.toNat ≤ 1024 := by
    rw [BitVec.le_def]
    rfl
  rw [multComplexityEip198, complexityEip198]
  by_cases h₁ : x.toNat ≤ 64
  · rw [if_pos (hsmall.mpr h₁), if_pos h₁, toNat_sqr hx, sq]
  · rw [if_neg (mt hsmall.mp h₁), if_neg h₁]
    by_cases h₂ : x.toNat ≤ 1024
    · rw [if_pos (hmedium.mpr h₂), if_pos h₂, sq]
      apply toNat_quadratic hx 2
      · decide
      · change 3072 ≤ 96 * x.toNat
        omega
    · rw [if_neg (mt hmedium.mp h₂), if_neg h₂, sq]
      apply toNat_quadratic hx 4
      · decide
      · change 199680 ≤ 480 * x.toNat
        omega

theorem toNat_multComplexityEip2565 (hx : x.toNat < 2 ^ 64) :
    (multComplexityEip2565 x).toNat = complexityEip2565 x.toNat := by
  have hwords : ((x + 7) >>> 3).toNat = (x.toNat + 7) / 8 := by
    rw [BitVec.toNat_ushiftRight, Nat.shiftRight_eq_div_pow, BitVec.toNat_add,
      Nat.mod_eq_of_lt (by change x.toNat + 7 < 2 ^ 256; omega)]
    rfl
  rw [multComplexityEip2565, toNat_sqr (by rw [hwords]; omega), hwords, complexityEip2565, sq]

/-- Both complexities are small enough for the products of the prices. -/
theorem complexity_lt {n : ℕ} (hn : n < 2 ^ 64) :
    complexityEip198 n < 2 ^ 129 ∧ complexityEip2565 n < 2 ^ 129 := by
  have hsq : n * n < 2 ^ 64 * 2 ^ 64 := Nat.mul_lt_mul'' hn hn
  have hwords : ((n + 7) / 8) * ((n + 7) / 8) < 2 ^ 64 * 2 ^ 64 := by
    apply Nat.mul_lt_mul'' <;> omega
  constructor
  · rw [complexityEip198, sq]
    split_ifs <;> omega
  · rw [complexityEip2565, sq]
    omega

theorem toNat_adjustedExponentLen {expLen256 : Uint256} {head : ℕ}
    (hexp : expLen256.toNat < 2 ^ 64) (hhead : head.size ≤ 256) :
    (adjustedExponentLen expLen256 head.size).toNat =
      max 1 (8 * (expLen256.toNat - 32) + Nat.log2 head) := by
  have hlog := size_sub_one head
  have hlong : 32 < expLen256 ↔ 32 < expLen256.toNat := by
    rw [BitVec.lt_def]
    rfl
  have hbytes : (if 32 < expLen256 then 8 * (expLen256 - 32) else 0 : Uint256).toNat =
      8 * (expLen256.toNat - 32) := by
    by_cases h : 32 < expLen256.toNat
    · have hsub : (expLen256 - 32).toNat = expLen256.toNat - 32 :=
        BitVec.toNat_sub_of_le (BitVec.le_of_lt (hlong.mpr h))
      rw [if_pos (hlong.mpr h), BitVec.toNat_mul, hsub]
      exact Nat.mod_eq_of_lt (by change 8 * _ < _; omega)
    · rw [if_neg (mt hlong.mp h)]
      change 0 = _
      omega
  rw [adjustedExponentLen]
  generalize (if 32 < expLen256 then 8 * (expLen256 - 32) else 0 : Uint256) = len at hbytes ⊢
  have hsum : (if 1 < head.size then len + BitVec.ofNat 256 (head.size - 1) else len).toNat =
      8 * (expLen256.toNat - 32) + Nat.log2 head := by
    split
    · rw [BitVec.toNat_add, BitVec.toNat_ofNat, hbytes, hlog, Nat.mod_eq_of_lt (by omega),
        Nat.mod_eq_of_lt (by omega)]
    · omega
  generalize (if 1 < head.size then len + BitVec.ofNat 256 (head.size - 1) else len) = total at hsum ⊢
  have hone : total < 1 ↔ total.toNat < 1 := by
    rw [BitVec.lt_def]
    rfl
  split
  · rename_i h
    have h := hone.mp h
    change 1 = _
    omega
  · rename_i h
    have h := mt hone.mpr h
    omega

end Prices

section ExactGas

variable {rev : Revision}

theorem toNat_maxGas : maxGas.toNat = 2 ^ 64 - 1 := by decide

/-- A gas that is a word of 64 bits is not less than the minimum, and a larger one saturates. -/
theorem toNat_saturated {gas : Uint256} {price : ℕ}
    (hprice : price = max (minGas rev).toNat gas.toNat) :
    (if 1 < countSignificantWords gas then maxGas
      else if minGas rev < gas.setWidth 64 then gas.setWidth 64 else minGas rev).toNat =
      if price < 2 ^ 64 then price else 2 ^ 64 - 1 := by
  have hmin := (minGas rev).isLt
  have hwords := one_lt_countSignificantWords gas
  by_cases h : 2 ^ 64 ≤ gas.toNat
  · have hlarge : ¬price < 2 ^ 64 := by omega
    rw [if_pos (hwords.mpr h), if_neg hlarge, toNat_maxGas]
  · have hword : (gas.setWidth 64).toNat = gas.toNat := by
      rw [BitVec.toNat_setWidth, Nat.mod_eq_of_lt (by omega)]
    have hsmall : price < 2 ^ 64 := by omega
    rw [if_neg (mt hwords.mp h), if_pos hsmall, hprice]
    by_cases hlt : minGas rev < gas.setWidth 64
    · rw [if_pos hlt, hword]
      rw [BitVec.lt_def, hword] at hlt
      omega
    · rw [if_neg hlt]
      rw [BitVec.lt_def, hword] at hlt
      omega

theorem toNat_product {c a d : Uint256} (hc : c.toNat < 2 ^ 129) (ha : a.toNat < 2 ^ 68) :
    (c * a / d).toNat = c.toNat * a.toNat / d.toNat := by
  have hlt : c.toNat * a.toNat < 2 ^ 129 * 2 ^ 68 := Nat.mul_lt_mul'' hc ha
  rw [BitVec.toNat_udiv, BitVec.toNat_mul, Nat.mod_eq_of_lt (by omega)]

theorem toNat_expmodPrice {maxLength adjustedLen : Uint256} (price : ℕ)
    (hmax : maxLength.toNat < 2 ^ 64) (hadjusted : adjustedLen.toNat < 2 ^ 68)
    (hprice : price = if .berlin ≤ rev then
        max 200 (complexityEip2565 maxLength.toNat * adjustedLen.toNat / 3)
      else complexityEip198 maxLength.toNat * adjustedLen.toNat / 20) :
    (expmodPrice rev maxLength adjustedLen).toNat =
      if price < 2 ^ 64 then price else 2 ^ 64 - 1 := by
  obtain ⟨hlt198, hlt2565⟩ := complexity_lt hmax
  have hmax198 := toNat_multComplexityEip198 hmax
  have hmax2565 := toNat_multComplexityEip2565 hmax
  rw [expmodPrice]
  apply toNat_saturated
  by_cases hberlin : .berlin ≤ rev
  · have hgas := toNat_product (d := kGQuadDivisorBerlin) (hmax2565.symm ▸ hlt2565) hadjusted
    rw [if_pos hberlin] at hprice
    rw [if_pos hberlin, hgas, hmax2565, hprice, minGas, if_pos hberlin]
    rfl
  · have hgas := toNat_product (d := kGQuadDivisorByzantium) (hmax198.symm ▸ hlt198) hadjusted
    rw [if_neg hberlin] at hprice
    rw [if_neg hberlin, hgas, hmax198, hprice, minGas, if_neg hberlin]
    exact (Nat.zero_max _).symm

end ExactGas

section ExactHead

theorem length_padRight_of_le {data : Bytes} {n : ℕ} : n ≤ (padRight data n).length := by
  rw [length_padRight]
  exact le_max_left _ _

theorem zeroExtended_zero_of_length {s : Bytes} {n : ℕ} (h : s.length = n) :
    zeroExtended s 0 n = s := by
  rw [← padRight_eq_zeroExtended h.le, padRight_of_le h.ge]

/-- A few bytes of a view, padded to a word. -/
theorem leftPad_first (limit : MaxSize) {view : PaddedView} {buffer : Bytes}
    (hv : view.Valid buffer) (hlen : 32 ≤ view.length) {n : ℕ} (hn : n ≤ 32) :
    ∃ padded, leftPad limit (view.first n) 32 buffer = some padded ∧ padded.1.Valid padded.2 ∧
      padded.1.bytes padded.2 = padLeft ((view.bytes buffer).take n) 32 ∧
      padded.1.length = 32 := by
  have hlimit : 32 ≤ limit.value := (show 32 ≤ 3 * 32 by norm_num).trans limit.le_value
  have hfit : (view.first n).isInside = true → 32 ≤ buffer.length := by
    intro hin
    rw [PaddedView.isInside_first] at hin
    exact hlen.trans (PaddedView.length_le_of_isInside hv hin)
  obtain ⟨padded, hleft, hvalid, hbytes⟩ := leftPad_spec hv.first hlimit hfit
  rw [PaddedView.bytes_first] at hbytes
  refine ⟨padded, hleft, hvalid, hbytes, ?_⟩
  rw [← PaddedView.length_bytes hvalid, hbytes, length_padLeft, List.length_take]
  omega

/-- The head of the exponent, wherever it begins or ends. -/
theorem loadExpHead_spec (limit : MaxSize) {view : PaddedView} {buffer : Bytes}
    (hv : view.Valid buffer) (baseLen64 expLen64 : Uint64) :
    ∃ x, loadExpHead limit view buffer baseLen64 expLen64 = some x ∧
      x.toNat = ofBigEndian
        (zeroExtended (view.bytes buffer) baseLen64.toNat (min 32 expLen64.toNat)) := by
  have hlen := PaddedView.length_bytes hv
  have hlimit : 32 ≤ limit.value := (show 32 ≤ 3 * 32 by norm_num).trans limit.le_value
  rw [loadExpHead]
  by_cases hbase : baseLen64.toNat < view.length
  · obtain ⟨rest, hrest, hvalid, hbytes, -, -⟩ := PaddedView.removePrefix_eq hbase.le
    obtain ⟨padded, hright, hvalid₁, hbytes₁⟩ := rightPad_spec (hvalid hv) (.inl hlimit)
    have hpadded : 32 ≤ padded.1.length := by
      rw [← PaddedView.length_bytes hvalid₁, hbytes₁]
      exact length_padRight_of_le
    rw [if_pos hbase, hrest, Option.bind_eq_bind, Option.bind_some, hright, Option.bind_eq_bind,
      Option.bind_some]
    dsimp only
    have hshort : expLen64 < 32 ↔ expLen64.toNat < 32 := by
      rw [BitVec.lt_def]
      rfl
    by_cases hexp : expLen64.toNat < 32
    · obtain ⟨padded', hleft, hvalid₂, hbytes₂, hlen₂⟩ := leftPad_first limit hvalid₁ hpadded hexp.le
      obtain ⟨x, hx, hvalue⟩ := loadBig_spec hvalid₂ 0 32 hlen₂.ge
      have htake : (padRight ((view.bytes buffer).drop baseLen64.toNat) 32).take expLen64.toNat =
          zeroExtended (view.bytes buffer) baseLen64.toNat expLen64.toNat := by
        have htake := take_drop_eq_zeroExtended
          (padRight ((view.bytes buffer).drop baseLen64.toNat) 32) 0 expLen64.toNat
          (by rw [length_padRight]; omega)
        rw [List.drop_zero, zeroExtended_padRight, zeroExtended_drop, Nat.add_zero] at htake
        exact htake
      refine ⟨x, ?_, ?_⟩
      · rw [if_pos (hshort.mpr hexp), hleft]
        exact hx
      · rw [hvalue, zeroExtended_zero_of_length (by rw [PaddedView.length_bytes hvalid₂, hlen₂]),
          hbytes₂, hbytes₁, hbytes hv, htake, padLeft, ofBigEndian_replicate_append,
          Nat.min_eq_right (by omega)]
    · obtain ⟨x, hx, hvalue⟩ := loadBig_spec hvalid₁ 0 32 hpadded
      refine ⟨x, ?_, ?_⟩
      · rw [if_neg (mt hshort.mp hexp)]
        exact hx
      · rw [hvalue, hbytes₁, hbytes hv, zeroExtended_padRight, zeroExtended_drop, Nat.add_zero,
          Nat.min_eq_left (by omega)]
  · refine ⟨0, if_neg hbase, ?_⟩
    rw [zeroExtended_of_length_le (by omega), ofBigEndian_replicate]
    rfl

end ExactHead

section ExpmodGas

variable (limit : MaxSize) (input : Bytes)

/-- The padded input, in the buffer if it had to be padded. -/
theorem paddedInput_spec :
    ∃ padded, rightPad limit (.outside input) (3 * 32) [] = some padded ∧
      padded.1.Valid padded.2 ∧ padded.1.bytes padded.2 = padRight input 96 ∧
      96 ≤ padded.1.length := by
  have hinput : (PaddedView.outside input).Valid [] := trivial
  obtain ⟨padded, hpadded, hvalid, hbytes⟩ := rightPad_spec hinput (.inl limit.le_value)
  refine ⟨padded, hpadded, hvalid, hbytes, ?_⟩
  rw [← PaddedView.length_bytes hvalid, hbytes]
  exact length_padRight_of_le

theorem loadBig_paddedInput {view : PaddedView} {buffer : Bytes} (hvalid : view.Valid buffer)
    (hbytes : view.bytes buffer = padRight input 96) (hlen : 96 ≤ view.length) (pos k : ℕ)
    (h : pos + k ≤ 96) :
    ∃ x, loadBig buffer view pos k = some x ∧
      x.toNat = ofBigEndian (zeroExtended input pos k) := by
  obtain ⟨x, hx, hvalue⟩ := loadBig_spec hvalid pos k (by omega)
  rw [hbytes, zeroExtended_padRight] at hvalue
  exact ⟨x, hx, hvalue⟩

theorem toNat_maxLength (a b : Uint256) : (if a < b then b else a).toNat = max a.toNat b.toNat := by
  split
  · rename_i h
    rw [BitVec.lt_def] at h
    omega
  · rename_i h
    rw [BitVec.lt_def] at h
    omega

theorem exponentHead_lt : exponentHead input < 2 ^ 256 := by
  have hlt := ofBigEndian_lt (zeroExtended input (96 + baseLength input)
    (min 32 (exponentLength input)))
  rw [length_zeroExtended] at hlt
  calc exponentHead input < 256 ^ min 32 (exponentLength input) := hlt
    _ ≤ 256 ^ 32 := Nat.pow_le_pow_right (by norm_num) (min_le_left _ _)
    _ = 2 ^ 256 := by norm_num

theorem toNat_minGas (rev : Revision) :
    (minGas rev).toNat = if .berlin ≤ rev then 200 else 0 := by
  rw [minGas]
  split <;> rfl

variable {input} in
/-- The price for lengths that are words of 64 bits. -/
theorem toNat_priceOfLengths {base exp mod head : Uint256} (rev : Revision)
    (hbase : base.toNat = baseLength input) (hexp : exp.toNat = exponentLength input)
    (hmod : mod.toNat = modulusLength input) (hhead : head.toNat = exponentHead input)
    (hbase_lt : base.toNat < 2 ^ 64) (hexp_lt : exp.toNat < 2 ^ 64) (hmod_lt : mod.toNat < 2 ^ 64) :
    (expmodPrice rev (if mod < base then base else mod)
      (adjustedExponentLen exp (256 - clz head))).toNat =
        if exactPrice input rev < 2 ^ 64 then exactPrice input rev else 2 ^ 64 - 1 := by
  have hadjusted : (adjustedExponentLen exp (256 - clz head)).toNat = adjustedLength input := by
    rw [sub_clz, toNat_adjustedExponentLen hexp_lt (Nat.size_le.mpr head.isLt), adjustedLength,
      hexp, hhead]
  have hlog : Nat.log2 (exponentHead input) ≤ 256 := by
    by_cases h : exponentHead input = 0
    · rw [h]
      decide
    · exact ((Nat.log2_lt h).mpr (exponentHead_lt input)).le
  have hmax := toNat_maxLength mod base
  apply toNat_expmodPrice
  · rw [hmax]
    omega
  · rw [hadjusted, adjustedLength]
    omega
  · rw [exactPrice, hmax, hadjusted, hbase, hmod]

theorem expmodGas_eq (rev : Revision) :
    ∃ gas, expmodGas limit input rev = some gas ∧ gas.toNat = exactGas input rev := by
  obtain ⟨⟨view, buffer⟩, hpadded, hvalid, hbytes, hlen⟩ := paddedInput_spec limit input
  obtain ⟨base, hbase, hbase_eq⟩ := loadBig_paddedInput input hvalid hbytes hlen 0 32 (by norm_num)
  obtain ⟨exp, hexp, hexp_eq⟩ := loadBig_paddedInput input hvalid hbytes hlen 32 32 (by norm_num)
  obtain ⟨mod, hmod, hmod_eq⟩ := loadBig_paddedInput input hvalid hbytes hlen 64 32 (by norm_num)
  change base.toNat = baseLength input at hbase_eq
  change exp.toNat = exponentLength input at hexp_eq
  change mod.toNat = modulusLength input at hmod_eq
  have hzero (x : Uint256) : x = 0 ↔ x.toNat = 0 := by
    rw [← BitVec.toNat_inj]
    rfl
  rw [expmodGas, exactGas, ← hbase_eq, ← hexp_eq, ← hmod_eq, hpadded]
  simp only [Option.bind_eq_bind, Option.bind_some]
  rw [hbase, hexp, hmod]
  simp only [Option.bind_some]
  by_cases hnone : base.toNat = 0 ∧ mod.toNat = 0
  · rw [if_pos ⟨(hzero base).mpr hnone.1, (hzero mod).mpr hnone.2⟩, if_pos hnone]
    exact ⟨_, rfl, toNat_minGas rev⟩
  · have hnone' : ¬(base = 0 ∧ mod = 0) := fun h =>
      hnone ⟨(hzero base).mp h.1, (hzero mod).mp h.2⟩
    rw [if_neg hnone', if_neg hnone]
    have hwords : (1 < countSignificantWords base ∨ 1 < countSignificantWords exp ∨
        1 < countSignificantWords mod) ↔
        ¬(base.toNat < 2 ^ 64 ∧ exp.toNat < 2 ^ 64 ∧ mod.toNat < 2 ^ 64) := by
      rw [one_lt_countSignificantWords, one_lt_countSignificantWords, one_lt_countSignificantWords]
      omega
    by_cases hwide : 1 < countSignificantWords base ∨ 1 < countSignificantWords exp ∨
        1 < countSignificantWords mod
    · have hlarge := hwords.mp hwide
      rw [if_pos hwide, if_neg fun h => hlarge ⟨h.1, h.2.1, h.2.2.1⟩]
      exact ⟨_, rfl, toNat_maxGas⟩
    · obtain ⟨hbase_lt, hexp_lt, hmod_lt⟩ := not_not.mp (mt hwords.mpr hwide)
      obtain ⟨rest, hrest, hrest_valid, hrest_bytes, -, -⟩ :=
        PaddedView.removePrefix_eq (n := 3 * 32) hlen
      obtain ⟨head, hhead, hhead_eq⟩ := loadExpHead_spec limit (hrest_valid hvalid)
        (base.setWidth 64) (exp.setWidth 64)
      have hword {x : Uint256} (h : x.toNat < 2 ^ 64) : (x.setWidth 64).toNat = x.toNat := by
        rw [BitVec.toNat_setWidth, Nat.mod_eq_of_lt h]
      rw [hrest_bytes hvalid, hbytes, zeroExtended_drop, zeroExtended_padRight, hword hbase_lt,
        hword hexp_lt, hbase_eq, hexp_eq] at hhead_eq
      change head.toNat = exponentHead input at hhead_eq
      rw [if_neg hwide, hrest]
      simp only [Option.bind_some]
      rw [hhead]
      refine ⟨_, rfl, ?_⟩
      rw [toNat_priceOfLengths rev hbase_eq hexp_eq hmod_eq hhead_eq hbase_lt hexp_lt hmod_lt]
      simp only [hbase_lt, hexp_lt, hmod_lt, true_and]

/-- The gas is the minimum without a base and a modulus, else the price of the revision, and the
greatest gas where a length or the price is no word of 64 bits. -/
theorem expmodGas_exact (rev : Revision) :
    ∃ gas, expmodGas limit input rev = some gas ∧
      (baseLength input = 0 ∧ modulusLength input = 0 → gas = minGas rev) ∧
      (¬(baseLength input = 0 ∧ modulusLength input = 0) →
        (baseLength input < 2 ^ 64 ∧ exponentLength input < 2 ^ 64 ∧
            modulusLength input < 2 ^ 64 ∧ exactPrice input rev < 2 ^ 64 →
          gas.toNat = exactPrice input rev) ∧
        (¬(baseLength input < 2 ^ 64 ∧ exponentLength input < 2 ^ 64 ∧
            modulusLength input < 2 ^ 64 ∧ exactPrice input rev < 2 ^ 64) →
          gas = maxGas)) := by
  obtain ⟨gas, hgas, hexact⟩ := expmodGas_eq limit input rev
  refine ⟨gas, hgas, ?_, ?_⟩
  · intro hnone
    rw [exactGas, if_pos hnone, ← toNat_minGas] at hexact
    exact BitVec.eq_of_toNat_eq hexact
  · intro hsome
    rw [exactGas, if_neg hsome] at hexact
    constructor
    · intro hwords
      rw [hexact, if_pos hwords]
    · intro hwords
      rw [if_neg hwords, ← toNat_maxGas] at hexact
      exact BitVec.eq_of_toNat_eq hexact

end ExpmodGas

end Silkworm.Precompiled
