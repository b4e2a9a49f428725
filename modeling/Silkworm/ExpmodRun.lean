import Silkworm.Expmod

/-!
# The result of the modular exponentiation

The run reads the low words of the lengths and relies on the gas for their bounds. Before Berlin
the gas does not bound the length of an exponent of one byte long numbers, so that the sum of the
lengths may wrap, or a string of that length may not exist.
-/

namespace Silkworm.Precompiled
open BigEndian

section Run

/-- `mpz_import` and `remove_prefix` of the bytes of a number. -/
def importNumber (buffer : Bytes) (input : PaddedView) (len : Uint64) : Option (ℕ × PaddedView) :=
  if len = 0 then some (0, input)
  else if input.length < len.toNat then none
  else do
    let rest ← input.removePrefix len.toNat
    some (ofBigEndian ((input.bytes buffer).take len.toNat), rest)

/-- `Bytes(n, '\0')`. -/
def zeroBytes (limit : MaxSize) (n : ℕ) : Option Bytes := resizeBytes limit [] n

/-- `mpz_export` writes the bytes of the number to the front of `out`, the lowest first. -/
def exportNumber (limit : MaxSize) (size n : ℕ) : Option Bytes := do
  let out ← zeroBytes limit size
  let digits := (Nat.digits 256 n).map UInt8.ofNat
  if size < digits.length then none else some (moveTo out 0 digits).reverse

/-- The numbers of the padded input and their power. -/
def powerOf (limit : MaxSize) (buffer : Bytes) (input : PaddedView)
    (baseLen exponentLen modulusLen : Uint64) : Option Bytes := do
  let (base, input) ← importNumber buffer input baseLen
  let (exponent, input) ← importNumber buffer input exponentLen
  let (modulus, _) ← importNumber buffer input modulusLen
  if modulus = 0 then zeroBytes limit modulusLen.toNat
  else exportNumber limit modulusLen.toNat (base ^ exponent % modulus)

def expmodRun (limit : MaxSize) (input : Bytes) : Option Bytes := do
  let (input, buffer) ← rightPad limit (.outside input) (3 * 32) []
  let baseLen : Uint64 ← loadBig buffer input 24 8
  let input ← input.removePrefix 32
  let exponentLen : Uint64 ← loadBig buffer input 24 8
  let input ← input.removePrefix 32
  let modulusLen : Uint64 ← loadBig buffer input 24 8
  let input ← input.removePrefix 32
  if modulusLen = 0 then some []
  else
    let (input, buffer) ← rightPad limit input (baseLen + exponentLen + modulusLen).toNat buffer
    powerOf limit buffer input baseLen exponentLen modulusLen

end Run

section Specification

variable (limit : MaxSize) (input : Bytes)

/-- The low 64 bits of a length. -/
def lowLength (k : ℕ) : ℕ := ofBigEndian (zeroExtended input (32 * k + 24) 8)

/-- The number after the given bytes of the input. -/
def numberAt (start len : ℕ) : ℕ := ofBigEndian (zeroExtended input (96 + start) len)

def exactOutput : Bytes :=
  let baseLen := lowLength input 0
  let exponentLen := lowLength input 1
  let modulusLen := lowLength input 2
  let modulus := numberAt input (baseLen + exponentLen) modulusLen
  if modulus = 0 then List.replicate modulusLen 0
  else fixedBigEndian modulusLen
    (numberAt input 0 baseLen ^ numberAt input baseLen exponentLen % modulus)

/-- The sum of the lengths is a word, no import leaves the input, and the output is the power. -/
structure RunExact : Prop where
  sum_lt : lowLength input 0 + lowLength input 1 + lowLength input 2 < 2 ^ 64
  output : expmodRun limit input = some (exactOutput input)
  length : (exactOutput input).length = lowLength input 2

/-- The gas as an `int64_t` is between 0 and the gas of the message. -/
def GasPaid (gas messageGas : Uint64) : Prop := 0 ≤ gas.toInt ∧ gas.toInt ≤ messageGas.toInt

/-- Numbers of at most one byte, not both empty, and an exponent whose length makes the sum wrap,
before Berlin. -/
def ExponentTooLong (rev : Revision) : Prop :=
  ¬.berlin ≤ rev ∧ lowLength input 0 ≤ 1 ∧ lowLength input 2 ≤ 1 ∧
    1 ≤ lowLength input 0 + lowLength input 2 ∧
    2 ^ 64 - (lowLength input 0 + lowLength input 2) ≤ lowLength input 1

/-- The padded input and the output are not too long for a string. An input that already has all
the bytes is not padded. -/
def FitsStrings : Prop :=
  lowLength input 2 = 0 ∨
    lowLength input 0 + lowLength input 1 + lowLength input 2 ≤ limit.value ∨
    lowLength input 2 ≤ limit.value ∧
      lowLength input 0 + lowLength input 1 + lowLength input 2 ≤ input.length - 96

end Specification

section Imports

variable {limit : MaxSize} {buffer : Bytes} {view : PaddedView}

theorem importNumber_spec (hv : view.Valid buffer) (len : Uint64) (hlen : len.toNat ≤ view.length) :
    ∃ rest, importNumber buffer view len =
        some (ofBigEndian ((view.bytes buffer).take len.toNat), rest) ∧
      rest.Valid buffer ∧ rest.bytes buffer = (view.bytes buffer).drop len.toNat ∧
      rest.length = view.length - len.toNat := by
  rw [importNumber]
  by_cases hzero : len = 0
  · have hnat : len.toNat = 0 := by
      rw [hzero]
      rfl
    refine ⟨view, ?_, hv, ?_, ?_⟩
    · rw [if_pos hzero, hnat, List.take_zero, ofBigEndian_nil]
    · rw [hnat, List.drop_zero]
    · rw [hnat, Nat.sub_zero]
  · obtain ⟨rest, hrest, hvalid, hbytes, hlength, -⟩ := PaddedView.removePrefix_eq hlen
    refine ⟨rest, ?_, hvalid hv, hbytes hv, hlength⟩
    rw [if_neg hzero, if_neg (Nat.not_lt.mpr hlen), hrest]
    rfl

theorem zeroBytes_of_le {n : ℕ} (h : n ≤ limit.value) :
    zeroBytes limit n = some (List.replicate n 0) := by
  have hnil : ([] : Bytes).length ≤ n := Nat.zero_le n
  rw [zeroBytes, resizeBytes_of_ge h hnil]
  simp [padRight]

/-- A number that fits is exported in a fixed width. -/
theorem exportNumber_eq {size n : ℕ} (hsize : size ≤ limit.value) (h : n < 256 ^ size) :
    exportNumber limit size n = some (fixedBigEndian size n) := by
  have hlen : (bigEndian n).length ≤ size := length_bigEndian_le.mpr h
  have hdigits : ((Nat.digits 256 n).map UInt8.ofNat).length = (bigEndian n).length := by
    rw [bigEndian, List.length_reverse]
  rw [exportNumber, zeroBytes_of_le hsize, Option.bind_eq_bind, Option.bind_some, if_neg (by omega),
    moveTo, List.take_zero, List.nil_append, Nat.zero_add, hdigits, List.drop_replicate,
    List.reverse_append, List.reverse_replicate, fixedBigEndian, bigEndian]

end Imports

section Runs

variable (limit : MaxSize) (input : Bytes)

/-- What is left modulo a number fits into its bytes. -/
theorem mod_numberAt_lt {start len x : ℕ} (h : numberAt input start len ≠ 0) :
    x % numberAt input start len < 256 ^ len := by
  have hlt := ofBigEndian_lt (zeroExtended input (96 + start) len)
  rw [length_zeroExtended] at hlt
  exact (Nat.mod_lt _ (Nat.pos_of_ne_zero h)).trans hlt

theorem length_exactOutput : (exactOutput input).length = lowLength input 2 := by
  rw [exactOutput]
  split
  · exact List.length_replicate
  · rename_i hmod
    exact length_fixedBigEndian (mod_numberAt_lt input hmod)

/-- The view of the input after some of the leading words. -/
theorem removeWord {view : PaddedView} {buffer : Bytes} (pos : ℕ) (hv : view.Valid buffer)
    (hbytes : view.bytes buffer = (padRight input 96).drop pos) (hpos : pos + 32 ≤ 96)
    (hlen : view.length = (padRight input 96).length - pos) :
    (∃ x : Uint64, loadBig buffer view 24 8 = some x ∧
      x.toNat = ofBigEndian (zeroExtended input (pos + 24) 8)) ∧
    ∃ rest, view.removePrefix 32 = some rest ∧ rest.Valid buffer ∧
      rest.bytes buffer = (padRight input 96).drop (pos + 32) ∧
      rest.length = (padRight input 96).length - (pos + 32) := by
  have hpadded : 96 ≤ (padRight input 96).length := length_padRight_of_le
  constructor
  · obtain ⟨x, hx, hvalue⟩ := loadBig_spec hv 24 8 (by omega)
    rw [hbytes, zeroExtended_drop, zeroExtended_padRight] at hvalue
    exact ⟨x, hx, hvalue⟩
  · obtain ⟨rest, hrest, hvalid, hrest_bytes, hlength, -⟩ :=
      PaddedView.removePrefix_eq (show 32 ≤ view.length by omega)
    refine ⟨rest, hrest, hvalid hv, ?_, ?_⟩
    · rw [hrest_bytes hv, hbytes, List.drop_drop]
    · omega

/-- The numbers in a padded view of the rest of the input. -/
theorem take_drop_padded {rest : Bytes} (hrest : rest = (padRight input 96).drop 96)
    (start len : ℕ) {n : ℕ} (h : start + len ≤ n) :
    ofBigEndian (((padRight rest n).drop start).take len) = numberAt input start len := by
  have hlen : n ≤ (padRight rest n).length := length_padRight_of_le
  rw [take_drop_eq_zeroExtended _ _ _ (by omega), zeroExtended_padRight, hrest, zeroExtended_drop,
    zeroExtended_padRight, numberAt]

/-- What is left of the input after the lengths. -/
structure AfterLengths (view : PaddedView) (buffer : Bytes) (baseLen exponentLen modulusLen : Uint64) :
    Prop where
  base : baseLen.toNat = lowLength input 0
  exponent : exponentLen.toNat = lowLength input 1
  modulus : modulusLen.toNat = lowLength input 2
  valid : view.Valid buffer
  bytes : view.bytes buffer = (padRight input 96).drop 96
  length : view.length = input.length - 96
  run : expmodRun limit input =
    if modulusLen = 0 then some []
    else (rightPad limit view (baseLen + exponentLen + modulusLen).toNat buffer).bind fun padded =>
      powerOf limit padded.2 padded.1 baseLen exponentLen modulusLen

theorem exists_afterLengths : ∃ view buffer baseLen exponentLen modulusLen,
    AfterLengths limit input view buffer baseLen exponentLen modulusLen := by
  obtain ⟨⟨view₀, buffer⟩, hpadded, hvalid₀, hbytes₀, -⟩ := paddedInput_spec limit input
  have hlen₀ := PaddedView.length_bytes hvalid₀
  rw [hbytes₀] at hlen₀
  obtain ⟨⟨base, hbase, hbase_eq⟩, view₁, hview₁, hvalid₁, hbytes₁, hlen₁⟩ :=
    removeWord input 0 hvalid₀ hbytes₀ (by norm_num) hlen₀.symm
  obtain ⟨⟨exp, hexp, hexp_eq⟩, view₂, hview₂, hvalid₂, hbytes₂, hlen₂⟩ :=
    removeWord input _ hvalid₁ hbytes₁ (by norm_num) hlen₁
  obtain ⟨⟨mod, hmod, hmod_eq⟩, view₃, hview₃, hvalid₃, hbytes₃, hlen₃⟩ :=
    removeWord input _ hvalid₂ hbytes₂ (by norm_num) hlen₂
  have hrest : view₃.length = input.length - 96 := by
    rw [hlen₃, length_padRight]
    omega
  refine ⟨view₃, buffer, base, exp, mod, hbase_eq, hexp_eq, hmod_eq, hvalid₃, hbytes₃, hrest, ?_⟩
  dsimp only at hbase hview₁
  rw [expmodRun, hpadded]
  simp only [Option.bind_eq_bind, Option.bind_some, hbase, hview₁, hexp, hview₂, hmod, hview₃]

variable {limit input}
variable {view padded : PaddedView} {buffer buffer' : Bytes} {baseLen exponentLen modulusLen : Uint64}

/-- The imports are inside the padded input, and the output has the length of the modulus. -/
theorem AfterLengths.powerOf_eq
    (h : AfterLengths limit input view buffer baseLen exponentLen modulusLen)
    (hvalid : padded.Valid buffer') (hpadded : padded.bytes buffer' = padRight (view.bytes buffer)
      (lowLength input 0 + lowLength input 1 + lowLength input 2)) :
    powerOf limit buffer' padded baseLen exponentLen modulusLen =
      if lowLength input 2 ≤ limit.value then some (exactOutput input) else none := by
  obtain ⟨n, hn⟩ : ∃ n, n = lowLength input 0 + lowLength input 1 + lowLength input 2 := ⟨_, rfl⟩
  obtain ⟨hbase, hexp, hmod, -, hbytes, -, -⟩ := h
  rw [← hn] at hpadded
  have hlen := PaddedView.length_bytes hvalid
  rw [hpadded, length_padRight] at hlen
  obtain ⟨view₁, hbase_run, hvalid₁, hbytes₁, hlen₁⟩ :=
    importNumber_spec hvalid baseLen (by omega)
  obtain ⟨view₂, hexp_run, hvalid₂, hbytes₂, hlen₂⟩ :=
    importNumber_spec hvalid₁ exponentLen (by omega)
  obtain ⟨view₃, hmod_run, -⟩ := importNumber_spec hvalid₂ modulusLen (by omega)
  have hbase_value := take_drop_padded input hbytes 0 (lowLength input 0) (show _ ≤ n by omega)
  have hexp_value := take_drop_padded input hbytes (lowLength input 0) (lowLength input 1)
    (show _ ≤ n by omega)
  have hmod_value := take_drop_padded input hbytes (lowLength input 0 + lowLength input 1)
    (lowLength input 2) hn.ge
  rw [hpadded, hbase, ← List.drop_zero (l := padRight _ _), hbase_value] at hbase_run
  rw [hbytes₁, hpadded, hbase, hexp, hexp_value] at hexp_run
  rw [hbytes₂, hbytes₁, hpadded, hbase, hexp, List.drop_drop, hmod, hmod_value] at hmod_run
  rw [powerOf]
  simp only [Option.bind_eq_bind, hbase_run, hexp_run, hmod_run, Option.bind_some, hmod]
  rw [exactOutput]
  by_cases hsize : lowLength input 2 ≤ limit.value
  · rw [if_pos hsize]
    by_cases hmodulus : numberAt input (lowLength input 0 + lowLength input 1)
        (lowLength input 2) = 0
    · rw [if_pos hmodulus, if_pos hmodulus, zeroBytes_of_le hsize]
    · rw [if_neg hmodulus, if_neg hmodulus]
      exact exportNumber_eq hsize (mod_numberAt_lt input hmodulus)
  · have hnone : zeroBytes limit (lowLength input 2) = none :=
      resizeBytes_eq_none (Nat.not_le.mp hsize)
    rw [if_neg hsize, exportNumber, hnone]
    split <;> rfl

/-- If the sum of the lengths does not wrap, the run gives the power where the strings fit. -/
theorem expmodRun_eq (h : lowLength input 0 + lowLength input 1 + lowLength input 2 < 2 ^ 64) :
    (FitsStrings limit input → expmodRun limit input = some (exactOutput input)) ∧
      (¬FitsStrings limit input → expmodRun limit input = none) := by
  obtain ⟨view, buffer, baseLen, exponentLen, modulusLen, hafter⟩ := exists_afterLengths limit input
  have hmod := hafter.modulus
  have hlen := hafter.length
  rw [hafter.run]
  by_cases hzero : modulusLen = 0
  · have hnat : lowLength input 2 = 0 := by
      rw [← hmod, hzero]
      rfl
    have hnumber (start : ℕ) : numberAt input start 0 = 0 := rfl
    refine ⟨fun _ => ?_, fun hfits => absurd (.inl hnat) hfits⟩
    rw [if_pos hzero, exactOutput, hnat, hnumber, if_pos rfl, List.replicate_zero]
  · have hpos : lowLength input 2 ≠ 0 := fun hnat =>
      hzero (BitVec.eq_of_toNat_eq (hmod.trans hnat))
    obtain ⟨n, hn⟩ : ∃ n, n = lowLength input 0 + lowLength input 1 + lowLength input 2 :=
      ⟨_, rfl⟩
    have hsum : (baseLen + exponentLen + modulusLen).toNat = n := by
      rw [BitVec.toNat_add, BitVec.toNat_add, hafter.base, hafter.exponent, hmod, Nat.mod_add_mod,
        Nat.mod_eq_of_lt h, hn]
    rw [if_neg hzero, hsum, FitsStrings, ← hn]
    by_cases hlong : limit.value < n ∧ view.length < n
    · -- The buffer can not be as long as the lengths say.
      rw [rightPad_eq_none hlong.1 hlong.2]
      refine ⟨?_, fun _ => rfl⟩
      rintro (hnat | hle | ⟨-, hle⟩)
      · exact absurd hnat hpos
      · omega
      · omega
    · have hfit : n ≤ limit.value ∨ n ≤ view.length := by omega
      obtain ⟨padded, hpad, hpvalid, hpbytes⟩ := rightPad_spec hafter.valid hfit
      rw [hn] at hpbytes
      rw [hpad, Option.bind_some, hafter.powerOf_eq hpvalid hpbytes]
      constructor
      · rintro (hnat | hle | ⟨hle, -⟩)
        · exact absurd hnat hpos
        · exact if_pos (by omega)
        · exact if_pos hle
      · intro hfits
        exact if_neg fun hle => hfits (by omega)

end Runs

section Bounds

variable (input : Bytes)

theorem lowLength_lt (k : ℕ) : lowLength input k < 2 ^ 64 := by
  have hlt := ofBigEndian_lt (zeroExtended input (32 * k + 24) 8)
  rw [length_zeroExtended] at hlt
  exact hlt.trans_eq (by norm_num)

/-- The low word of a length that is a word is the length. -/
theorem lowLength_of_lt {k : ℕ} (h : lengthWord input k < 2 ^ 64) :
    lowLength input k = lengthWord input k := by
  have hlow := lowLength_lt input k
  have hsplit : lengthWord input k =
      lowLength input k + 256 ^ 8 * ofBigEndian (zeroExtended input (32 * k) 24) := by
    rw [lengthWord, zeroExtended_append input (32 * k) 24 8, ofBigEndian_append,
      length_zeroExtended]
    rfl
  omega

theorem sq_div_le_complexityEip198 (n : ℕ) : n * n / 16 ≤ complexityEip198 n := by
  rw [complexityEip198, sq]
  split_ifs <;> omega

theorem four_le_complexityEip198 {n : ℕ} (h : 2 ≤ n) : 4 ≤ complexityEip198 n := by
  have hsq : 2 * 2 ≤ n * n := Nat.mul_le_mul h h
  rw [complexityEip198, sq]
  split_ifs <;> omega

/-- Lengths that add up to more than a word have a price above the greatest positive gas, unless
the numbers are of one byte. -/
theorem lt_exactPrice {rev : Revision} {X : ℕ}
    (hX : X = max (modulusLength input) (baseLength input))
    (hsum : 2 ^ 64 ≤ exponentLength input + 2 * X)
    (hlong : 2 ≤ X ∨ 1 ≤ X ∧ .berlin ≤ rev) : 2 ^ 63 ≤ exactPrice input rev := by
  have hone : 1 ≤ adjustedLength input := le_max_left _ _
  have hexp : 8 * (exponentLength input - 32) ≤ adjustedLength input :=
    (Nat.le_add_right _ _).trans (le_max_right _ _)
  have hprice (c d : ℕ) (hc : 2 ^ 62 ≤ X → 2 ^ 116 ≤ c) (m : ℕ) (hm : m ≤ c)
      (hd : d ≤ m * 7) (hd' : d ≤ 20) (hpos : 0 < d) :
      2 ^ 63 ≤ c * adjustedLength input / d := by
    rw [Nat.le_div_iff_mul_le hpos]
    by_cases hlarge : 2 ^ 62 ≤ X
    · have hmul : c ≤ c * adjustedLength input := Nat.le_mul_of_pos_right c hone
      have hc := hc hlarge
      omega
    · have hlen : 7 * 2 ^ 63 ≤ adjustedLength input := by omega
      have hmul : m * (7 * 2 ^ 63) ≤ c * adjustedLength input := Nat.mul_le_mul hm hlen
      omega
  rw [exactPrice, ← hX]
  split
  · apply le_max_of_le_right
    apply hprice _ 3 _ 1 _ (by norm_num) (by norm_num) (by norm_num)
    · intro hlarge
      have hwords : 2 ^ 58 ≤ (X + 7) / 8 := by omega
      rw [complexityEip2565, sq]
      calc 2 ^ 116 = 2 ^ 58 * 2 ^ 58 := by norm_num
        _ ≤ (X + 7) / 8 * ((X + 7) / 8) := Nat.mul_le_mul hwords hwords
    · have hwords : 1 ≤ (X + 7) / 8 := by omega
      rw [complexityEip2565, sq]
      exact Nat.mul_le_mul hwords hwords
  · rename_i hberlin
    have htwo : 2 ≤ X := hlong.resolve_right fun h => hberlin h.2
    apply hprice _ 20 _ 4 (four_le_complexityEip198 htwo) (by norm_num) (by norm_num) (by norm_num)
    intro hlarge
    have hsq : 2 ^ 62 * 2 ^ 62 ≤ X * X := Nat.mul_le_mul hlarge hlarge
    have hle := sq_div_le_complexityEip198 X
    omega

/-- A paid run whose lengths add up to more than a word has numbers of one byte, before Berlin. -/
theorem exponentTooLong_of_le {rev : Revision} (hgas : exactGas input rev < 2 ^ 63)
    (h : 2 ^ 64 ≤ lowLength input 0 + lowLength input 1 + lowLength input 2) :
    ExponentTooLong input rev := by
  have hexp := lowLength_lt input 1
  rw [exactGas] at hgas
  by_cases hnone : baseLength input = 0 ∧ modulusLength input = 0
  · have hbase := lowLength_of_lt input (k := 0) (hnone.1.trans_lt (by norm_num))
    have hmod := lowLength_of_lt input (k := 2) (hnone.2.trans_lt (by norm_num))
    change _ = baseLength input at hbase
    change _ = modulusLength input at hmod
    omega
  · rw [if_neg hnone] at hgas
    split at hgas
    · rename_i hwords
      obtain ⟨hbase_lt, hexp_lt, hmod_lt, -⟩ := hwords
      have hbase : lowLength input 0 = baseLength input := lowLength_of_lt input hbase_lt
      have hexp' : lowLength input 1 = exponentLength input := lowLength_of_lt input hexp_lt
      have hmod : lowLength input 2 = modulusLength input := lowLength_of_lt input hmod_lt
      obtain ⟨X, hX⟩ : ∃ X, X = max (modulusLength input) (baseLength input) := ⟨_, rfl⟩
      have hshort : ¬(2 ≤ X ∨ 1 ≤ X ∧ .berlin ≤ rev) := fun hlong =>
        absurd (lt_exactPrice input hX (by omega) hlong) (Nat.not_le.mpr hgas)
      have hberlin : ¬.berlin ≤ rev := fun hberlin => hshort (.inr ⟨by omega, hberlin⟩)
      have hsmall : ¬2 ≤ X := fun hlarge => hshort (.inl hlarge)
      exact ⟨hberlin, by omega, by omega, by omega, by omega⟩
    · omega

/-- A paid run is exact if and only if its exponent is not too long and its strings fit. -/
theorem runExact_iff (limit : MaxSize) {rev : Revision} {gas messageGas : Uint64}
    (hgas : expmodGas limit input rev = some gas) (hpaid : GasPaid gas messageGas) :
    RunExact limit input ↔ ¬ExponentTooLong input rev ∧ FitsStrings limit input := by
  obtain ⟨gas', hgas', hexact⟩ := expmodGas_eq limit input rev
  obtain rfl : gas' = gas := Option.some.inj (hgas'.symm.trans hgas)
  have hpositive : exactGas input rev < 2 ^ 63 := by
    have hnonneg := hpaid.1
    rw [BitVec.toInt_eq_toNat_cond, hexact] at hnonneg
    have hlt := gas'.isLt
    rw [hexact] at hlt
    split at hnonneg <;> omega
  constructor
  · intro hrun
    have hsum := hrun.sum_lt
    constructor
    · rintro ⟨-, -, -, hpos, hexp⟩
      omega
    · by_contra hfits
      have hout := hrun.output
      rw [(expmodRun_eq hsum).2 hfits] at hout
      cases hout
  · rintro ⟨hshort, hfits⟩
    have hsum : lowLength input 0 + lowLength input 1 + lowLength input 2 < 2 ^ 64 := by
      by_contra hge
      exact hshort (exponentTooLong_of_le input hpositive (Nat.not_lt.mp hge))
    exact ⟨hsum, (expmodRun_eq hsum).1 hfits, length_exactOutput input⟩

theorem expmodGas_of_exactGas (limit : MaxSize) {rev : Revision} {gas : Uint64}
    (h : exactGas input rev = gas.toNat) : expmodGas limit input rev = some gas := by
  obtain ⟨gas', hgas, hexact⟩ := expmodGas_eq limit input rev
  rw [hgas, BitVec.eq_of_toNat_eq (hexact.trans h)]

/-- 3 ^ 2 modulo 5. -/
def threeSquared : Bytes :=
  List.replicate 31 0 ++ [1] ++ List.replicate 31 0 ++ [1] ++ List.replicate 31 0 ++ [1, 3, 2, 5]

/-- Half of the addresses. -/
def halfOfMemory : MaxSize := ⟨2 ^ 63 - 1, by norm_num⟩

theorem runExact_threeSquared : RunExact halfOfMemory threeSquared := by
  have hgas : expmodGas halfOfMemory threeSquared .byzantium = some 0 :=
    expmodGas_of_exactGas threeSquared halfOfMemory (by decide)
  have hpaid : GasPaid 0 100 := ⟨by decide, by decide⟩
  apply (runExact_iff threeSquared halfOfMemory hgas hpaid).mpr
  constructor
  · intro hlong
    exact absurd hlong.2.2.2.2 (by decide)
  · exact .inr (.inl (by decide))

/-- A base and a modulus of one byte, and an exponent of 2 ^ 64 - 1 bytes. -/
def longExponent : Bytes :=
  List.replicate 31 0 ++ [1] ++ List.replicate 24 0 ++ List.replicate 8 0xff ++
    List.replicate 31 0 ++ [1]

theorem not_runExact_of_paid :
    ¬∀ (limit : MaxSize) (input : Bytes) (rev : Revision) (gas messageGas : Uint64),
      expmodGas limit input rev = some gas → GasPaid gas messageGas → RunExact limit input := by
  intro h
  have hgas : expmodGas halfOfMemory longExponent .byzantium = some 7378697629483820633 :=
    expmodGas_of_exactGas longExponent halfOfMemory (by decide)
  have hpaid : GasPaid 7378697629483820633 0x7fffffffffffffff := ⟨by decide, by decide⟩
  exact absurd (h halfOfMemory longExponent .byzantium _ _ hgas hpaid).sum_lt (by decide)

end Bounds

end Silkworm.Precompiled
