import Mathlib.Data.Nat.Prime.Basic
import Mathlib.Data.Nat.Sqrt
import Mathlib.Order.Bounds.Defs
import Mathlib.Tactic.Ring

/-!
# The sizes of an epoch

The numbers of items in the light cache and in the full dataset are primes, which are searched from
an upper bound downwards. The products are 64 bits wide, so they do not overflow, and the bounds are
numbers of 32 bits.
-/

namespace Silkworm.Ethash

section Primes

/-- The loop over the odd factors from `d` on. -/
def noFactorFrom (number d : ℕ) : Bool :=
  if d * d ≤ number then
    if number % d = 0 then false else noFactorFrom number (d + 2)
  else true
termination_by number + 1 - d
decreasing_by
  have hle : d ≤ number := by
    rcases Nat.eq_zero_or_pos d with hzero | hpos
    · exact hzero ▸ Nat.zero_le _
    · exact (Nat.le_mul_of_pos_left d hpos).trans ‹_›
  omega

def isUnsignedOddPrime (number : ℕ) : Bool := if number % 2 = 0 then false else noFactorFrom number 3

theorem noFactorFrom_iff {number d : ℕ} (hd : d % 2 = 1) : noFactorFrom number d = true ↔
    ∀ e, e % 2 = 1 → d ≤ e → e * e ≤ number → ¬ e ∣ number := by
  fun_induction noFactorFrom number d with
  | case1 d hle hzero =>
    simp only [Bool.false_eq_true, false_iff, not_forall, not_not]
    exact ⟨d, hd, le_rfl, hle, Nat.dvd_of_mod_eq_zero hzero⟩
  | case2 d hle hne ih =>
    rw [ih (by omega)]
    constructor
    · intro h e he hde
      rcases Nat.lt_or_eq_of_le hde with hlt | heq
      · exact h e he (by omega)
      · subst heq
        intro _ hdvd
        exact hne (Nat.mod_eq_zero_of_dvd hdvd)
    · intro h e he hde
      exact h e he (by omega)
  | case3 d hlt =>
    simp only [true_iff]
    intro e _ hde he
    exact absurd ((Nat.mul_le_mul hde hde).trans he) hlt

theorem isUnsignedOddPrime_one : isUnsignedOddPrime 1 = true := by
  rw [isUnsignedOddPrime, if_neg (by decide), noFactorFrom, if_neg (by decide)]

theorem isUnsignedOddPrime_iff {number : ℕ} (hodd : number % 2 = 1) (h3 : 3 ≤ number) :
    isUnsignedOddPrime number = true ↔ number.Prime := by
  rw [isUnsignedOddPrime, if_neg (by omega), noFactorFrom_iff (by decide), Nat.prime_def_le_sqrt]
  constructor
  · intro h
    refine ⟨by omega, fun m hm hsqrt hdvd => ?_⟩
    have hmodd : m % 2 = 1 := by
      rcases Nat.mod_two_eq_zero_or_one m with heven | hmodd
      · have htwo := (Nat.dvd_of_mod_eq_zero heven).trans hdvd
        omega
      · exact hmodd
    exact h m hmodd (by omega) (Nat.le_sqrt.mp hsqrt) hdvd
  · intro h e _ he hle
    exact h.2 e (by omega) (Nat.le_sqrt.mpr hle)

/-- The loop over the odd numbers. It ends at 1 at the latest, which the test lets pass. -/
def descend (n : ℕ) (hodd : n % 2 = 1) : ℕ :=
  if h : isUnsignedOddPrime n then n
  else
    have hne : n ≠ 1 := fun h1 => h (h1 ▸ isUnsignedOddPrime_one)
    descend (n - 2) (by omega)
termination_by n

def findLargestUnsignedPrime (upperBound : ℕ) : ℕ :=
  if hsmall : upperBound < 2 then 0
  else if hodd : upperBound % 2 = 1 then descend upperBound hodd
  else descend (upperBound - 1) (by omega)

theorem isGreatest_descend {n : ℕ} (hodd : n % 2 = 1) (h3 : 3 ≤ n) :
    IsGreatest {p | p.Prime ∧ p ≤ n} (descend n hodd) := by
  induction n using Nat.strong_induction_on with
  | _ n ih =>
    rw [descend]
    split_ifs with hprime
    · exact ⟨⟨(isUnsignedOddPrime_iff hodd h3).mp hprime, le_rfl⟩, fun p hp => hp.2⟩
    · have hnot : ¬ n.Prime := fun h => hprime ((isUnsignedOddPrime_iff hodd h3).mpr h)
      have hne3 : n ≠ 3 := fun h => hnot (h ▸ Nat.prime_three)
      obtain ⟨⟨hfound, hle⟩, hgreatest⟩ := ih (n - 2) (by omega) (by omega) (by omega)
      refine ⟨⟨hfound, hle.trans (Nat.sub_le n 2)⟩, fun p hp => ?_⟩
      have hpn : p ≠ n := fun h => hnot (h ▸ hp.1)
      have hpn1 : p ≠ n - 1 := by
        intro h
        have heven : 2 ∣ p := Nat.dvd_of_mod_eq_zero (by omega)
        have htwo := (Nat.prime_dvd_prime_iff_eq Nat.prime_two hp.1).mp heven
        omega
      exact hgreatest ⟨hp.1, by have := hp.2; omega⟩

/-- The largest prime is found from 3 on. For 2 the test lets 1 pass. -/
theorem isGreatest_findLargestUnsignedPrime_iff (upperBound : ℕ) :
    IsGreatest {p | p.Prime ∧ p ≤ upperBound} (findLargestUnsignedPrime upperBound) ↔
      3 ≤ upperBound := by
  constructor
  · intro h
    by_contra hlt
    have hprime := h.1.1
    rw [findLargestUnsignedPrime] at hprime
    split_ifs at hprime with h2 hodd
    · exact Nat.not_prime_zero hprime
    · omega
    · have hone : upperBound - 1 = 1 := by omega
      have hfound : descend (upperBound - 1) (by omega) = 1 := by
        rw [descend, dif_pos (by rw [hone]; exact isUnsignedOddPrime_one), hone]
      exact Nat.not_prime_one (hfound ▸ hprime)
  · intro h3
    rw [findLargestUnsignedPrime, dif_neg (by omega)]
    split_ifs with hodd
    · exact isGreatest_descend hodd h3
    · obtain ⟨⟨hfound, hle⟩, hgreatest⟩ :=
        isGreatest_descend (n := upperBound - 1) (by omega) (by omega)
      refine ⟨⟨hfound, hle.trans (Nat.sub_le _ _)⟩, fun p hp => ?_⟩
      have hne : p ≠ upperBound := by
        intro h
        have heven : 2 ∣ p := Nat.dvd_of_mod_eq_zero (by omega)
        have htwo := (Nat.prime_dvd_prime_iff_eq Nat.prime_two hp.1).mp heven
        omega
      exact hgreatest ⟨hp.1, by have := hp.2; omega⟩

end Primes

section Sizes

abbrev kLightCacheItemSize : ℕ := 64
abbrev kFullDatasetItemSize : ℕ := 128
abbrev kLightCacheInitSize : ℕ := 2 ^ 24
abbrev kLightCacheGrowth : ℕ := 2 ^ 17
abbrev kFullDatasetInitSize : ℕ := 2 ^ 30
abbrev kFullDatasetGrowth : ℕ := 2 ^ 23

/-- The bound wraps around. -/
def numItems (initSize growth itemSize : ℕ) (epochNumber : BitVec 32) : BitVec 32 :=
  let numItemsUpperBound :=
    BitVec.ofNat 32 (initSize / itemSize) + epochNumber * BitVec.ofNat 32 (growth / itemSize)
  BitVec.ofNat 32 (findLargestUnsignedPrime numItemsUpperBound.toNat)

def calculateLightCacheNumItems (epochNumber : BitVec 32) : BitVec 32 :=
  numItems kLightCacheInitSize kLightCacheGrowth kLightCacheItemSize epochNumber

def calculateFullDatasetNumItems (epochNumber : BitVec 32) : BitVec 32 :=
  numItems kFullDatasetInitSize kFullDatasetGrowth kFullDatasetItemSize epochNumber

variable {initSize growth itemSize : ℕ} {epochNumber : BitVec 32}

/-- A bound that does not wrap around. -/
theorem isGreatest_numItems (h3 : 3 ≤ initSize / itemSize)
    (hlt : initSize / itemSize + epochNumber.toNat * (growth / itemSize) < 2 ^ 32) :
    IsGreatest
      {p | p.Prime ∧ p ≤ initSize / itemSize + epochNumber.toNat * (growth / itemSize)}
      (numItems initSize growth itemSize epochNumber).toNat := by
  have hbound : (BitVec.ofNat 32 (initSize / itemSize) +
      epochNumber * BitVec.ofNat 32 (growth / itemSize)).toNat =
      initSize / itemSize + epochNumber.toNat * (growth / itemSize) := by
    rw [BitVec.toNat_add, BitVec.toNat_mul, BitVec.toNat_ofNat, BitVec.toNat_ofNat,
      Nat.mul_mod_mod, Nat.mod_add_mod, Nat.add_mod_mod, Nat.mod_eq_of_lt hlt]
  have hgreatest := (isGreatest_findLargestUnsignedPrime_iff
    (initSize / itemSize + epochNumber.toNat * (growth / itemSize))).mpr (by omega)
  have hless := hgreatest.1.2
  rw [numItems, hbound, BitVec.toNat_ofNat, Nat.mod_eq_of_lt (hless.trans_lt hlt)]
  exact hgreatest

theorem isGreatest_lightCacheNumItems (h : epochNumber.toNat < 65408) :
    IsGreatest {p | p.Prime ∧ p ≤ 2 ^ 18 + epochNumber.toNat * 2 ^ 11}
      (calculateLightCacheNumItems epochNumber).toNat :=
  isGreatest_numItems (by decide) (by
    change 2 ^ 18 + epochNumber.toNat * 2 ^ 11 < 2 ^ 32
    omega)

theorem isGreatest_fullDatasetNumItems (h : epochNumber.toNat < 65408) :
    IsGreatest {p | p.Prime ∧ p ≤ 2 ^ 23 + epochNumber.toNat * 2 ^ 16}
      (calculateFullDatasetNumItems epochNumber).toNat :=
  isGreatest_numItems (by decide) (by
    change 2 ^ 23 + epochNumber.toNat * 2 ^ 16 < 2 ^ 32
    omega)

/-- The first bound that wraps around. -/
example : calculateFullDatasetNumItems 65408 = 0 := rfl

end Sizes

end Silkworm.Ethash
