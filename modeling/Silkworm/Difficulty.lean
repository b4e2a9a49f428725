import Silkworm.TransactionValidity
import Mathlib.Algebra.Order.Floor.Ring
import Mathlib.Data.Rat.Floor

/-!
# The canonical difficulty

The difficulty of a block is computed in words of 64 and 256 bits, where the signed adjustment
is a subtraction followed by an addition. It is the difficulty of the protocol, as an integer.
-/

namespace Silkworm

abbrev kMinDifficulty : Uint64 := 131072

/-- The config of a chain with the fork that only the difficulty depends on. -/
structure DifficultyConfig extends ChainConfig where
  muirGlacierBlock : Option Uint64 := none

def difficultyBomb (difficulty : Uint256) (blockNumber : Uint64) : Uint256 :=
  let n := blockNumber / 100000
  let difficulty := if 2 ≤ n then difficulty + (1 : Uint256) <<< (n - 2) else difficulty
  if difficulty < kMinDifficulty.setWidth 256 then kMinDifficulty.setWidth 256 else difficulty

def canonicalDifficultyFrontier (blockNumber blockTimestamp : Uint64) (parentDifficulty : Uint256)
    (parentTimestamp : Uint64) : Uint256 :=
  let x := parentDifficulty >>> 11
  let difficulty :=
    if blockTimestamp - parentTimestamp < 13 then parentDifficulty + x else parentDifficulty - x
  difficultyBomb difficulty blockNumber

def canonicalDifficultyHomestead (blockNumber blockTimestamp : Uint64) (parentDifficulty : Uint256)
    (parentTimestamp : Uint64) : Uint256 :=
  let x := parentDifficulty >>> 11
  let difficulty := parentDifficulty - x * 99
  let z := (blockTimestamp - parentTimestamp) / 10
  let difficulty := if z < 100 then difficulty + (100 - z).setWidth 256 * x else difficulty
  difficultyBomb difficulty blockNumber

def canonicalDifficultyByzantium (blockNumber blockTimestamp : Uint64) (parentDifficulty : Uint256)
    (parentTimestamp : Uint64) (parentHasUncles : Bool) (bombDelay : Uint64) : Uint256 :=
  let x := parentDifficulty >>> 11
  let difficulty := parentDifficulty - x * 99
  let y : Uint64 := if parentHasUncles then 2 else 1
  let z := (blockTimestamp - parentTimestamp) / 9
  let difficulty :=
    if z < 99 + y then difficulty + (99 + y - z).setWidth 256 * x else difficulty
  let blockNumber := if bombDelay < blockNumber then blockNumber - bombDelay else 0
  difficultyBomb difficulty blockNumber

/-- The Muir Glacier fork is not a revision of its own. -/
def DifficultyConfig.muirGlacier (config : DifficultyConfig) (blockNumber : Uint64) : Bool :=
  match config.muirGlacierBlock with
  | some n => n ≤ blockNumber
  | none => false

def canonicalDifficulty (blockNumber blockTimestamp : Uint64) (parentDifficulty : Uint256)
    (parentTimestamp : Uint64) (parentHasUncles : Bool) (config : DifficultyConfig) : Uint256 :=
  let rev := config.revision blockNumber
  if .byzantium ≤ rev then
    let bombDelay : Uint64 :=
      if .london ≤ rev then 9700000
      else if config.muirGlacier blockNumber then 9000000
      else if .constantinople ≤ rev then 5000000
      else 3000000
    canonicalDifficultyByzantium blockNumber blockTimestamp parentDifficulty parentTimestamp
      parentHasUncles bombDelay
  else if .homestead ≤ rev then
    canonicalDifficultyHomestead blockNumber blockTimestamp parentDifficulty parentTimestamp
  else
    canonicalDifficultyFrontier blockNumber blockTimestamp parentDifficulty parentTimestamp

section Protocol

/-- The blocks by which a fork delays the bomb. -/
def bombDelay (config : DifficultyConfig) (blockNumber : Uint64) : ℤ :=
  if .london ≤ config.revision blockNumber then 9700000
  else if .byzantium ≤ config.revision blockNumber then
    if config.muirGlacier blockNumber then 9000000
    else if .constantinople ≤ config.revision blockNumber then 5000000
    else 3000000
  else 0

/-- The adjustment for the time since the parent, in units of a 2048th of its difficulty. -/
def sigma (rev : Revision) (dt : ℤ) (parentHasUncles : Bool) : ℤ :=
  if .byzantium ≤ rev then max ((if parentHasUncles then 2 else 1) - dt / 9) (-99)
  else if .homestead ≤ rev then max (1 - dt / 10) (-99)
  else if dt < 13 then 1 else -1

/-- The difficulty bomb, with the number of periods of 100000 blocks as its exponent. -/
def epsilon (n : ℤ) : ℤ := ⌊(2 : ℚ) ^ (n / 100000 - 2)⌋

/-- The difficulty that the protocol gives to a block. -/
def exactDifficulty (blockNumber blockTimestamp : Uint64) (parentDifficulty : Uint256)
    (parentTimestamp : Uint64) (parentHasUncles : Bool) (config : DifficultyConfig) : ℤ :=
  let dt : ℤ := blockTimestamp.toNat - parentTimestamp.toNat
  max 131072 (parentDifficulty.toNat +
    (parentDifficulty.toNat : ℤ) / 2048 * sigma (config.revision blockNumber) dt parentHasUncles +
    epsilon (max 0 (blockNumber.toNat - bombDelay config blockNumber)))

end Protocol

section Bomb

theorem epsilon_natCast (n : ℕ) :
    epsilon n = if 2 ≤ n / 100000 then ((2 ^ (n / 100000 - 2) : ℕ) : ℤ) else 0 := by
  have hcast : (n : ℤ) / 100000 = (n / 100000 : ℕ) := by norm_cast
  rw [epsilon, hcast]
  generalize n / 100000 = k
  split
  · rename_i hk
    have hexp : (k : ℤ) - 2 = (k - 2 : ℕ) := by omega
    rw [hexp, zpow_natCast]
    exact_mod_cast Int.floor_natCast (R := ℚ) (2 ^ (k - 2))
  · rename_i hk
    obtain rfl | rfl : k = 0 ∨ k = 1 := by omega
    · norm_num
    · norm_num

theorem toNat_one_shiftLeft (k : Uint64) :
    ((1 : Uint256) <<< k).toNat = 2 ^ k.toNat % 2 ^ 256 := by
  rw [BitVec.shiftLeft_eq', BitVec.toNat_shiftLeft, Nat.shiftLeft_eq]
  simp

/-- The sum of the difficulty and the bomb, if it is a word. -/
theorem toNat_add_bomb (difficulty : Uint256) (n : Uint64)
    (h : difficulty.toNat + epsilon n.toNat < 2 ^ 256) :
    ((if 2 ≤ n / 100000 then difficulty + (1 : Uint256) <<< (n / 100000 - 2)
      else difficulty).toNat : ℤ) = difficulty.toNat + epsilon n.toNat := by
  have hn : (n / 100000).toNat = n.toNat / 100000 := BitVec.toNat_udiv
  have hle : 2 ≤ n / 100000 ↔ 2 ≤ n.toNat / 100000 := by
    rw [BitVec.le_def, hn]
    rfl
  rw [epsilon_natCast] at h ⊢
  by_cases hperiods : 2 ≤ n.toNat / 100000
  · have hsub : (n / 100000 - 2).toNat = n.toNat / 100000 - 2 := by
      rw [BitVec.toNat_sub_of_le (hle.mpr hperiods), hn]
      rfl
    rw [if_pos hperiods] at h
    have hlt : difficulty.toNat + 2 ^ (n.toNat / 100000 - 2) < 2 ^ 256 := by exact_mod_cast h
    rw [if_pos (hle.mpr hperiods), if_pos hperiods, BitVec.toNat_add, toNat_one_shiftLeft, hsub,
      Nat.add_mod_mod, Nat.mod_eq_of_lt hlt]
    push_cast
    rfl
  · rw [if_neg (mt hle.mp hperiods), if_neg hperiods, add_zero]

theorem toNat_clamp (difficulty : Uint256) :
    ((if difficulty < kMinDifficulty.setWidth 256 then kMinDifficulty.setWidth 256
      else difficulty).toNat : ℤ) = max 131072 (difficulty.toNat : ℤ) := by
  have hmin : (kMinDifficulty.setWidth 256).toNat = 131072 := rfl
  split
  · rename_i h
    rw [BitVec.lt_def, hmin] at h
    rw [hmin]
    omega
  · rename_i h
    rw [BitVec.lt_def, hmin] at h
    omega

theorem toNat_difficultyBomb (difficulty : Uint256) (n : Uint64)
    (h : difficulty.toNat + epsilon n.toNat < 2 ^ 256) :
    ((difficultyBomb difficulty n).toNat : ℤ) =
      max 131072 (difficulty.toNat + epsilon n.toNat) := by
  rw [difficultyBomb, toNat_clamp, toNat_add_bomb difficulty n h]

theorem epsilon_nonneg (n : ℕ) : 0 ≤ epsilon n := by
  rw [epsilon_natCast]
  split <;> positivity

end Bomb

section Adjustment

variable {parentDifficulty x : Uint256}

theorem toNat_ushiftRight_eleven (parentDifficulty : Uint256) :
    (parentDifficulty >>> 11).toNat = parentDifficulty.toNat / 2048 := by
  rw [BitVec.toNat_ushiftRight, Nat.shiftRight_eq_div_pow]

/-- The difficulty of the parent covers the largest reduction. -/
theorem toNat_sub_ninetyNine (hx : x.toNat = parentDifficulty.toNat / 2048) :
    (parentDifficulty - x * 99).toNat = parentDifficulty.toNat - x.toNat * 99 := by
  have hlt := parentDifficulty.isLt
  have hmul : (x * 99).toNat = x.toNat * 99 := by
    rw [BitVec.toNat_mul]
    apply Nat.mod_eq_of_lt
    change x.toNat * 99 < 2 ^ 256
    omega
  have hle : x * 99 ≤ parentDifficulty := by
    rw [BitVec.le_def, hmul]
    omega
  rw [BitVec.toNat_sub_of_le hle, hmul]

/-- What is added after the largest reduction. -/
theorem toNat_add_units (hx : x.toNat = parentDifficulty.toNat / 2048) (k : Uint64)
    (h : parentDifficulty.toNat - x.toNat * 99 + k.toNat * x.toNat < 2 ^ 256) :
    (parentDifficulty - x * 99 + k.setWidth 256 * x).toNat =
      parentDifficulty.toNat - x.toNat * 99 + k.toNat * x.toNat := by
  have hk : (k.setWidth 256).toNat = k.toNat := by
    rw [BitVec.toNat_setWidth]
    exact Nat.mod_eq_of_lt (k.isLt.trans (by norm_num))
  rw [BitVec.toNat_add, toNat_sub_ninetyNine hx, BitVec.toNat_mul, hk, Nat.add_mod_mod,
    Nat.mod_eq_of_lt h]

/-- The clamp folded into a comparison: `c - z` units after a reduction by 99 are the larger of
`c - 99 - z` and `-99` units. -/
theorem toNat_adjusted (hx : x.toNat = parentDifficulty.toNat / 2048) (c z : Uint64) {σ : ℤ}
    (hσ : σ = max ((c.toNat : ℤ) - 99 - z.toNat) (-99))
    (h : (parentDifficulty.toNat : ℤ) + x.toNat * σ < 2 ^ 256) :
    ((if z < c then parentDifficulty - x * 99 + (c - z).setWidth 256 * x
      else parentDifficulty - x * 99).toNat : ℤ) = parentDifficulty.toNat + x.toNat * σ := by
  have hcover : x.toNat * 99 ≤ parentDifficulty.toNat := by omega
  by_cases hz : z < c
  · have hlt : z.toNat < c.toNat := BitVec.lt_def.mp hz
    have hsub : (c - z).toNat = c.toNat - z.toNat := BitVec.toNat_sub_of_le (BitVec.le_of_lt hz)
    obtain rfl : σ = c.toNat - z.toNat - 99 := by omega
    have hexact : ((parentDifficulty.toNat - x.toNat * 99 + (c - z).toNat * x.toNat : ℕ) : ℤ) =
        parentDifficulty.toNat + x.toNat * (c.toNat - z.toNat - 99) := by
      rw [hsub]
      push_cast [hcover, hlt.le]
      ring
    rw [← hexact] at h
    rw [if_pos hz, toNat_add_units hx (c - z) (by exact_mod_cast h), hexact]
  · have hle : c.toNat ≤ z.toNat := BitVec.le_def.mp (BitVec.not_lt.mp hz)
    obtain rfl : σ = -99 := by omega
    rw [if_neg hz, toNat_sub_ninetyNine hx]
    push_cast [hcover]
    ring

end Adjustment

section Rules

variable {blockNumber blockTimestamp : Uint64} {parentDifficulty : Uint256}
variable {parentTimestamp : Uint64} (htime : parentTimestamp < blockTimestamp)

include htime

theorem toNat_timestamps :
    ((blockTimestamp - parentTimestamp).toNat : ℤ) =
      blockTimestamp.toNat - parentTimestamp.toNat := by
  have hlt := BitVec.lt_def.mp htime
  rw [BitVec.toNat_sub_of_le (BitVec.le_of_lt htime)]
  omega

omit htime in
/-- The bomb on top of an adjusted difficulty. -/
theorem toNat_difficultyBomb_adjusted {difficulty : Uint256} {σ : ℤ} (n : Uint64)
    (hadjusted : (parentDifficulty.toNat : ℤ) + (parentDifficulty.toNat / 2048 : ℕ) * σ < 2 ^ 256 →
      (difficulty.toNat : ℤ) = parentDifficulty.toNat + (parentDifficulty.toNat / 2048 : ℕ) * σ)
    (h : (parentDifficulty.toNat : ℤ) + (parentDifficulty.toNat / 2048 : ℕ) * σ +
      epsilon n.toNat < 2 ^ 256) :
    ((difficultyBomb difficulty n).toNat : ℤ) = max 131072
      (parentDifficulty.toNat + (parentDifficulty.toNat / 2048 : ℕ) * σ + epsilon n.toNat) := by
  have hbomb := epsilon_nonneg n.toNat
  have hdifficulty := hadjusted (by linarith)
  rw [← hdifficulty] at h ⊢
  exact toNat_difficultyBomb difficulty n h

theorem toNat_canonicalDifficultyFrontier {σ : ℤ}
    (hσ : σ = if (blockTimestamp.toNat : ℤ) - parentTimestamp.toNat < 13 then 1 else -1)
    (h : (parentDifficulty.toNat : ℤ) + (parentDifficulty.toNat / 2048 : ℕ) * σ +
      epsilon blockNumber.toNat < 2 ^ 256) :
    ((canonicalDifficultyFrontier blockNumber blockTimestamp parentDifficulty
      parentTimestamp).toNat : ℤ) = max 131072 (parentDifficulty.toNat +
        (parentDifficulty.toNat / 2048 : ℕ) * σ + epsilon blockNumber.toNat) := by
  apply toNat_difficultyBomb_adjusted blockNumber _ h
  intro hlt
  have hx := toNat_ushiftRight_eleven parentDifficulty
  have hdt : blockTimestamp - parentTimestamp < 13 ↔
      (blockTimestamp.toNat : ℤ) - parentTimestamp.toNat < 13 := by
    rw [← toNat_timestamps htime, BitVec.lt_def]
    change _ < 13 ↔ _
    omega
  by_cases hfast : blockTimestamp - parentTimestamp < 13
  · rw [if_pos (hdt.mp hfast)] at hσ
    subst hσ
    rw [if_pos hfast, BitVec.toNat_add, hx, Nat.mod_eq_of_lt (by omega)]
    push_cast
    ring
  · rw [if_neg (mt hdt.mpr hfast)] at hσ
    subst hσ
    have hle : parentDifficulty >>> 11 ≤ parentDifficulty := by
      rw [BitVec.le_def, hx]
      exact Nat.div_le_self _ _
    rw [if_neg hfast, BitVec.toNat_sub_of_le hle, hx]
    omega

theorem toNat_canonicalDifficultyHomestead {σ : ℤ}
    (hσ : σ = max (1 - ((blockTimestamp.toNat : ℤ) - parentTimestamp.toNat) / 10) (-99))
    (h : (parentDifficulty.toNat : ℤ) + (parentDifficulty.toNat / 2048 : ℕ) * σ +
      epsilon blockNumber.toNat < 2 ^ 256) :
    ((canonicalDifficultyHomestead blockNumber blockTimestamp parentDifficulty
      parentTimestamp).toNat : ℤ) = max 131072 (parentDifficulty.toNat +
        (parentDifficulty.toNat / 2048 : ℕ) * σ + epsilon blockNumber.toNat) := by
  apply toNat_difficultyBomb_adjusted blockNumber _ h
  have hx := toNat_ushiftRight_eleven parentDifficulty
  have hz : (((blockTimestamp - parentTimestamp) / 10).toNat : ℤ) =
      ((blockTimestamp.toNat : ℤ) - parentTimestamp.toNat) / 10 := by
    rw [← toNat_timestamps htime, BitVec.toNat_udiv]
    rfl
  rw [← hx]
  apply toNat_adjusted hx
  rw [hσ, hz]
  change _ = max (100 - 99 - _) _
  omega

theorem toNat_canonicalDifficultyByzantium {σ ε : ℤ} {parentHasUncles : Bool} {delay : Uint64}
    (hσ : σ = max ((if parentHasUncles then 2 else 1) -
      ((blockTimestamp.toNat : ℤ) - parentTimestamp.toNat) / 9) (-99))
    (hε : ε = epsilon (max 0 ((blockNumber.toNat : ℤ) - delay.toNat)))
    (h : (parentDifficulty.toNat : ℤ) + (parentDifficulty.toNat / 2048 : ℕ) * σ + ε < 2 ^ 256) :
    ((canonicalDifficultyByzantium blockNumber blockTimestamp parentDifficulty
      parentTimestamp parentHasUncles delay).toNat : ℤ) = max 131072 (parentDifficulty.toNat +
        (parentDifficulty.toNat / 2048 : ℕ) * σ + ε) := by
  have hn : max 0 ((blockNumber.toNat : ℤ) - delay.toNat) =
      (if delay < blockNumber then blockNumber - delay else 0).toNat := by
    split
    · rename_i hlt
      have hlt' := BitVec.lt_def.mp hlt
      rw [BitVec.toNat_sub_of_le (BitVec.le_of_lt hlt)]
      omega
    · rename_i hge
      have hge' := BitVec.le_def.mp (BitVec.not_lt.mp hge)
      change _ = ((0 : ℕ) : ℤ)
      omega
  rw [hn] at hε
  subst hε
  apply toNat_difficultyBomb_adjusted _ _ h
  have hx := toNat_ushiftRight_eleven parentDifficulty
  have hz : (((blockTimestamp - parentTimestamp) / 9).toNat : ℤ) =
      ((blockTimestamp.toNat : ℤ) - parentTimestamp.toNat) / 9 := by
    rw [← toNat_timestamps htime, BitVec.toNat_udiv]
    rfl
  rw [← hx]
  apply toNat_adjusted hx
  rw [hσ, hz]
  cases parentHasUncles with
  | true =>
    change _ = max (101 - 99 - _) _
    rfl
  | false =>
    change _ = max (100 - 99 - _) _
    rfl

end Rules

section Delays

variable {blockNumber : Uint64} {config : DifficultyConfig}

theorem bombDelay_of_byzantium (h : .byzantium ≤ config.revision blockNumber) :
    bombDelay config blockNumber =
      (if .london ≤ config.revision blockNumber then (9700000 : Uint64)
      else if config.muirGlacier blockNumber then 9000000
      else if .constantinople ≤ config.revision blockNumber then 5000000
      else 3000000).toNat := by
  rw [bombDelay, if_pos h]
  split_ifs <;> rfl

theorem bombDelay_of_not_byzantium (h : ¬.byzantium ≤ config.revision blockNumber) :
    bombDelay config blockNumber = 0 := by
  have hlondon : ¬.london ≤ config.revision blockNumber := fun hle =>
    h (Nat.le_trans (by decide) hle)
  rw [bombDelay, if_neg hlondon, if_neg h]

end Delays

variable (blockNumber blockTimestamp : Uint64) (parentDifficulty : Uint256)
variable (parentTimestamp : Uint64) (parentHasUncles : Bool) (config : DifficultyConfig)

/-- The canonical difficulty is the difficulty of the protocol, if that is a word. -/
theorem toNat_canonicalDifficulty (htime : parentTimestamp < blockTimestamp)
    (hword : exactDifficulty blockNumber blockTimestamp parentDifficulty parentTimestamp
      parentHasUncles config < 2 ^ 256) :
    ((canonicalDifficulty blockNumber blockTimestamp parentDifficulty parentTimestamp
      parentHasUncles config).toNat : ℤ) =
      exactDifficulty blockNumber blockTimestamp parentDifficulty parentTimestamp
        parentHasUncles config := by
  have hcast : (parentDifficulty.toNat : ℤ) / 2048 = (parentDifficulty.toNat / 2048 : ℕ) := by
    norm_cast
  rw [exactDifficulty, hcast] at hword ⊢
  have hlt := (max_lt_iff.mp hword).2
  rw [canonicalDifficulty]
  by_cases hbyzantium : .byzantium ≤ config.revision blockNumber
  · rw [if_pos hbyzantium]
    apply toNat_canonicalDifficultyByzantium htime _ _ hlt
    · rw [sigma, if_pos hbyzantium]
    · rw [bombDelay_of_byzantium hbyzantium]
  · have hdelay := bombDelay_of_not_byzantium hbyzantium
    have hnumber : max 0 ((blockNumber.toNat : ℤ) - 0) = blockNumber.toNat := by omega
    rw [hdelay, hnumber, sigma, if_neg hbyzantium] at hlt ⊢
    rw [if_neg hbyzantium]
    by_cases hhomestead : .homestead ≤ config.revision blockNumber
    · rw [if_pos hhomestead] at hlt ⊢
      rw [if_pos hhomestead]
      exact toNat_canonicalDifficultyHomestead htime rfl hlt
    · rw [if_neg hhomestead] at hlt ⊢
      rw [if_neg hhomestead]
      exact toNat_canonicalDifficultyFrontier htime rfl hlt

/-- A chain with the Homestead fork only. -/
def homesteadConfig : DifficultyConfig where
  forkBlock rev := if rev = .homestead then some 1150000 else none

/-- A block one second after its parent, in the period 34 of the bomb. -/
theorem toNat_canonicalDifficulty_homestead :
    ((canonicalDifficulty 3400000 0x04bdbdb0 0x7268db7b46b0b154 0x04bdbdaf false
      homesteadConfig).toNat : ℤ) =
      exactDifficulty 3400000 0x04bdbdb0 0x7268db7b46b0b154 0x04bdbdaf false homesteadConfig := by
  have hrev : homesteadConfig.revision 3400000 = .homestead := by decide
  have hbyzantium : ¬.byzantium ≤ homesteadConfig.revision 3400000 := by
    rw [hrev]
    decide
  have hbomb : epsilon ((3400000 : ℕ) : ℤ) = 2 ^ 32 := by
    rw [epsilon_natCast]
    norm_num
  have hnumber : max 0 (((3400000 : Uint64).toNat : ℤ) - 0) = ((3400000 : ℕ) : ℤ) := by decide
  have hsigma : sigma .homestead
      (((0x04bdbdb0 : Uint64).toNat : ℤ) - (0x04bdbdaf : Uint64).toNat) false = 1 := by decide
  have hparent : (0x7268db7b46b0b154 : Uint256).toNat = 0x7268db7b46b0b154 := by decide
  apply toNat_canonicalDifficulty
  · decide
  · rw [exactDifficulty, bombDelay_of_not_byzantium hbyzantium, hrev, hnumber, hbomb, hsigma,
      hparent]
    norm_num

end Silkworm
