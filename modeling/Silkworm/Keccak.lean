import Silkworm.LittleEndian
import Silkworm.MerklePatriciaTrie
import Silkworm.PaddedBlocks
import Silkworm.Validity
import Mathlib.Data.BitVec
import Mathlib.Tactic.IntervalCases

/-!
# Keccak

The permutation is described by its five steps on a square of lanes, with offsets and constants that
are computed, and the hash by the padded message that the state absorbs. The code has the steps
unrolled, and absorbs the last words of a message one by one.
-/

namespace Silkworm.Keccak
open BigEndian LittleEndian PaddedBlocks

abbrev State := Vector Uint64 25

/-- The two sizes of the hash, in bits. -/
inductive HashSize
  | keccak256
  | keccak512

def HashSize.bits : HashSize → ℕ
  | keccak256 => 256
  | keccak512 => 512

def HashSize.hashSize (z : HashSize) : ℕ := z.bits / 8

def HashSize.blockSize (z : HashSize) : ℕ := (1600 - z.bits * 2) / 8

def HashSize.blockWord64s (z : HashSize) : ℕ := z.blockSize / 8

section Standard

/-- Columns and rows are numbered modulo 5. -/
local instance neZeroFive : NeZero 5 := ⟨by decide⟩

/-- The lane in column `x` and row `y`. -/
abbrev Lanes := Fin 5 → Fin 5 → Uint64

def columnParity (a : Lanes) (x : Fin 5) : Uint64 := a x 0 ^^^ a x 1 ^^^ a x 2 ^^^ a x 3 ^^^ a x 4

def theta (a : Lanes) : Lanes := fun x y =>
  a x y ^^^ (columnParity a (x - 1) ^^^ (columnParity a (x + 1)).rotateLeft 1)

/-- The lanes in the order in which their offsets grow. -/
def walk (t : ℕ) : Fin 5 × Fin 5 := (fun p => (p.2, 2 * p.1 + 3 * p.2))^[t] (1, 0)

def rhoOffset (x y : Fin 5) : ℕ :=
  match (List.range 24).find? fun t => walk t = (x, y) with
  | some t => (t + 1) * (t + 2) / 2 % 64
  | none => 0

def rho (a : Lanes) : Lanes := fun x y => (a x y).rotateLeft (rhoOffset x y)

def pi (a : Lanes) : Lanes := fun x y => a (x + 3 * y) x

def chi (a : Lanes) : Lanes := fun x y => a x y ^^^ (~~~a (x + 1) y &&& a (x + 2) y)

/-- The shift register that makes the bits of the constants. -/
def shiftRegister (t : ℕ) : BitVec 8 :=
  (fun r : BitVec 8 => if r.msb then r <<< 1 ^^^ 0x71 else r <<< 1)^[t] 1

def roundConstant (n : ℕ) : Uint64 :=
  (List.range 7).foldl (fun rc j =>
    if (shiftRegister (j + 7 * n)).getLsbD 0 then rc ||| 1 <<< (2 ^ j - 1) else rc) 0

def iota (rc : Uint64) (a : Lanes) : Lanes := fun x y => if x = 0 ∧ y = 0 then a x y ^^^ rc else a x y

def roundFunction (rc : Uint64) (a : Lanes) : Lanes := iota rc (chi (pi (rho (theta a))))

def lanes (s : State) : Lanes := fun x y => s.get (Fin.ofNat 25 (x + 5 * y))

def ofLanes (a : Lanes) : State :=
  Vector.ofFn fun i => a (Fin.ofNat 5 (i % 5)) (Fin.ofNat 5 (i / 5))

def keccakF (s : State) : State :=
  (List.range 24).foldl (fun s n => ofLanes (roundFunction (roundConstant n) (lanes s))) s

def loadLe (data : Bytes) : Uint64 := BitVec.ofNat 64 (ofLittleEndian (data.take 8))

/-- Every word of the state takes the word of the block at its place, if there is one. -/
def absorb (s : State) (block : Bytes) : State :=
  Vector.ofFn fun i => s[i] ^^^ loadLe (block.drop (8 * i))

/-- A first and a last bit, in one byte if only one is left in the block. -/
def padding (blockSize length : ℕ) : Bytes :=
  let left := blockSize - length % blockSize
  if left = 1 then [0x81] else 0x01 :: List.replicate (left - 2) 0 ++ [0x80]

def pad (blockSize : ℕ) (message : Bytes) : Bytes := message ++ padding blockSize message.length

/-- The first words of the state, after it has absorbed the padded message. -/
def sponge (z : HashSize) (message : Bytes) : Bytes :=
  let s := (blocks z.blockSize (pad z.blockSize message)).foldl (fun s block =>
    keccakF (absorb s block)) (Vector.replicate 25 0)
  (s.toList.take (z.hashSize / 8)).flatMap fun x => littleEndian 8 x.toNat

end Standard

section Code

def rotl64 (x : Uint64) (s : BitVec 32) : Uint64 := x <<< s.toNat ||| x >>> (-s &&& 63).toNat

def roundConstants : List Uint64 := [
  0x0000000000000001, 0x0000000000008082, 0x800000000000808a, 0x8000000080008000, 0x000000000000808b,
  0x0000000080000001, 0x8000000080008081, 0x8000000000008009, 0x000000000000008a, 0x0000000000000088,
  0x0000000080008009, 0x000000008000000a, 0x000000008000808b, 0x800000000000008b, 0x8000000000008089,
  0x8000000000008003, 0x8000000000008002, 0x8000000000000080, 0x000000000000800a, 0x800000008000000a,
  0x8000000080008081, 0x8000000000008080, 0x0000000080000001, 0x8000000080008008]

/-- The round from the lanes `Axx` to `Exx`, and the other round from `Exx` to `Axx`. -/
def round (rc : Uint64) (a : State) : State :=
  let aba := a[0]
  let abe := a[1]
  let abi := a[2]
  let abo := a[3]
  let abu := a[4]
  let aga := a[5]
  let age := a[6]
  let agi := a[7]
  let ago := a[8]
  let agu := a[9]
  let aka := a[10]
  let ake := a[11]
  let aki := a[12]
  let ako := a[13]
  let aku := a[14]
  let ama := a[15]
  let ame := a[16]
  let ami := a[17]
  let amo := a[18]
  let amu := a[19]
  let asa := a[20]
  let ase := a[21]
  let asi := a[22]
  let aso := a[23]
  let asu := a[24]
  let bA := aba ^^^ aga ^^^ aka ^^^ ama ^^^ asa
  let bE := abe ^^^ age ^^^ ake ^^^ ame ^^^ ase
  let bI := abi ^^^ agi ^^^ aki ^^^ ami ^^^ asi
  let bO := abo ^^^ ago ^^^ ako ^^^ amo ^^^ aso
  let bU := abu ^^^ agu ^^^ aku ^^^ amu ^^^ asu
  let dA := bU ^^^ rotl64 bE 1
  let dE := bA ^^^ rotl64 bI 1
  let dI := bE ^^^ rotl64 bO 1
  let dO := bI ^^^ rotl64 bU 1
  let dU := bO ^^^ rotl64 bA 1
  let bA := aba ^^^ dA
  let bE := rotl64 (age ^^^ dE) 44
  let bI := rotl64 (aki ^^^ dI) 43
  let bO := rotl64 (amo ^^^ dO) 21
  let bU := rotl64 (asu ^^^ dU) 14
  let eba := bA ^^^ (~~~bE &&& bI) ^^^ rc
  let ebe := bE ^^^ (~~~bI &&& bO)
  let ebi := bI ^^^ (~~~bO &&& bU)
  let ebo := bO ^^^ (~~~bU &&& bA)
  let ebu := bU ^^^ (~~~bA &&& bE)
  let bA := rotl64 (abo ^^^ dO) 28
  let bE := rotl64 (agu ^^^ dU) 20
  let bI := rotl64 (aka ^^^ dA) 3
  let bO := rotl64 (ame ^^^ dE) 45
  let bU := rotl64 (asi ^^^ dI) 61
  let ega := bA ^^^ (~~~bE &&& bI)
  let ege := bE ^^^ (~~~bI &&& bO)
  let egi := bI ^^^ (~~~bO &&& bU)
  let ego := bO ^^^ (~~~bU &&& bA)
  let egu := bU ^^^ (~~~bA &&& bE)
  let bA := rotl64 (abe ^^^ dE) 1
  let bE := rotl64 (agi ^^^ dI) 6
  let bI := rotl64 (ako ^^^ dO) 25
  let bO := rotl64 (amu ^^^ dU) 8
  let bU := rotl64 (asa ^^^ dA) 18
  let eka := bA ^^^ (~~~bE &&& bI)
  let eke := bE ^^^ (~~~bI &&& bO)
  let eki := bI ^^^ (~~~bO &&& bU)
  let eko := bO ^^^ (~~~bU &&& bA)
  let eku := bU ^^^ (~~~bA &&& bE)
  let bA := rotl64 (abu ^^^ dU) 27
  let bE := rotl64 (aga ^^^ dA) 36
  let bI := rotl64 (ake ^^^ dE) 10
  let bO := rotl64 (ami ^^^ dI) 15
  let bU := rotl64 (aso ^^^ dO) 56
  let ema := bA ^^^ (~~~bE &&& bI)
  let eme := bE ^^^ (~~~bI &&& bO)
  let emi := bI ^^^ (~~~bO &&& bU)
  let emo := bO ^^^ (~~~bU &&& bA)
  let emu := bU ^^^ (~~~bA &&& bE)
  let bA := rotl64 (abi ^^^ dI) 62
  let bE := rotl64 (ago ^^^ dO) 55
  let bI := rotl64 (aku ^^^ dU) 39
  let bO := rotl64 (ama ^^^ dA) 41
  let bU := rotl64 (ase ^^^ dE) 2
  let esa := bA ^^^ (~~~bE &&& bI)
  let ese := bE ^^^ (~~~bI &&& bO)
  let esi := bI ^^^ (~~~bO &&& bU)
  let eso := bO ^^^ (~~~bU &&& bA)
  let esu := bU ^^^ (~~~bA &&& bE)
  #v[eba, ebe, ebi, ebo, ebu,
    ega, ege, egi, ego, egu,
    eka, eke, eki, eko, eku,
    ema, eme, emi, emo, emu,
    esa, ese, esi, eso, esu]

/-- The loop makes two rounds at a time. -/
def keccakf1600 (state : State) : State :=
  (List.range 12).foldl (fun a i =>
    round (roundConstants.getD (2 * i + 1) 0) (round (roundConstants.getD (2 * i) 0) a)) state

/-- `state[i] ^= x`. -/
def xorWord (state : State) (i : ℕ) (x : Uint64) : State :=
  state.setIfInBounds i ((state[i]?.getD 0) ^^^ x)

theorem HashSize.blockSize_pos (z : HashSize) : 0 < z.blockSize := by
  cases z <;> decide

/-- The loop over the input. It leaves the state, the place of the next word, and the bytes that
have been copied into the last word. -/
def consume (z : HashSize) (state : State) (stateIterator : ℕ) (inputView : Bytes) :
    State × ℕ × Bytes :=
  if inputView.isEmpty then (state, stateIterator, [])
  else if z.blockSize ≤ inputView.length then
    let state := (List.range z.blockWord64s).foldl
      (fun state i => xorWord state i (loadLe (inputView.drop (8 * i)))) state
    consume z (keccakf1600 state) stateIterator (inputView.drop (8 * z.blockWord64s))
  else if 8 ≤ inputView.length then
    consume z (xorWord state stateIterator (loadLe inputView)) (stateIterator + 1)
      (inputView.drop 8)
  else (state, stateIterator, inputView)
termination_by inputView.length
decreasing_by
  · have hwords : 0 < 8 * z.blockWord64s := by cases z <;> decide
    have hpos := z.blockSize_pos
    rw [List.length_drop]
    omega
  · rw [List.length_drop]
    omega

def keccak (z : HashSize) (input : Bytes) : Bytes :=
  let (state, stateIterator, lastWord) := consume z (Vector.replicate 25 0) 0 input
  let state := xorWord state stateIterator (loadLe (lastWord ++ [0x01]))
  let state := keccakf1600 (xorWord state (z.blockWord64s - 1) 0x8000000000000000)
  ((List.range (z.hashSize / 8)).map fun i => state[i]?.getD 0).flatMap fun x : Uint64 =>
    littleEndian 8 x.toNat

end Code

section Permutation

theorem roundConstants_eq : roundConstants = (List.range 24).map roundConstant := by
  decide +kernel

theorem rhoOffset_zero : rhoOffset 0 0 = 0 := by decide

theorem getElem_ofLanes (a : Lanes) {i : ℕ} (hi : i < 25) :
    (ofLanes a)[i] = a (Fin.ofNat 5 (i % 5)) (Fin.ofNat 5 (i / 5)) := by
  simp [ofLanes]

theorem rho_first (a : Lanes) : rho a 0 0 = a 0 0 := by
  have hzero : a 0 0 >>> 64 = 0 := BitVec.ushiftRight_eq_zero le_rfl
  rw [rho, rhoOffset_zero, BitVec.rotateLeft_def, Nat.zero_mod, BitVec.shiftLeft_zero]
  exact (congrArg (a 0 0 ||| ·) hzero).trans BitVec.or_zero

/-- The lanes one by one. The code does not rotate the first lane, which three of them use. -/
theorem round_eq (rc : Uint64) (a : State) :
    round rc a = ofLanes (roundFunction rc (lanes a)) := by
  have hfirst := rho_first (theta (lanes a))
  apply Vector.ext
  intro i hi
  rw [getElem_ofLanes _ hi]
  interval_cases i
  case «0» =>
    have hlane := congrArg (fun l => l ^^^ (~~~rho (theta (lanes a)) 1 1 &&&
      rho (theta (lanes a)) 2 2) ^^^ rc) hfirst
    exact hlane.symm
  case «3» =>
    have hlane := congrArg (fun l => rho (theta (lanes a)) 3 3 ^^^
      (~~~rho (theta (lanes a)) 4 4 &&& l)) hfirst
    exact hlane.symm
  case «4» =>
    have hlane := congrArg (fun l => rho (theta (lanes a)) 4 4 ^^^
      (~~~l &&& rho (theta (lanes a)) 1 1)) hfirst
    exact hlane.symm
  all_goals rfl

theorem keccakf1600_eq (s : State) : keccakf1600 s = keccakF s := by
  have hrounds (n : ℕ) (hn : n ≤ 12) : (List.range n).foldl (fun a i =>
      round (roundConstants.getD (2 * i + 1) 0) (round (roundConstants.getD (2 * i) 0) a)) s =
      (List.range (2 * n)).foldl
        (fun s n => ofLanes (roundFunction (roundConstant n) (lanes s))) s := by
    have hconstant {k : ℕ} (hk : k < 24) : roundConstants.getD k 0 = roundConstant k := by
      simp [roundConstants_eq, hk]
    induction n with
    | zero => simp only [Nat.mul_zero, List.range_zero, List.foldl_nil]
    | succ n ih =>
      rw [List.range_succ, List.foldl_concat, ih (Nat.le_of_succ_le hn), Nat.mul_succ,
        List.range_succ, List.range_succ, List.foldl_concat, List.foldl_concat,
        hconstant (by omega), hconstant (by omega), round_eq, round_eq]
  have hall := hrounds 12 le_rfl
  simp only [Nat.reduceMul] at hall
  rw [keccakf1600, hall, keccakF]

end Permutation

section Absorption

variable {z : HashSize} {s : State} {b : Bytes}

theorem getElem_absorb (s : State) (b : Bytes) {i : ℕ} (hi : i < 25) :
    (absorb s b)[i] = s[i] ^^^ loadLe (b.drop (8 * i)) := by
  simp [absorb]

theorem getElem_xorWord (s : State) (t : ℕ) (x : Uint64) {i : ℕ} (hi : i < 25) :
    (xorWord s t x)[i] = if t = i then s[i] ^^^ x else s[i] := by
  rw [xorWord, Vector.getElem_setIfInBounds]
  split_ifs with h
  · subst h
    rw [Vector.getElem?_eq_getElem hi, Option.getD_some]
  · rfl

theorem loadLe_nil : loadLe [] = 0 := rfl

theorem absorb_nil (s : State) : absorb s [] = s := by
  apply Vector.ext
  intro i hi
  rw [getElem_absorb s [] hi, List.drop_nil, loadLe_nil]
  exact BitVec.xor_zero

/-- A further word of the block. -/
theorem xorWord_absorb {t : ℕ} {c : Bytes} (hb : b.length = 8 * t) (hc : c.length ≤ 8) :
    xorWord (absorb s b) t (loadLe c) = absorb s (b ++ c) := by
  apply Vector.ext
  intro i hi
  rw [getElem_xorWord _ _ _ hi, getElem_absorb s b hi, getElem_absorb s (b ++ c) hi]
  rcases Nat.lt_trichotomy t i with hlt | heq | hgt
  · have hdrop : b.drop (8 * i) = [] := List.drop_of_length_le (by omega)
    have hdrop' : (b ++ c).drop (8 * i) = [] :=
      List.drop_of_length_le (by rw [List.length_append]; omega)
    rw [if_neg hlt.ne, hdrop, hdrop']
  · subst heq
    have hdrop : b.drop (8 * t) = [] := List.drop_of_length_le hb.le
    rw [if_pos rfl, hdrop, loadLe_nil, List.drop_left' hb]
    exact congrArg (· ^^^ loadLe c) BitVec.xor_zero
  · have hle : 8 ≤ (b.drop (8 * i)).length := by
      rw [List.length_drop]
      omega
    rw [if_neg hgt.ne', List.drop_append_of_le_length (by omega), loadLe, loadLe,
      List.take_append_of_le_length hle]

theorem loadLe_take (b : Bytes) : loadLe (b.take 8) = loadLe b := by
  rw [loadLe, loadLe, List.take_take, Nat.min_self]

/-- The loop over the words of a block. -/
theorem foldl_xorWord {n : ℕ} (hn : 8 * n ≤ b.length) :
    (List.range n).foldl (fun s i => xorWord s i (loadLe (b.drop (8 * i)))) s =
      absorb s (b.take (8 * n)) := by
  induction n with
  | zero => exact (absorb_nil s).symm
  | succ n ih =>
    have hlen : (b.take (8 * n)).length = 8 * n := List.length_take_of_le (by omega)
    have hword : ((b.drop (8 * n)).take 8).length ≤ 8 := List.length_take_le _ _
    rw [List.range_succ, List.foldl_concat, ih (by omega), ← loadLe_take, xorWord_absorb hlen hword,
      Nat.mul_succ, List.take_add]

theorem absorb_append_replicate (s : State) (b : Bytes) (k : ℕ) :
    absorb s (b ++ List.replicate k 0) = absorb s b := by
  apply Vector.ext
  intro i hi
  have hword : ((b ++ List.replicate k 0).drop (8 * i)).take 8 =
      (b.drop (8 * i)).take 8 ++
        List.replicate (min (8 - (b.drop (8 * i)).length) (k - (8 * i - b.length))) 0 := by
    rw [List.drop_append, List.take_append, List.drop_replicate, List.take_replicate]
  rw [getElem_absorb _ _ hi, getElem_absorb _ _ hi, loadLe, loadLe, hword, ofLittleEndian_append,
    ofLittleEndian_replicate, Nat.mul_zero, Nat.add_zero]

/-- A change of a byte is one of the word that it is in. -/
theorem absorb_set {j : ℕ} {y : UInt8} (h : b[j]? = some y) (x : UInt8) :
    absorb s (b.set j (y ^^^ x)) =
      xorWord (absorb s b) (j / 8) (BitVec.ofNat 64 (2 ^ (8 * (j % 8)) * x.toNat)) := by
  apply Vector.ext
  intro i hi
  rw [getElem_xorWord _ _ _ hi, getElem_absorb _ _ hi, getElem_absorb _ _ hi]
  split_ifs with hplace
  · have hat : ((b.drop (8 * i)).take 8)[j % 8]? = some y := by
      rw [List.getElem?_take_of_lt (Nat.mod_lt j (by decide)), List.getElem?_drop, ← h]
      congr 1
      omega
    have hxor (m n : ℕ) : BitVec.ofNat 64 (m ^^^ n) = BitVec.ofNat 64 m ^^^ BitVec.ofNat 64 n :=
      BitVec.eq_of_toNat_eq (by simp)
    rw [loadLe, take_drop_set_of_eq hplace, ofLittleEndian_set hat, hxor, loadLe,
      BitVec.xor_assoc]
  · rw [loadLe, take_drop_set_of_ne (by decide) hplace, loadLe]

/-- The mark and the last bit, which are in the same byte if there is only one left. -/
theorem absorb_padding {B n m : ℕ} {r : Bytes} (hB : B = 8 * n) (hr : r.length < B)
    (hm : m % B = r.length) :
    xorWord (absorb s (r ++ [0x01])) (n - 1) 0x8000000000000000 = absorb s (r ++ padding B m) := by
  have hplace : (B - 1) / 8 = n - 1 := by omega
  have hlast : (B - 1) % 8 = 7 := by omega
  have hset {b : Bytes} {y : UInt8} (h : b[B - 1]? = some y) :
      xorWord (absorb s b) (n - 1) 0x8000000000000000 = absorb s (b.set (B - 1) (y ^^^ 0x80)) := by
    rw [absorb_set h, hplace, hlast]
    rfl
  rw [padding, hm]
  by_cases hleft : B - r.length = 1
  · have hlen : B - 1 = r.length := by omega
    have hat : (r ++ [0x01])[B - 1]? = some (0x01 : UInt8) := by
      rw [hlen, List.getElem?_concat_length]
    rw [if_pos hleft, hset hat, hlen, List.set_append_right _ _ le_rfl, Nat.sub_self]
    rfl
  · have hzeros : absorb s (r ++ [0x01]) =
        absorb s (r ++ 0x01 :: List.replicate (B - r.length - 2 + 1) 0) := by
      rw [← absorb_append_replicate s (r ++ [0x01]), List.append_assoc, List.singleton_append]
    have hindex : B - 1 - r.length = B - r.length - 2 + 1 := by omega
    have hat : (r ++ 0x01 :: List.replicate (B - r.length - 2 + 1) 0)[B - 1]? =
        some (0 : UInt8) := by
      rw [List.getElem?_append_right (by omega), hindex, List.getElem?_cons_succ,
        List.getElem?_replicate, if_pos (Nat.lt_succ_self _)]
    have hwritten : (List.replicate (B - r.length - 2 + 1) (0 : UInt8)).set (B - r.length - 2)
        (0 ^^^ 0x80) = List.replicate (B - r.length - 2) 0 ++ [0x80] := by
      rw [List.replicate_succ', List.set_append_right _ _ (List.length_replicate ..).le,
        List.length_replicate, Nat.sub_self]
      rfl
    rw [if_neg hleft, hzeros, hset hat, List.set_append_right _ _ (by omega), hindex,
      List.set_cons_succ, hwritten]
    rfl

end Absorption

section Message

variable {z : HashSize} {s : State}

theorem blockSize_eq (z : HashSize) : z.blockSize = 8 * z.blockWord64s := by
  cases z <;> decide

theorem consume_of_le {b : Bytes} (h : z.blockSize ≤ b.length) (t : ℕ) :
    consume z s t b =
      consume z (keccakF (absorb s (b.take z.blockSize))) t (b.drop z.blockSize) := by
  have hpos := z.blockSize_pos
  have hne : ¬ b.isEmpty := by
    rw [List.isEmpty_iff_length_eq_zero]
    omega
  have hle : 8 * z.blockWord64s ≤ b.length := by rwa [← blockSize_eq]
  rw [consume, if_neg hne, if_pos h, foldl_xorWord hle]
  simp only [keccakf1600_eq, blockSize_eq]

/-- The whole blocks. -/
theorem consume_blocks (b : Bytes) (t : ℕ) : consume z s t b =
    consume z ((blocks z.blockSize b).foldl (fun s block => keccakF (absorb s block)) s) t
      (b.drop (z.blockSize * (b.length / z.blockSize))) := by
  have hpos := z.blockSize_pos
  induction hk : b.length / z.blockSize generalizing s b with
  | zero =>
    rw [blocks_of_lt ((Nat.div_eq_zero_iff_lt hpos).mp hk), Nat.mul_zero, List.drop_zero,
      List.foldl_nil]
  | succ k ih =>
    have hle : z.blockSize ≤ b.length := by
      by_contra hlt
      rw [Nat.div_eq_of_lt (not_le.mp hlt)] at hk
      exact absurd hk (Nat.succ_ne_zero k).symm
    have hlength : b.length = (b.drop z.blockSize).length + z.blockSize := by
      rw [List.length_drop]
      omega
    have hrest : (b.drop z.blockSize).length / z.blockSize = k := by
      rw [hlength, Nat.add_div_right _ hpos] at hk
      exact Nat.succ.inj hk
    rw [consume_of_le hle, ih _ hrest, blocks_of_le hpos hle, List.foldl_cons, List.drop_drop,
      Nat.mul_succ, Nat.add_comm (z.blockSize * k)]

/-- The words that do not fill a block, and the bytes that do not fill a word. -/
theorem consume_words {p r : Bytes} {t : ℕ} (hp : p.length = 8 * t)
    (hr : r.length < z.blockSize) : ∃ q c, consume z (absorb s p) t r = (absorb s q, t + r.length / 8, c) ∧
      q ++ c = p ++ r ∧ q.length = 8 * (t + r.length / 8) ∧ c.length < 8 := by
  induction hk : r.length / 8 generalizing p r t with
  | zero =>
    have hlt : r.length < 8 := by omega
    refine ⟨p, r, ?_, rfl, hp, hlt⟩
    rw [consume, if_neg (not_le.mpr hr), if_neg (not_le.mpr hlt)]
    split_ifs with hempty
    · rw [List.isEmpty_iff.mp hempty]
      rfl
    · rfl
  | succ k ih =>
    have hle : 8 ≤ r.length := by omega
    have hword : (r.take 8).length = 8 := List.length_take_of_le hle
    have hne : ¬ r.isEmpty := by
      rw [List.isEmpty_iff_length_eq_zero]
      omega
    have hnext : (p ++ r.take 8).length = 8 * (t + 1) := by
      rw [List.length_append, hp, hword]
      omega
    have hless : (r.drop 8).length < z.blockSize := by
      rw [List.length_drop]
      omega
    have hrest : (r.drop 8).length / 8 = k := by
      rw [List.length_drop]
      omega
    obtain ⟨q, c, hconsume, hall, hq, hc⟩ := ih hnext hless hrest
    have hplace : t + 1 + k = t + (k + 1) := by omega
    rw [List.append_assoc, List.take_append_drop] at hall
    rw [hplace] at hconsume hq
    refine ⟨q, c, ?_, hall, hq, hc⟩
    rw [consume, if_neg hne, if_neg (not_le.mpr hr), if_pos hle, ← loadLe_take,
      xorWord_absorb hp hword.le, hconsume]

theorem map_range_getElem? {n : ℕ} (hn : n ≤ 25) (s : State) :
    ((List.range n).map fun i => s[i]?.getD 0) = s.toList.take n := by
  apply List.ext_getElem
  · simp [hn]
  · intro i hi hi'
    have hlt : i < n := by simpa using hi
    simp [hlt.trans_le hn]

/-- The code computes the hash of every message, for both sizes. -/
theorem keccak_eq (z : HashSize) (input : Bytes) : keccak z input = sponge z input := by
  have hpos := z.blockSize_pos
  have hmod := Nat.mod_lt input.length hpos
  generalize hs : (blocks z.blockSize input).foldl (fun s block => keccakF (absorb s block))
    (Vector.replicate 25 0) = s
  generalize hr : input.drop (z.blockSize * (input.length / z.blockSize)) = r
  have hlen : input.length % z.blockSize = r.length := by
    rw [← hr, List.length_drop, Nat.mod_def]
  have hlt : r.length < z.blockSize := hlen ▸ hmod
  have hpadding : (padding z.blockSize input.length).length = z.blockSize - r.length := by
    rw [padding, hlen]
    split_ifs with hleft
    · exact hleft.symm
    · rw [List.length_append, List.length_cons, List.length_replicate, List.length_singleton]
      omega
  have hblocks : blocks z.blockSize (pad z.blockSize input) =
      blocks z.blockSize input ++ [r ++ padding z.blockSize input.length] := by
    rw [pad, blocks_append_of_add_eq hpos (by rw [hlen, hpadding]; omega), hr]
  obtain ⟨q, c, hconsume, hall, hq, hc⟩ := consume_words (s := s) (p := []) (t := 0) rfl hlt
  have hlast : (c ++ [0x01]).length ≤ 8 := by
    rw [List.length_append, List.length_singleton]
    omega
  have hsize : z.hashSize / 8 ≤ 25 := by
    cases z <;> decide
  rw [absorb_nil] at hconsume
  rw [keccak, consume_blocks, hs, hr, hconsume]
  simp only [xorWord_absorb hq hlast, ← List.append_assoc, hall, List.nil_append,
    absorb_padding (blockSize_eq z) hlt hlen, keccakf1600_eq, map_range_getElem? hsize]
  rw [sponge, hblocks, List.foldl_concat, hs]

theorem length_flatMap_littleEndian (l : List Uint64) :
    (l.flatMap fun x => littleEndian 8 x.toNat).length = 8 * l.length := by
  induction l with
  | nil => rfl
  | cons x l ih =>
    rw [List.flatMap_cons, List.length_append, length_littleEndian, ih, List.length_cons]
    omega

theorem length_keccak (z : HashSize) (input : Bytes) : (keccak z input).length = z.hashSize := by
  have hsize : 8 * (z.hashSize / 8) = z.hashSize := by
    cases z <;> decide
  rw [keccak, length_flatMap_littleEndian, List.length_map, List.length_range, hsize]

end Message

def keccak256 (input : Bytes) : Bytes32 := ⟨keccak .keccak256 input, length_keccak .keccak256 input⟩

example : keccak256 [] = kEmptyHash ∧ keccak256 [0x80] = Trie.kEmptyRoot ∧
    keccak256 [0xc0] = kEmptyListHash := by
  decide +kernel

end Silkworm.Keccak
