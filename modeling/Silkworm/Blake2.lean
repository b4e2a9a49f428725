import Silkworm.LittleEndian
import Silkworm.RlpEncoding
import Mathlib.Data.BitVec
import Mathlib.Data.Fin.VecNotation
import Mathlib.Data.Fintype.Basic
import Mathlib.Data.List.GetD
import Mathlib.Data.Nat.Sqrt
import Mathlib.Tactic.FinCases
import Mathlib.Tactic.IntervalCases

/-!
# BLAKE2b compression

The state is described as a square of words whose columns are mixed, and then its diagonals, which
are columns of a square with turned rows. The code mixes them in place, and is called by a
precompiled contract with the words of its input.
-/

namespace Silkworm.Blake2
open BigEndian LittleEndian

/-! Words are numbered by literals of these types. -/

local instance neZeroTwo : NeZero 2 := ⟨by decide⟩
local instance neZeroFour : NeZero 4 := ⟨by decide⟩
local instance neZeroEight : NeZero 8 := ⟨by decide⟩
local instance neZeroTwelve : NeZero 12 := ⟨by decide⟩
local instance neZeroSixteen : NeZero 16 := ⟨by decide⟩

abbrev Words (n : ℕ) := Vector Uint64 n

def blake2bSigma : Vector (Vector (Fin 16) 16) 12 := #v[
  #v[0, 1, 2, 3, 4, 5, 6, 7, 8, 9, 10, 11, 12, 13, 14, 15],
  #v[14, 10, 4, 8, 9, 15, 13, 6, 1, 12, 0, 2, 11, 7, 5, 3],
  #v[11, 8, 12, 0, 5, 2, 15, 13, 10, 14, 3, 6, 7, 1, 9, 4],
  #v[7, 9, 3, 1, 13, 12, 11, 14, 2, 6, 5, 10, 4, 0, 15, 8],
  #v[9, 0, 5, 7, 2, 4, 10, 15, 14, 1, 11, 12, 6, 8, 3, 13],
  #v[2, 12, 6, 10, 0, 11, 8, 3, 4, 13, 7, 5, 15, 14, 1, 9],
  #v[12, 5, 1, 15, 14, 13, 4, 10, 0, 7, 6, 3, 9, 2, 8, 11],
  #v[13, 11, 7, 14, 12, 1, 3, 9, 5, 0, 15, 4, 8, 6, 2, 10],
  #v[6, 15, 14, 9, 11, 3, 0, 8, 12, 2, 13, 7, 1, 4, 10, 5],
  #v[10, 2, 8, 4, 7, 6, 1, 5, 15, 11, 9, 14, 3, 12, 13, 0],
  #v[0, 1, 2, 3, 4, 5, 6, 7, 8, 9, 10, 11, 12, 13, 14, 15],
  #v[14, 10, 4, 8, 9, 15, 13, 6, 1, 12, 0, 2, 11, 7, 5, 3]]

section Standard

/-- The word in row `i` and column `j`. -/
abbrev Square := Fin 4 → Fin 4 → Uint64

/-- The first bits of the fractional part of the square root of a prime. -/
def rootBits (p : ℕ) : Uint64 := BitVec.ofNat 64 (Nat.sqrt (p * 2 ^ 128))

def initialWord (k : Fin 8) : Uint64 := rootBits (![2, 3, 5, 7, 11, 13, 17, 19] k)

def mix (x y : Uint64) (q : Fin 4 → Uint64) : Fin 4 → Uint64 :=
  let a := q 0 + q 1 + x
  let d := (q 3 ^^^ a).rotateRight 32
  let c := q 2 + d
  let b := (q 1 ^^^ c).rotateRight 24
  let a := a + b + y
  let d := (d ^^^ a).rotateRight 16
  let c := c + d
  let b := (b ^^^ c).rotateRight 63
  ![a, b, c, d]

/-- Every column is mixed with two words. -/
def mixColumns (words : Fin 4 → Uint64 × Uint64) (v : Square) : Square := fun i j =>
  mix (words j).1 (words j).2 (fun i => v i j) i

/-- The rows are turned, so that the diagonals are columns. -/
def turn (v : Square) : Square := fun i j => v i (j + i)

def turnBack (v : Square) : Square := fun i j => v i (j - i)

/-- The two words for column `j`, from the permuted words from `k` on. -/
def wordsFrom (m : Words 16) (s : Vector (Fin 16) 16) (k : ℕ) (j : Fin 4) : Uint64 × Uint64 :=
  (m.get (s.get (Fin.ofNat 16 (k + 2 * j))), m.get (s.get (Fin.ofNat 16 (k + 2 * j + 1))))

def roundFunction (m : Words 16) (s : Vector (Fin 16) 16) (v : Square) : Square :=
  turnBack (mixColumns (wordsFrom m s 8) (turn (mixColumns (wordsFrom m s 0) v)))

/-- The permutations come back after ten rounds. -/
def permutation (n : ℕ) : Vector (Fin 16) 16 := blake2bSigma.get (Fin.ofNat 12 (n % 10))

def start (h : Words 8) (t : Words 2) (final : Bool) : Square := fun i j =>
  match i with
  | 0 => h.get (Fin.ofNat 8 j)
  | 1 => h.get (Fin.ofNat 8 (4 + j))
  | 2 => initialWord (Fin.ofNat 8 j)
  | 3 => initialWord (Fin.ofNat 8 (4 + j)) ^^^ ![t.get 0, t.get 1, if final then -1 else 0, 0] j

def compress (rounds : ℕ) (h : Words 8) (m : Words 16) (t : Words 2) (final : Bool) : Words 8 :=
  let v := (List.range rounds).foldl (fun v n => roundFunction m (permutation n) v)
    (start h t final)
  Vector.ofFn fun k : Fin 8 => h.get k ^^^ v (Fin.ofNat 4 (k / 4)) (Fin.ofNat 4 k) ^^^
    v (Fin.ofNat 4 (k / 4 + 2)) (Fin.ofNat 4 k)

/-- The bytes of words. -/
def bytes {n : ℕ} (words : Words n) : Bytes := words.toList.flatMap fun x => littleEndian 8 x.toNat

/-- The arguments of the precompiled contract. -/
structure Arguments where
  rounds : BitVec 32
  h : Words 8
  m : Words 16
  t : Words 2
  final : Bool

def Arguments.encode (x : Arguments) : Bytes :=
  fixedBigEndian 4 x.rounds.toNat ++ (bytes x.h ++ (bytes x.m ++ (bytes x.t ++
    [if x.final then 1 else 0])))

end Standard

section Code

def blake2bIV : Words 8 := #v[0x6a09e667f3bcc908, 0xbb67ae8584caa73b, 0x3c6ef372fe94f82b,
  0xa54ff53a5f1d36f1, 0x510e527fade682d1, 0x9b05688c2b3e6c1f, 0x1f83d9abfb41bd6b,
  0x5be0cd19137e2179]

structure Blake2bState where
  h : Words 8
  t : Words 2
  f : Words 2

def load64 (src : Bytes) : Uint64 := BitVec.ofNat 64 (ofLittleEndian (src.take 8))

def rotr64 (w : Uint64) (c : ℕ) : Uint64 := w >>> c ||| w <<< (64 - c)

/-- `G(r, i, v[a], v[b], v[c], v[d])`. -/
def g (m : Words 16) (s : Vector (Fin 16) 16) (i : ℕ) (a b c d : Fin 16) (v : Words 16) :
    Words 16 :=
  let v := v.set a (v[a] + v[b] + m[s.get (Fin.ofNat 16 (2 * i + 0))])
  let v := v.set d (rotr64 (v[d] ^^^ v[a]) 32)
  let v := v.set c (v[c] + v[d])
  let v := v.set b (rotr64 (v[b] ^^^ v[c]) 24)
  let v := v.set a (v[a] + v[b] + m[s.get (Fin.ofNat 16 (2 * i + 1))])
  let v := v.set d (rotr64 (v[d] ^^^ v[a]) 16)
  let v := v.set c (v[c] + v[d])
  v.set b (rotr64 (v[b] ^^^ v[c]) 63)

/-- `ROUND(r)`. -/
def round (m : Words 16) (r : Fin 12) (v : Words 16) : Words 16 :=
  let s := blake2bSigma[r]
  let v := g m s 0 0 4 8 12 v
  let v := g m s 1 1 5 9 13 v
  let v := g m s 2 2 6 10 14 v
  let v := g m s 3 3 7 11 15 v
  let v := g m s 4 0 5 10 15 v
  let v := g m s 5 1 6 11 12 v
  let v := g m s 6 2 7 8 13 v
  g m s 7 3 4 9 14 v

def blake2bCompress (S : Blake2bState) (block : Bytes) (r : ℕ) : Blake2bState :=
  let m : Words 16 := Vector.ofFn fun i => load64 (block.drop (8 * i))
  let v : Words 16 := #v[S.h.get 0, S.h.get 1, S.h.get 2, S.h.get 3, S.h.get 4, S.h.get 5,
    S.h.get 6, S.h.get 7, blake2bIV.get 0, blake2bIV.get 1, blake2bIV.get 2, blake2bIV.get 3,
    blake2bIV.get 4 ^^^ S.t.get 0, blake2bIV.get 5 ^^^ S.t.get 1, blake2bIV.get 6 ^^^ S.f.get 0,
    blake2bIV.get 7 ^^^ S.f.get 1]
  let v := (List.range r).foldl (fun v i => round m (Fin.ofNat 12 (i % 10)) v) v
  { S with h := Vector.ofFn fun i : Fin 8 =>
      S.h.get i ^^^ v.get (Fin.ofNat 16 i) ^^^ v.get (Fin.ofNat 16 (i + 8)) }

def blake2FRun (input : Bytes) : Option Bytes :=
  if input.length ≠ 213 then none
  else
    let f := input.getD 212 0
    if f ≠ 0 ∧ f ≠ 1 then none
    else
      let state : Blake2bState :=
        { h := Vector.ofFn fun i => load64 (input.drop (4 + 8 * i))
          t := Vector.ofFn fun i => load64 (input.drop (196 + 8 * i))
          f := #v[if f ≠ 0 then -1 else 0, 0] }
      let block := (input.drop 68).take 128
      let r := ofBigEndian (input.take 4)
      some (bytes (blake2bCompress state block r).h)

end Code

section Rounds

variable (m : Words 16) (s : Vector (Fin 16) 16)

theorem rotr64_eq {c : ℕ} (w : Uint64) (h : c < 64) : rotr64 w c = w.rotateRight c := by
  rw [rotr64, BitVec.rotateRight_def, Nat.mod_eq_of_lt h]

/-- A square in the order of its rows. -/
def square (v : Words 16) : Square := fun i j => v[Fin.ofNat 16 (4 * i + j)]

/-- Every word of the block is used once in a round. -/
theorem bijective_permutation (n : ℕ) : Function.Bijective (permutation n).get := by
  have hrows : ∀ r : Fin 12, Function.Bijective (blake2bSigma.get r).get := by decide
  exact hrows _

theorem blake2bIV_eq (k : Fin 8) : blake2bIV.get k = initialWord k := by
  have hroot {p r : ℕ} (hlow : r * r ≤ p * 2 ^ 128) (hhigh : p * 2 ^ 128 < (r + 1) * (r + 1)) :
      rootBits p = BitVec.ofNat 64 r := by
    rw [rootBits, ← Nat.eq_sqrt.mpr ⟨hlow, hhigh⟩]
  fin_cases k
  · exact (hroot (r := 0x16a09e667f3bcc908) (by norm_num) (by norm_num)).symm
  · exact (hroot (r := 0x1bb67ae8584caa73b) (by norm_num) (by norm_num)).symm
  · exact (hroot (r := 0x23c6ef372fe94f82b) (by norm_num) (by norm_num)).symm
  · exact (hroot (r := 0x2a54ff53a5f1d36f1) (by norm_num) (by norm_num)).symm
  · exact (hroot (r := 0x3510e527fade682d1) (by norm_num) (by norm_num)).symm
  · exact (hroot (r := 0x39b05688c2b3e6c1f) (by norm_num) (by norm_num)).symm
  · exact (hroot (r := 0x41f83d9abfb41bd6b) (by norm_num) (by norm_num)).symm
  · exact (hroot (r := 0x45be0cd19137e2179) (by norm_num) (by norm_num)).symm

/-- The four words are mixed in place. -/
theorem get_g (i : ℕ) {a b c d : Fin 16} (v : Words 16) (hab : a ≠ b) (hac : a ≠ c) (had : a ≠ d)
    (hbc : b ≠ c) (hbd : b ≠ d) (hcd : c ≠ d) (k : Fin 16) :
    (g m s i a b c d v)[k] =
      let q := mix m[s.get (Fin.ofNat 16 (2 * i))] m[s.get (Fin.ofNat 16 (2 * i + 1))]
        ![v[a], v[b], v[c], v[d]]
      if k = a then q 0 else if k = b then q 1 else if k = c then q 2 else if k = d then q 3
      else v[k] := by
  have hrot (x : Uint64) : rotr64 x 32 = x.rotateRight 32 ∧ rotr64 x 24 = x.rotateRight 24 ∧
      rotr64 x 16 = x.rotateRight 16 ∧ rotr64 x 63 = x.rotateRight 63 :=
    ⟨rotr64_eq x (by decide), rotr64_eq x (by decide), rotr64_eq x (by decide),
      rotr64_eq x (by decide)⟩
  have hab' := hab.symm
  have hac' := hac.symm
  have had' := had.symm
  have hbc' := hbc.symm
  have hbd' := hbd.symm
  have hcd' := hcd.symm
  by_cases hka : k = a
  · subst hka
    simp [g, mix, Fin.val_inj, *]
  by_cases hkb : k = b
  · subst hkb
    simp [g, mix, Fin.val_inj, *]
  by_cases hkc : k = c
  · subst hkc
    simp [g, mix, Fin.val_inj, *]
  by_cases hkd : k = d
  · subst hkd
    simp [g, mix, Fin.val_inj, *]
  · have hka' := Ne.symm hka
    have hkb' := Ne.symm hkb
    have hkc' := Ne.symm hkc
    have hkd' := Ne.symm hkd
    simp [g, Fin.val_inj, *]

theorem column_eq (w : Square) (j : Fin 4) :
    (fun i => w i j) = ![w 0 j, w 1 j, w 2 j, w 3 j] := by
  funext i
  fin_cases i <;> rfl

theorem square_columns (v : Words 16) :
    square (g m s 3 3 7 11 15 (g m s 2 2 6 10 14 (g m s 1 1 5 9 13 (g m s 0 0 4 8 12 v)))) =
      mixColumns (wordsFrom m s 0) (square v) := by
  funext i j
  rw [mixColumns, column_eq, square]
  fin_cases i <;> fin_cases j
  all_goals
    simp only [Fin.zero_eta, Fin.mk_one, Fin.reduceFinMk, Fin.isValue, Nat.reduceMul, Nat.reduceAdd,
      Fin.reduceOfNat, get_g, ne_eq, Fin.reduceEq, not_false_eq_true, if_false, if_true]
    rfl

theorem square_diagonals (v : Words 16) :
    square (g m s 7 3 4 9 14 (g m s 6 2 7 8 13 (g m s 5 1 6 11 12 (g m s 4 0 5 10 15 v)))) =
      turnBack (mixColumns (wordsFrom m s 8) (turn (square v))) := by
  funext i j
  rw [turnBack, mixColumns, column_eq, square]
  fin_cases i <;> fin_cases j
  all_goals
    simp only [Fin.zero_eta, Fin.mk_one, Fin.reduceFinMk, Fin.isValue, Nat.reduceMul, Nat.reduceAdd,
      Fin.reduceOfNat, get_g, ne_eq, Fin.reduceEq, not_false_eq_true, if_false, if_true]
    rfl

theorem square_round (r : Fin 12) (v : Words 16) :
    square (round m r v) = roundFunction m blake2bSigma[r] (square v) := by
  rw [round, square_diagonals, square_columns, roundFunction]

theorem square_rounds (r : ℕ) (v : Words 16) :
    square ((List.range r).foldl (fun v i => round m (Fin.ofNat 12 (i % 10)) v) v) =
      (List.range r).foldl (fun v n => roundFunction m (permutation n) v) (square v) := by
  induction r with
  | zero => rfl
  | succ r ih =>
    rw [List.range_succ, List.foldl_concat, List.foldl_concat, square_round, ih]
    rfl

/-- The state that the rounds start from. -/
theorem square_start (h : Words 8) (t : Words 2) (final : Bool) :
    square #v[h.get 0, h.get 1, h.get 2, h.get 3, h.get 4, h.get 5, h.get 6, h.get 7,
      blake2bIV.get 0, blake2bIV.get 1, blake2bIV.get 2, blake2bIV.get 3,
      blake2bIV.get 4 ^^^ t.get 0, blake2bIV.get 5 ^^^ t.get 1,
      blake2bIV.get 6 ^^^ (if final then -1 else 0), blake2bIV.get 7 ^^^ 0] = start h t final := by
  funext i j
  fin_cases i
  · fin_cases j <;> rfl
  · fin_cases j <;> rfl
  · fin_cases j
    exacts [blake2bIV_eq 0, blake2bIV_eq 1, blake2bIV_eq 2, blake2bIV_eq 3]
  · fin_cases j
    exacts [congrArg (· ^^^ t.get 0) (blake2bIV_eq 4), congrArg (· ^^^ t.get 1) (blake2bIV_eq 5),
      congrArg (· ^^^ (if final then -1 else 0)) (blake2bIV_eq 6),
      congrArg (· ^^^ 0) (blake2bIV_eq 7)]

/-- The compression that the code makes is that of the square. -/
theorem blake2bCompress_eq (h : Words 8) (t : Words 2) (final : Bool) (block : Bytes) (r : ℕ) :
    (blake2bCompress { h, t, f := #v[if final then -1 else 0, 0] } block r).h =
      compress r h (Vector.ofFn fun i => load64 (block.drop (8 * i))) t final := by
  rw [blake2bCompress, compress, ← square_start h t final, ← square_rounds]
  apply Vector.ext
  intro i hi
  interval_cases i
  all_goals
    simp only [Vector.getElem_ofFn]
    rfl

end Rounds

section Arguments

theorem bytes_load {n : ℕ} {b : Bytes} {o : ℕ} (h : o + 8 * n ≤ b.length) :
    bytes (Vector.ofFn fun i : Fin n => load64 (b.drop (o + 8 * i))) = (b.drop o).take (8 * n) := by
  rw [bytes, Vector.toList_ofFn]
  induction n generalizing o with
  | zero => rfl
  | succ n ih =>
    have hword : littleEndian 8 (load64 (b.drop o)).toNat = (b.drop o).take 8 := by
      have hlen : ((b.drop o).take 8).length = 8 := by
        rw [List.length_take, List.length_drop]
        omega
      have hlt := ofLittleEndian_lt ((b.drop o).take 8)
      rw [hlen] at hlt
      have hself := littleEndian_ofLittleEndian ((b.drop o).take 8)
      rw [hlen] at hself
      rw [load64, BitVec.toNat_ofNat, Nat.mod_eq_of_lt (by simpa using hlt), hself]
    have hrest := ih (o := o + 8) (by omega)
    have hfun : (fun i : Fin n => load64 (b.drop (o + 8 * (i.succ : Fin (n + 1))))) =
        fun i : Fin n => load64 (b.drop (o + 8 + 8 * i)) := by
      funext i
      rw [Fin.val_succ, Nat.mul_succ, Nat.add_comm (8 * (i : ℕ)) 8, Nat.add_assoc]
    rw [List.ofFn_succ, List.flatMap_cons, hfun, hrest, Fin.val_zero, Nat.mul_zero, Nat.add_zero,
      hword, ← List.drop_drop, Nat.mul_succ, Nat.add_comm (8 * n) 8, List.take_add]

theorem length_bytes {n : ℕ} (words : Words n) : (bytes words).length = 8 * n := by
  have hlist (l : List Uint64) :
      (l.flatMap fun x => littleEndian 8 x.toNat).length = 8 * l.length := by
    induction l with
    | nil => rfl
    | cons x l ih =>
      rw [List.flatMap_cons, List.length_append, length_littleEndian, ih, List.length_cons,
        Nat.mul_succ, Nat.add_comm]
  rw [bytes, hlist, Vector.length_toList]

theorem bytes_injective {n : ℕ} {words words' : Words n} (h : bytes words = bytes words') :
    words = words' := by
  have hlist (l l' : List Uint64) (hlen : l.length = l'.length)
      (h : (l.flatMap fun x => littleEndian 8 x.toNat) =
        l'.flatMap fun x => littleEndian 8 x.toNat) : l = l' := by
    induction l generalizing l' with
    | nil => exact (List.eq_nil_of_length_eq_zero hlen.symm).symm
    | cons x l ih =>
      obtain ⟨x', l', rfl⟩ := List.exists_cons_of_length_eq_add_one hlen.symm
      rw [List.flatMap_cons, List.flatMap_cons] at h
      obtain ⟨hx, hl⟩ := List.append_inj h (by rw [length_littleEndian, length_littleEndian])
      have hword := congrArg ofLittleEndian hx
      have hpow : (256 : ℕ) ^ 8 = 2 ^ 64 := by norm_num
      rw [ofLittleEndian_littleEndian, ofLittleEndian_littleEndian, hpow, Nat.mod_eq_of_lt x.isLt,
        Nat.mod_eq_of_lt x'.isLt] at hword
      rw [BitVec.eq_of_toNat_eq hword, ih l' (Nat.succ.inj hlen) hl]
  exact Vector.toList_inj.mp (hlist _ _ (by rw [Vector.length_toList, Vector.length_toList]) h)

/-- The arguments in an input. -/
def parse (input : Bytes) : Arguments where
  rounds := BitVec.ofNat 32 (ofBigEndian (input.take 4))
  h := Vector.ofFn fun i => load64 (input.drop (4 + 8 * i))
  m := Vector.ofFn fun i => load64 (input.drop (68 + 8 * i))
  t := Vector.ofFn fun i => load64 (input.drop (196 + 8 * i))
  final := input.getD 212 0 ≠ 0

theorem length_rounds (x : Arguments) : (fixedBigEndian 4 x.rounds.toNat).length = 4 :=
  length_fixedBigEndian x.rounds.isLt

theorem length_encode (x : Arguments) : x.encode.length = 213 := by
  rw [Arguments.encode, List.length_append, List.length_append, List.length_append,
    List.length_append, length_rounds, length_bytes, length_bytes, length_bytes]
  rfl

/-- The last byte is the flag. -/
theorem getD_encode (x : Arguments) : x.encode.getD 212 0 = if x.final then 1 else 0 := by
  have hsplit : x.encode = (fixedBigEndian 4 x.rounds.toNat ++ (bytes x.h ++ (bytes x.m ++
      bytes x.t))) ++ [if x.final then 1 else 0] := by
    simp only [Arguments.encode, List.append_assoc]
  have hlen : (fixedBigEndian 4 x.rounds.toNat ++ (bytes x.h ++ (bytes x.m ++
      bytes x.t))).length = 212 := by
    rw [List.length_append, List.length_append, List.length_append, length_rounds, length_bytes,
      length_bytes, length_bytes]
  rw [hsplit, List.getD_append_right _ _ _ _ hlen.le, hlen]
  rfl

theorem encode_injective {x x' : Arguments} (h : x.encode = x'.encode) : x = x' := by
  obtain ⟨hrounds, h⟩ := List.append_inj h (by rw [length_rounds, length_rounds])
  obtain ⟨hh, h⟩ := List.append_inj h (by rw [length_bytes, length_bytes])
  obtain ⟨hm, h⟩ := List.append_inj h (by rw [length_bytes, length_bytes])
  obtain ⟨ht, h⟩ := List.append_inj h (by rw [length_bytes, length_bytes])
  have hnumber := congrArg ofBigEndian hrounds
  rw [ofBigEndian_fixedBigEndian, ofBigEndian_fixedBigEndian] at hnumber
  have hfinal : x.final = x'.final := by
    cases hx : x.final <;> cases hx' : x'.final <;> simp [hx, hx'] at h ⊢
  cases x
  cases x'
  simp only [Arguments.mk.injEq]
  exact ⟨BitVec.eq_of_toNat_eq hnumber, bytes_injective hh, bytes_injective hm, bytes_injective ht,
    hfinal⟩

theorem toNat_rounds_parse (input : Bytes) :
    (parse input).rounds.toNat = ofBigEndian (input.take 4) := by
  have hlt := ofBigEndian_lt (input.take 4)
  have hle : 256 ^ (input.take 4).length ≤ 256 ^ 4 :=
    Nat.pow_le_pow_right (by norm_num) (List.length_take_le _ _)
  exact (BitVec.toNat_ofNat _ _).trans (Nat.mod_eq_of_lt (hlt.trans_le hle))

theorem encode_parse {input : Bytes} (hlen : input.length = 213)
    (hfinal : input.getD 212 0 = 0 ∨ input.getD 212 0 = 1) : (parse input).encode = input := by
  have hfour : (input.take 4).length = 4 := List.length_take_of_le (by omega)
  have hlast : input.drop 212 = [input.getD 212 0] := by
    rw [List.drop_eq_getElem_cons (by omega), List.drop_of_length_le (by omega),
      List.getD_eq_getElem _ _ (by omega)]
  have hflag : (if (parse input).final then (1 : UInt8) else 0) = input.getD 212 0 := by
    rw [parse]
    rcases hfinal with h | h <;> rw [h] <;> rfl
  have hsplit (o n : ℕ) : (input.drop o).take n ++ input.drop (o + n) = input.drop o := by
    rw [← List.drop_drop, List.take_append_drop]
  rw [Arguments.encode, toNat_rounds_parse, fixedBigEndian_ofBigEndian hfour, hflag, ← hlast, parse]
  dsimp only
  rw [bytes_load (by omega), bytes_load (by omega), bytes_load (by omega), hsplit 196 16,
    hsplit 68 128, hsplit 4 64, List.take_append_drop]

theorem blake2FRun_of_valid {input : Bytes} (hlen : input.length = 213)
    (hfinal : input.getD 212 0 = 0 ∨ input.getD 212 0 = 1) : blake2FRun input =
      some (bytes (compress (parse input).rounds.toNat (parse input).h (parse input).m
        (parse input).t (parse input).final)) := by
  have hwords : (Vector.ofFn fun i : Fin 16 => load64 (((input.drop 68).take 128).drop (8 * i))) =
      (parse input).m := by
    refine congrArg Vector.ofFn (funext fun i => ?_)
    rw [load64, load64, List.drop_take, List.drop_drop, List.take_take, Nat.min_eq_left (by omega)]
  have hcompress := blake2bCompress_eq (parse input).h (parse input).t (parse input).final
    ((input.drop 68).take 128) (ofBigEndian (input.take 4))
  rw [hwords] at hcompress
  rw [toNat_rounds_parse, ← hcompress, blake2FRun, if_neg (not_not.mpr hlen)]
  dsimp only
  rw [if_neg (by tauto)]
  simp [parse]

/-- The precompiled contract compresses what its input says, and accepts no other input. -/
theorem blake2FRun_eq_some_iff (input output : Bytes) : blake2FRun input = some output ↔
    ∃ x : Arguments, input = x.encode ∧
      output = bytes (compress x.rounds.toNat x.h x.m x.t x.final) := by
  constructor
  · intro h
    have hlen : input.length = 213 := by
      by_contra hlen
      rw [blake2FRun, if_pos hlen] at h
      cases h
    have hfinal : input.getD 212 0 = 0 ∨ input.getD 212 0 = 1 := by
      by_contra hfinal
      rw [blake2FRun, if_neg (not_not.mpr hlen)] at h
      dsimp only at h
      rw [if_pos (not_or.mp hfinal)] at h
      cases h
    rw [blake2FRun_of_valid hlen hfinal] at h
    exact ⟨parse input, (encode_parse hlen hfinal).symm, (Option.some.inj h).symm⟩
  · rintro ⟨x, rfl, rfl⟩
    have hlen := length_encode x
    have hfinal : x.encode.getD 212 0 = 0 ∨ x.encode.getD 212 0 = 1 := by
      rw [getD_encode]
      cases x.final
      · exact .inl rfl
      · exact .inr rfl
    rw [blake2FRun_of_valid hlen hfinal, encode_injective (encode_parse hlen hfinal)]

/-- The compression of the block `abc`. -/
example :
    let x : Arguments := {
      rounds := 12
      h := #v[0x6a09e667f2bdc948, 0xbb67ae8584caa73b, 0x3c6ef372fe94f82b, 0xa54ff53a5f1d36f1,
        0x510e527fade682d1, 0x9b05688c2b3e6c1f, 0x1f83d9abfb41bd6b, 0x5be0cd19137e2179]
      m := #v[0x636261, 0, 0, 0, 0, 0, 0, 0, 0, 0, 0, 0, 0, 0, 0, 0]
      t := #v[3, 0]
      final := true }
    blake2FRun x.encode = some (bytes #v[0x0d4d1c983fa580ba, 0xe9f6129fb697276a,
      0xb7c45a68142f214c, 0xd1a2ffdb6fbb124b, 0x2d79ab2a39c5877d,
      0x95cc3345ded552c2, 0x5a92f1dba88ad318, 0x239900d4ed8623b9]) := by
  decide +kernel

end Arguments

end Silkworm.Blake2
