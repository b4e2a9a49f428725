import Silkworm.LittleEndian
import Silkworm.PaddedBlocks
import Mathlib.Data.BitVec
import Mathlib.Tactic.FinCases

/-!
# RIPEMD-160

A block goes through two lines of 80 steps each. A step uses the word of the block that a
permutation chooses, and passes the five words of the state on by one place. The code leaves the
words in their registers and gives each operation the registers in another order instead.
-/

namespace Silkworm.Ripemd160
open BigEndian LittleEndian PaddedBlocks

abbrev Word := BitVec 32
abbrev Registers := Vector Word 5

def basicF (x y z : Word) : Word := x ^^^ y ^^^ z
def basicG (x y z : Word) : Word := (x &&& y) ||| (~~~x &&& z)
def basicH (x y z : Word) : Word := (x ||| ~~~y) ^^^ z
def basicI (x y z : Word) : Word := (x &&& z) ||| (y &&& ~~~z)
def basicJ (x y z : Word) : Word := x ^^^ (y ||| ~~~z)

def kInitialBuffer : Registers := #v[0x67452301, 0xefcdab89, 0x98badcfe, 0x10325476, 0xc3d2e1f0]

section Standard

def scheme : Scheme UInt8 where
  blockSize := 64
  lengthSize := 8
  mark := 0x80
  zero := 0
  lengthField n := littleEndian 8 (8 * n)
  lengthSize_lt := by decide
  length_lengthField n := length_littleEndian 8 (8 * n)

def blockWords (block : Bytes) : List Word :=
  (blocks 4 block).map fun b => BitVec.ofNat 32 (ofLittleEndian b)

/-- The words of a round, as places in the round before. -/
def rho (i : ℕ) : ℕ := [7, 4, 13, 1, 10, 6, 15, 3, 12, 0, 9, 5, 2, 14, 11, 8].getD i 0

/-- The words of the parallel line in the first round. -/
def pi (i : ℕ) : ℕ := (9 * i + 5) % 16

/-- The shifts of a round belong to the words, in both lines. -/
def shift (round word : ℕ) : ℕ :=
  ([[11, 14, 15, 12, 5, 8, 7, 9, 11, 13, 14, 15, 6, 7, 9, 8],
    [12, 13, 11, 15, 6, 9, 9, 7, 12, 15, 11, 13, 7, 8, 7, 7],
    [13, 15, 14, 11, 7, 7, 6, 8, 13, 14, 13, 12, 5, 5, 6, 9],
    [14, 11, 12, 14, 8, 6, 5, 5, 15, 12, 15, 14, 9, 9, 8, 6],
    [15, 12, 13, 13, 9, 5, 8, 6, 14, 11, 12, 11, 8, 6, 5, 5]].getD round []).getD word 0

/-- What a line does in a step: the function, the constant, the word and the shift. -/
structure Step where
  function : Word → Word → Word → Word
  constant : Word
  word : ℕ
  shift : ℕ

def leftStep (j : ℕ) : Step where
  function := [basicF, basicG, basicH, basicI, basicJ].getD (j / 16) basicF
  constant := [0, 0x5a827999, 0x6ed9eba1, 0x8f1bbcdc, 0xa953fd4e].getD (j / 16) 0
  word := rho^[j / 16] (j % 16)
  shift := shift (j / 16) (rho^[j / 16] (j % 16))

def rightStep (j : ℕ) : Step where
  function := [basicJ, basicI, basicH, basicG, basicF].getD (j / 16) basicF
  constant := [0x50a28be6, 0x5c4dd124, 0x6d703ef3, 0x7a6d76e9, 0].getD (j / 16) 0
  word := rho^[j / 16] (pi (j % 16))
  shift := shift (j / 16) (rho^[j / 16] (pi (j % 16)))

def Step.apply (t : Step) (x : List Word) (v : Registers) : Registers :=
  #v[v[4], (v[0] + t.function v[1] v[2] v[3] + x.getD t.word 0 + t.constant).rotateLeft t.shift + v[4],
    v[1], v[2].rotateLeft 10, v[3]]

def line (step : ℕ → Step) (x : List Word) (h : Registers) : Registers :=
  (List.range 80).foldl (fun v j => (step j).apply x v) h

def compress (h : Registers) (block : Bytes) : Registers :=
  let v := line leftStep (blockWords block) h
  let v' := line rightStep (blockWords block) h
  #v[h[1] + v[2] + v'[3], h[2] + v[3] + v'[4], h[3] + v[4] + v'[0], h[4] + v[0] + v'[1],
    h[0] + v[1] + v'[2]]

def ripemd160 (message : Bytes) : Bytes :=
  (scheme.digest compress kInitialBuffer message).toList.flatMap fun x => littleEndian 4 x.toNat

end Standard

section Code

def rol (x : Word) (n : ℕ) : Word := x <<< n ||| x >>> (32 - n)

/-- An operation on the registers `a` to `e`, with the word `x` of the block. -/
def operation (f : Word → Word → Word → Word) (constant : Word) (a b c d e : Fin 5) (x s : ℕ)
    (X : List Word) (m : Registers) : Registers :=
  let sum := m[a] + (f m[b] m[c] m[d] + X.getD x 0 + constant)
  (m.set a (rol sum s + m[e])).set c (rol m[c] 10)

def ff := operation basicF 0
def gg := operation basicG 0x5a827999
def hh := operation basicH 0x6ed9eba1
def ii := operation basicI 0x8f1bbcdc
def jj := operation basicJ 0xa953fd4e
def fff := operation basicF 0
def ggg := operation basicG 0x7a6d76e9
def hhh := operation basicH 0x6d703ef3
def iii := operation basicI 0x5c4dd124
def jjj := operation basicJ 0x50a28be6

abbrev aa : Fin 5 := 0
abbrev bb : Fin 5 := 1
abbrev cc : Fin 5 := 2
abbrev dd : Fin 5 := 3
abbrev ee : Fin 5 := 4

abbrev aaa : Fin 5 := 0
abbrev bbb : Fin 5 := 1
abbrev ccc : Fin 5 := 2
abbrev ddd : Fin 5 := 3
abbrev eee : Fin 5 := 4

def leftOperations : List (List Word → Registers → Registers) := [
  -- round 1
  ff aa bb cc dd ee 0 11, ff ee aa bb cc dd 1 14, ff dd ee aa bb cc 2 15, ff cc dd ee aa bb 3 12,
  ff bb cc dd ee aa 4 5, ff aa bb cc dd ee 5 8, ff ee aa bb cc dd 6 7, ff dd ee aa bb cc 7 9,
  ff cc dd ee aa bb 8 11, ff bb cc dd ee aa 9 13, ff aa bb cc dd ee 10 14, ff ee aa bb cc dd 11 15,
  ff dd ee aa bb cc 12 6, ff cc dd ee aa bb 13 7, ff bb cc dd ee aa 14 9, ff aa bb cc dd ee 15 8,
  -- round 2
  gg ee aa bb cc dd 7 7, gg dd ee aa bb cc 4 6, gg cc dd ee aa bb 13 8, gg bb cc dd ee aa 1 13,
  gg aa bb cc dd ee 10 11, gg ee aa bb cc dd 6 9, gg dd ee aa bb cc 15 7, gg cc dd ee aa bb 3 15,
  gg bb cc dd ee aa 12 7, gg aa bb cc dd ee 0 12, gg ee aa bb cc dd 9 15, gg dd ee aa bb cc 5 9,
  gg cc dd ee aa bb 2 11, gg bb cc dd ee aa 14 7, gg aa bb cc dd ee 11 13, gg ee aa bb cc dd 8 12,
  -- round 3
  hh dd ee aa bb cc 3 11, hh cc dd ee aa bb 10 13, hh bb cc dd ee aa 14 6, hh aa bb cc dd ee 4 7,
  hh ee aa bb cc dd 9 14, hh dd ee aa bb cc 15 9, hh cc dd ee aa bb 8 13, hh bb cc dd ee aa 1 15,
  hh aa bb cc dd ee 2 14, hh ee aa bb cc dd 7 8, hh dd ee aa bb cc 0 13, hh cc dd ee aa bb 6 6,
  hh bb cc dd ee aa 13 5, hh aa bb cc dd ee 11 12, hh ee aa bb cc dd 5 7, hh dd ee aa bb cc 12 5,
  -- round 4
  ii cc dd ee aa bb 1 11, ii bb cc dd ee aa 9 12, ii aa bb cc dd ee 11 14, ii ee aa bb cc dd 10 15,
  ii dd ee aa bb cc 0 14, ii cc dd ee aa bb 8 15, ii bb cc dd ee aa 12 9, ii aa bb cc dd ee 4 8,
  ii ee aa bb cc dd 13 9, ii dd ee aa bb cc 3 14, ii cc dd ee aa bb 7 5, ii bb cc dd ee aa 15 6,
  ii aa bb cc dd ee 14 8, ii ee aa bb cc dd 5 6, ii dd ee aa bb cc 6 5, ii cc dd ee aa bb 2 12,
  -- round 5
  jj bb cc dd ee aa 4 9, jj aa bb cc dd ee 0 15, jj ee aa bb cc dd 5 5, jj dd ee aa bb cc 9 11,
  jj cc dd ee aa bb 7 6, jj bb cc dd ee aa 12 8, jj aa bb cc dd ee 2 13, jj ee aa bb cc dd 10 12,
  jj dd ee aa bb cc 14 5, jj cc dd ee aa bb 1 12, jj bb cc dd ee aa 3 13, jj aa bb cc dd ee 8 14,
  jj ee aa bb cc dd 11 11, jj dd ee aa bb cc 6 8, jj cc dd ee aa bb 15 5, jj bb cc dd ee aa 13 6]

def parallelOperations : List (List Word → Registers → Registers) := [
  -- parallel round 1
  jjj aaa bbb ccc ddd eee 5 8, jjj eee aaa bbb ccc ddd 14 9,
  jjj ddd eee aaa bbb ccc 7 9, jjj ccc ddd eee aaa bbb 0 11,
  jjj bbb ccc ddd eee aaa 9 13, jjj aaa bbb ccc ddd eee 2 15,
  jjj eee aaa bbb ccc ddd 11 15, jjj ddd eee aaa bbb ccc 4 5,
  jjj ccc ddd eee aaa bbb 13 7, jjj bbb ccc ddd eee aaa 6 7,
  jjj aaa bbb ccc ddd eee 15 8, jjj eee aaa bbb ccc ddd 8 11,
  jjj ddd eee aaa bbb ccc 1 14, jjj ccc ddd eee aaa bbb 10 14,
  jjj bbb ccc ddd eee aaa 3 12, jjj aaa bbb ccc ddd eee 12 6,
  -- parallel round 2
  iii eee aaa bbb ccc ddd 6 9, iii ddd eee aaa bbb ccc 11 13,
  iii ccc ddd eee aaa bbb 3 15, iii bbb ccc ddd eee aaa 7 7,
  iii aaa bbb ccc ddd eee 0 12, iii eee aaa bbb ccc ddd 13 8,
  iii ddd eee aaa bbb ccc 5 9, iii ccc ddd eee aaa bbb 10 11,
  iii bbb ccc ddd eee aaa 14 7, iii aaa bbb ccc ddd eee 15 7,
  iii eee aaa bbb ccc ddd 8 12, iii ddd eee aaa bbb ccc 12 7,
  iii ccc ddd eee aaa bbb 4 6, iii bbb ccc ddd eee aaa 9 15,
  iii aaa bbb ccc ddd eee 1 13, iii eee aaa bbb ccc ddd 2 11,
  -- parallel round 3
  hhh ddd eee aaa bbb ccc 15 9, hhh ccc ddd eee aaa bbb 5 7,
  hhh bbb ccc ddd eee aaa 1 15, hhh aaa bbb ccc ddd eee 3 11,
  hhh eee aaa bbb ccc ddd 7 8, hhh ddd eee aaa bbb ccc 14 6,
  hhh ccc ddd eee aaa bbb 6 6, hhh bbb ccc ddd eee aaa 9 14,
  hhh aaa bbb ccc ddd eee 11 12, hhh eee aaa bbb ccc ddd 8 13,
  hhh ddd eee aaa bbb ccc 12 5, hhh ccc ddd eee aaa bbb 2 14,
  hhh bbb ccc ddd eee aaa 10 13, hhh aaa bbb ccc ddd eee 0 13,
  hhh eee aaa bbb ccc ddd 4 7, hhh ddd eee aaa bbb ccc 13 5,
  -- parallel round 4
  ggg ccc ddd eee aaa bbb 8 15, ggg bbb ccc ddd eee aaa 6 5,
  ggg aaa bbb ccc ddd eee 4 8, ggg eee aaa bbb ccc ddd 1 11,
  ggg ddd eee aaa bbb ccc 3 14, ggg ccc ddd eee aaa bbb 11 14,
  ggg bbb ccc ddd eee aaa 15 6, ggg aaa bbb ccc ddd eee 0 14,
  ggg eee aaa bbb ccc ddd 5 6, ggg ddd eee aaa bbb ccc 12 9,
  ggg ccc ddd eee aaa bbb 2 12, ggg bbb ccc ddd eee aaa 13 9,
  ggg aaa bbb ccc ddd eee 9 12, ggg eee aaa bbb ccc ddd 7 5,
  ggg ddd eee aaa bbb ccc 10 15, ggg ccc ddd eee aaa bbb 14 8,
  -- parallel round 5
  fff bbb ccc ddd eee aaa 12 8, fff aaa bbb ccc ddd eee 15 5,
  fff eee aaa bbb ccc ddd 10 12, fff ddd eee aaa bbb ccc 4 9,
  fff ccc ddd eee aaa bbb 1 12, fff bbb ccc ddd eee aaa 5 5,
  fff aaa bbb ccc ddd eee 8 14, fff eee aaa bbb ccc ddd 7 6,
  fff ddd eee aaa bbb ccc 6 8, fff ccc ddd eee aaa bbb 2 13,
  fff bbb ccc ddd eee aaa 13 6, fff aaa bbb ccc ddd eee 14 5,
  fff eee aaa bbb ccc ddd 0 15, fff ddd eee aaa bbb ccc 3 13,
  fff ccc ddd eee aaa bbb 9 11, fff bbb ccc ddd eee aaa 11 11]

def runOperations (operations : List (List Word → Registers → Registers)) (X : List Word)
    (m : Registers) : Registers :=
  operations.foldl (fun m operation => operation X m) m

/-- The end of `rmd160_compress`. -/
def combineResults (mdBuf m m' : Registers) : Registers :=
  #v[m'[ddd] + (m[cc] + mdBuf[1]), mdBuf[2] + m[dd] + m'[eee], mdBuf[3] + m[ee] + m'[aaa],
    mdBuf[4] + m[aa] + m'[bbb], mdBuf[0] + m[bb] + m'[ccc]]

def rmd160Compress (mdBuf : Registers) (X : List Word) : Registers :=
  combineResults mdBuf (runOperations leftOperations X mdBuf)
    (runOperations parallelOperations X mdBuf)

/-- A value goes into the word of byte `i`, at the place of the byte. -/
def xorAt (X : List Word) (i : ℕ) (value : Word) : List Word :=
  X.set (i >>> 2) (X.getD (i >>> 2) 0 ^^^ value <<< (8 * (i &&& 3)))

/-- The length counts modulo 2³² with `mswlen` as its upper half. -/
def rmd160Finish (mdBuf : Registers) (strptr : Bytes) (lswlen mswlen : Word) : Registers :=
  let X := (List.range (lswlen &&& 63).toNat).foldl
    (fun X i => xorAt X i ((strptr.getD i 0).toBitVec.setWidth 32)) (List.replicate 16 0)
  let i := ((lswlen >>> 2) &&& 15).toNat
  let X := X.set i (X.getD i 0 ^^^ (1 : Word) <<< (8 * (lswlen &&& 3) + 7).toNat)
  let (mdBuf, X) :=
    if 55 < lswlen &&& 63 then (rmd160Compress mdBuf X, List.replicate 16 0) else (mdBuf, X)
  rmd160Compress mdBuf ((X.set 14 (lswlen <<< 3)).set 15 (lswlen >>> 29 ||| mswlen <<< 3))

def loadLittleU32 (bytes : Bytes) : Word := BitVec.ofNat 32 (ofLittleEndian (bytes.take 4))

/-- The loop over the blocks, which leaves the rest of the input. -/
def compressBlocks (buf : Registers) (ptr : Bytes) : Registers × Bytes :=
  if 64 ≤ ptr.length then
    let current := (List.range 16).map fun i => loadLittleU32 (ptr.drop (4 * i))
    compressBlocks (rmd160Compress buf current) (ptr.drop 64)
  else (buf, ptr)
termination_by ptr.length

def calculateRipemd160 (input : Bytes) : Bytes :=
  let (buf, ptr) := compressBlocks kInitialBuffer input
  let buf := rmd160Finish buf ptr (BitVec.ofNat 32 input.length) 0
  buf.toList.flatMap fun x : Word => [UInt8.ofBitVec (x.setWidth 8),
    UInt8.ofBitVec ((x >>> 8).setWidth 8), UInt8.ofBitVec ((x >>> 16).setWidth 8),
    UInt8.ofBitVec ((x >>> 24).setWidth 8)]

end Code

section Lines

/-- The register that has the word `r` of the state before step `j`. -/
def register (j r : ℕ) : Fin 5 := Fin.ofNat 5 (r + 4 * j)

/-- The operation of a step on its registers. -/
def Step.operation (t : Step) (j : ℕ) : List Word → Registers → Registers :=
  Ripemd160.operation t.function t.constant (register j 0) (register j 1) (register j 2)
    (register j 3) (register j 4) t.word t.shift

theorem leftOperations_eq :
    leftOperations = (List.range 80).map fun j => (leftStep j).operation j := rfl

theorem parallelOperations_eq :
    parallelOperations = (List.range 80).map fun j => (rightStep j).operation j := rfl

theorem shift_leftStep : ∀ j < 80, (leftStep j).shift < 32 := by decide

theorem shift_rightStep : ∀ j < 80, (rightStep j).shift < 32 := by decide

theorem rol_eq {n : ℕ} (x : Word) (h : n < 32) : rol x n = x.rotateLeft n := by
  rw [rol, BitVec.rotateLeft_def, Nat.mod_eq_of_lt h]

/-- The registers hold the state of the line before step `j`. -/
def Aligned (j : ℕ) (v m : Registers) : Prop := ∀ r : Fin 5, v[r] = m[register j r]

theorem aligned_zero (m : Registers) : Aligned 0 m m := by
  intro r
  fin_cases r <;> rfl

theorem register_ne {j r r' : ℕ} (hr : r < 5) (hr' : r' < 5) (hne : r ≠ r') :
    register j r ≠ register j r' := by
  intro h
  have hval := congrArg Fin.val h
  simp only [register, Fin.val_ofNat] at hval
  omega

theorem register_succ (j r : ℕ) : register (j + 1) r = register j ((r + 4) % 5) := by
  apply Fin.ext
  simp only [register, Fin.val_ofNat]
  omega

section Operation

variable {f : Word → Word → Word → Word} {k : Word} {a b c d e r : Fin 5} {x s : ℕ}
  {X : List Word} {m : Registers}

theorem getElem_operation_of_ne (ha : a ≠ r) (hc : c ≠ r) :
    (operation f k a b c d e x s X m)[r] = m[r] := by
  simp [operation, Fin.val_ne_of_ne ha, Fin.val_ne_of_ne hc]

theorem getElem_operation_first (hc : c ≠ a) : (operation f k a b c d e x s X m)[a] =
    rol (m[a] + (f m[b] m[c] m[d] + X.getD x 0 + k)) s + m[e] := by
  simp [operation, Fin.val_ne_of_ne hc]

theorem getElem_operation_third : (operation f k a b c d e x s X m)[c] = rol m[c] 10 := by
  simp [operation]

end Operation

theorem Aligned.step {j : ℕ} {v m : Registers} (h : Aligned j v m) (t : Step)
    (ht : t.shift < 32) (X : List Word) : Aligned (j + 1) (t.apply X v) (t.operation j X m) := by
  have h0 : v[0] = m[register j 0] := h 0
  have h1 : v[1] = m[register j 1] := h 1
  have h2 : v[2] = m[register j 2] := h 2
  have h3 : v[3] = m[register j 3] := h 3
  have h4 : v[4] = m[register j 4] := h 4
  have h20 : register j 2 ≠ register j 0 := register_ne (by decide) (by decide) (by decide)
  -- The registers of the other three words are left alone.
  have hkept {i : ℕ} (hi : i < 5) (h0 : 0 ≠ i) (h2 : 2 ≠ i) :
      (t.operation j X m)[register j i] = m[register j i] :=
    getElem_operation_of_ne (register_ne (by decide) hi h0) (register_ne (by decide) hi h2)
  intro r
  simp only [register_succ]
  fin_cases r
  · exact h4.trans (hkept (by decide) (by decide) (by decide)).symm
  · have hnew := (getElem_operation_first (f := t.function) (k := t.constant) (m := m) (X := X)
      (b := register j 1) (d := register j 3) (e := register j 4) (x := t.word) (s := t.shift) h20)
    refine Eq.trans ?_ hnew.symm
    rw [rol_eq _ ht, ← h0, ← h1, ← h2, ← h3, ← h4, ← add_assoc, ← add_assoc]
    rfl
  · exact h1.trans (hkept (by decide) (by decide) (by decide)).symm
  · refine Eq.trans ?_ getElem_operation_third.symm
    rw [rol_eq _ (by decide), ← h2]
    rfl
  · exact h3.trans (hkept (by decide) (by decide) (by decide)).symm

/-- After 80 steps the words are in their registers again. -/
theorem runOperations_eq {step : ℕ → Step} {operations : List (List Word → Registers → Registers)}
    (hoperations : operations = (List.range 80).map fun j => (step j).operation j)
    (hshift : ∀ j < 80, (step j).shift < 32) (X : List Word) (m : Registers) :
    runOperations operations X m = line step X m := by
  have hsteps (n : ℕ) (hn : n ≤ 80) :
      Aligned n ((List.range n).foldl (fun v j => (step j).apply X v) m)
        ((List.range n).foldl (fun m j => (step j).operation j X m) m) := by
    induction n with
    | zero => exact aligned_zero m
    | succ n ih =>
      have hlt : n < 80 := Nat.lt_of_succ_le hn
      rw [List.range_succ, List.foldl_concat, List.foldl_concat]
      exact (ih hlt.le).step (step n) (hshift n hlt) X
  have hall := hsteps 80 le_rfl
  rw [runOperations, hoperations, List.foldl_map, line]
  apply Vector.ext
  intro r hr
  have hregister : register 80 r = ⟨r, hr⟩ := by
    apply Fin.ext
    simp only [register, Fin.val_ofNat]
    omega
  have hr' := hall ⟨r, hr⟩
  simp only [hregister] at hr'
  exact hr'.symm

theorem combineResults_eq (h v v' : Registers) : combineResults h v v' =
    #v[h[1] + v[2] + v'[3], h[2] + v[3] + v'[4], h[3] + v[4] + v'[0], h[4] + v[0] + v'[1],
      h[0] + v[1] + v'[2]] := by
  have hfirst : v'[ddd] + (v[cc] + h[1]) = h[1] + v[2] + v'[3] := by
    rw [add_comm v'[ddd], add_comm v[cc]]
    rfl
  rw [combineResults, hfirst]
  rfl

theorem rmd160Compress_eq (h : Registers) (block : Bytes) :
    rmd160Compress h (blockWords block) = compress h block := by
  have hleft := runOperations_eq leftOperations_eq shift_leftStep (blockWords block) h
  have hright := runOperations_eq parallelOperations_eq shift_rightStep (blockWords block) h
  exact (congrArg₂ (combineResults h) hleft hright).trans (combineResults_eq h _ _)

end Lines

section Finish

variable {block tail : Bytes} {n : ℕ}

theorem length_blockWords (h : block.length = 64) : (blockWords block).length = 16 := by
  simp [blockWords, blocks, h]

theorem getElem?_blockWords {q : ℕ} (h : block.length = 64) (hq : q < 16) :
    (blockWords block)[q]? = some (loadLittleU32 (block.drop (4 * q))) := by
  simp [blockWords, blocks, loadLittleU32, h, hq]

theorem blockWords_eq (h : block.length = 64) :
    blockWords block = (List.range 16).map fun i => loadLittleU32 (block.drop (4 * i)) := by
  rw [blockWords, blocks, h, List.map_map]
  rfl

theorem ofNat_xor (a b x : ℕ) : BitVec.ofNat 32 (a ^^^ (2 ^ b * x)) =
    BitVec.ofNat 32 a ^^^ BitVec.ofNat 32 x <<< b := by
  apply BitVec.eq_of_toNat_eq
  rw [BitVec.toNat_xor, BitVec.toNat_shiftLeft, BitVec.toNat_ofNat, BitVec.toNat_ofNat,
    BitVec.toNat_ofNat, Nat.xor_mod_two_pow, Nat.shiftLeft_eq, Nat.mod_mul_mod, Nat.mul_comm x]

/-- A byte where the block has none yet. -/
theorem xorAt_blockWords {i : ℕ} (h : block.length = 64) (hzero : block[i]? = some 0) (x : UInt8) :
    xorAt (blockWords block) i (BitVec.ofNat 32 x.toNat) = blockWords (block.set i x) := by
  have hi : i < 64 := by
    have hlt := (List.getElem?_eq_some_iff.mp hzero).1
    rwa [h] at hlt
  have hset : (block.set i x).length = 64 := by rw [List.length_set, h]
  have hword : i >>> 2 = i / 4 := Nat.shiftRight_eq_div_pow i 2
  have hbyte : i &&& 3 = i % 4 := Nat.and_two_pow_sub_one_eq_mod i 2
  apply List.ext_getElem?
  intro q
  by_cases hq : q < 16
  · rw [xorAt, hword, hbyte, getElem?_blockWords hset hq, List.getElem?_set]
    by_cases hplace : i / 4 = q
    · have hlen : i / 4 < (blockWords block).length := by
        rw [length_blockWords h]
        omega
      have hat : ((block.drop (4 * q)).take 4)[i % 4]? = some 0 := by
        rw [List.getElem?_take_of_lt (Nat.mod_lt i (by decide)), List.getElem?_drop, ← hzero]
        congr 1
        omega
      have hdrop := take_drop_set_of_eq (l := block) hplace x
      have hxor := ofLittleEndian_set hat x
      rw [UInt8.zero_xor] at hxor
      rw [if_pos hplace, if_pos hlen, hplace, List.getD_eq_getElem?_getD, getElem?_blockWords h hq,
        Option.getD_some, loadLittleU32, loadLittleU32, hdrop, hxor, ofNat_xor]
    · have hdrop := take_drop_set_of_ne (l := block) (by decide) hplace x
      rw [if_neg hplace, getElem?_blockWords h hq, loadLittleU32, loadLittleU32, hdrop]
  · have hout {X : List Word} (hX : X.length = 16) : X[q]? = none :=
      List.getElem?_eq_none (by omega)
    rw [xorAt, hout (by rw [List.length_set, length_blockWords h]), hout (length_blockWords hset)]

theorem xorAt_tail {m : ℕ} (hm : m < 64) (b : Bytes) (hb : b.length = m) (x : UInt8) :
    xorAt (blockWords (b ++ List.replicate (64 - m) 0)) m (BitVec.ofNat 32 x.toNat) =
      blockWords (b ++ x :: List.replicate (63 - m) 0) := by
  have hsucc : 64 - m = (63 - m) + 1 := by omega
  have hlen : (b ++ List.replicate (64 - m) 0).length = 64 := by
    rw [List.length_append, List.length_replicate]
    omega
  have hzero : (b ++ List.replicate (64 - m) (0 : UInt8))[m]? = some 0 := by
    rw [List.getElem?_append_right hb.le, hb, Nat.sub_self, hsucc]
    rfl
  rw [xorAt_blockWords hlen hzero, List.set_append_right _ _ hb.le, hb, Nat.sub_self, hsucc]
  rfl

/-- The loop over the bytes of the rest. -/
theorem foldl_xorAt (h : tail.length < 64) {m : ℕ} (hm : m ≤ tail.length) :
    (List.range m).foldl (fun X i => xorAt X i ((tail.getD i 0).toBitVec.setWidth 32))
      (List.replicate 16 0) = blockWords (tail.take m ++ List.replicate (64 - m) 0) := by
  induction m with
  | zero =>
    rw [blockWords_eq (by simp)]
    simp only [loadLittleU32, List.take_zero, List.nil_append, List.drop_replicate,
      List.take_replicate, ofLittleEndian_replicate, List.map_const', List.length_range]
    rfl
  | succ m ih =>
    have hlt : m < tail.length := Nat.lt_of_succ_le hm
    have hlen : (tail.take m).length = m := List.length_take_of_le hlt.le
    have hbyte : (tail.getD m 0).toBitVec.setWidth 32 = BitVec.ofNat 32 tail[m].toNat := by
      rw [List.getD_eq_getElem?_getD, List.getElem?_eq_getElem hlt, Option.getD_some]
      exact BitVec.eq_of_toNat_eq (by simp)
    rw [List.range_succ, List.foldl_concat, ih hlt.le, hbyte, xorAt_tail (by omega) _ hlen,
      ← List.take_concat_get' tail m hlt, List.append_assoc,
      show 64 - (m + 1) = 63 - m by omega]
    rfl

/-- The mark is put where the rest ends. -/
theorem set_mark (lswlen : Word) (X : List Word) :
    X.set ((lswlen >>> 2) &&& 15).toNat (X.getD ((lswlen >>> 2) &&& 15).toNat 0 ^^^
      (1 : Word) <<< (8 * (lswlen &&& 3) + 7).toNat) =
    xorAt X (lswlen.toNat % 64) (BitVec.ofNat 32 (0x80 : UInt8).toNat) := by
  have hword : ((lswlen >>> 2) &&& 15).toNat = (lswlen.toNat % 64) >>> 2 := by
    rw [BitVec.toNat_and, BitVec.toNat_ushiftRight, Nat.shiftRight_eq_div_pow,
      Nat.shiftRight_eq_div_pow]
    refine (Nat.and_two_pow_sub_one_eq_mod _ 4).trans ?_
    omega
  have hlow : (lswlen &&& 3).toNat = (lswlen.toNat % 64) &&& 3 := by
    rw [BitVec.toNat_and]
    refine (Nat.and_two_pow_sub_one_eq_mod _ 2).trans
      (Eq.trans ?_ (Nat.and_two_pow_sub_one_eq_mod _ 2).symm)
    omega
  have hlt : (lswlen.toNat % 64) &&& 3 < 4 := Nat.and_lt_two_pow _ (by decide : 3 < 2 ^ 2)
  have hplace : (8 * (lswlen &&& 3) + 7).toNat = 7 + 8 * ((lswlen.toNat % 64) &&& 3) := by
    have h8 : (8 : Word).toNat = 8 := rfl
    have h7 : (7 : Word).toNat = 7 := rfl
    rw [BitVec.toNat_add, BitVec.toNat_mul, hlow, h8, h7]
    omega
  rw [xorAt, hword, hplace, BitVec.shiftLeft_add]
  rfl

/-- The field of the length takes the last two words. -/
theorem set_length {b : Bytes} (hb : b.length = 56) (hn : n < 2 ^ 32) :
    ((blockWords (b ++ List.replicate 8 0)).set 14 (BitVec.ofNat 32 n <<< 3)).set 15
      (BitVec.ofNat 32 n >>> 29 ||| (0 : Word) <<< 3) = blockWords (b ++ littleEndian 8 (8 * n)) := by
  have hlength {c : Bytes} (hc : c.length = 8) : (b ++ c).length = 64 := by
    rw [List.length_append, hb, hc]
  have hzeros : (b ++ List.replicate 8 (0 : UInt8)).length = 64 := hlength (by simp)
  have hfield : (b ++ littleEndian 8 (8 * n)).length = 64 := hlength (by simp)
  have hsplit : littleEndian 8 (8 * n) = littleEndian 4 (8 * n) ++ littleEndian 4 (8 * n / 2 ^ 32) :=
    littleEndian_add 4 4 (8 * n)
  have hword (k : ℕ) (c : Bytes) : loadLittleU32 (littleEndian 4 k ++ c) = BitVec.ofNat 32 k := by
    rw [loadLittleU32, List.take_left' (length_littleEndian 4 k), ofLittleEndian_littleEndian]
    exact BitVec.eq_of_toNat_eq (by simp)
  apply List.ext_getElem?
  intro q
  rw [List.getElem?_set, List.getElem?_set, List.length_set, length_blockWords hzeros]
  by_cases h15 : 15 = q
  · subst h15
    have hdrop : (b ++ littleEndian 8 (8 * n)).drop (4 * 15) = littleEndian 4 (8 * n / 2 ^ 32) := by
      rw [hsplit, ← List.append_assoc]
      exact List.drop_left' (by simp [hb])
    have hhigh : BitVec.ofNat 32 n >>> 29 ||| (0 : Word) <<< 3 = BitVec.ofNat 32 (8 * n / 2 ^ 32) := by
      have hor (x : Word) : x ||| (0 : Word) <<< 3 = x := BitVec.or_zero
      apply BitVec.eq_of_toNat_eq
      rw [hor, BitVec.toNat_ushiftRight, BitVec.toNat_ofNat, BitVec.toNat_ofNat,
        Nat.shiftRight_eq_div_pow]
      omega
    have hload := hword (8 * n / 2 ^ 32) []
    rw [List.append_nil] at hload
    rw [if_pos rfl, if_pos (by decide), getElem?_blockWords hfield (by decide), hdrop, hload, hhigh]
  · rw [if_neg h15]
    by_cases h14 : 14 = q
    · subst h14
      have hdrop : (b ++ littleEndian 8 (8 * n)).drop (4 * 14) = littleEndian 8 (8 * n) :=
        List.drop_left' hb
      have hlow : BitVec.ofNat 32 n <<< 3 = BitVec.ofNat 32 (8 * n) := by
        apply BitVec.eq_of_toNat_eq
        simp only [BitVec.toNat_shiftLeft, BitVec.toNat_ofNat, Nat.shiftLeft_eq]
        omega
      rw [if_pos rfl, if_pos (by decide), getElem?_blockWords hfield (by decide), hdrop, hsplit,
        hword, hlow]
    · rw [if_neg h14]
      by_cases hq : q < 14
      · have hdrop (c : Bytes) : ((b ++ c).drop (4 * q)).take 4 = (b.drop (4 * q)).take 4 := by
          rw [List.drop_append_of_le_length (by omega), List.take_append_of_le_length (by
            rw [List.length_drop]
            omega)]
        rw [getElem?_blockWords hzeros (by omega), getElem?_blockWords hfield (by omega),
          loadLittleU32, loadLittleU32, hdrop, hdrop]
      · have hout {block : Bytes} (hblock : block.length = 64) : (blockWords block)[q]? = none :=
          List.getElem?_eq_none (by rw [length_blockWords hblock]; omega)
        rw [hout hzeros, hout hfield]

theorem rmd160Finish_eq (h : Registers) (hn : n < 2 ^ 32) (ht : n % 64 = tail.length) :
    rmd160Finish h tail (BitVec.ofNat 32 n) 0 = (scheme.closing n tail).foldl compress h := by
  have hlt : tail.length < 64 := ht ▸ Nat.mod_lt n (by decide)
  have hmod : (BitVec.ofNat 32 n).toNat = n := Nat.mod_eq_of_lt hn
  have hrest : (BitVec.ofNat 32 n &&& 63).toNat = tail.length := by
    rw [BitVec.toNat_and, hmod, ← ht]
    exact Nat.and_two_pow_sub_one_eq_mod n 6
  have hcompare : 55 < (BitVec.ofNat 32 n &&& 63) ↔ 55 < tail.length := by
    rw [BitVec.lt_def, hrest]
    rfl
  rw [rmd160Finish, hrest, foldl_xorAt hlt le_rfl, List.take_length, set_mark, hmod, ht,
    xorAt_tail hlt tail rfl, Scheme.closing]
  change _ = List.foldl compress h (if tail.length + 1 + 8 ≤ 64 then _ else _)
  by_cases hfits : tail.length + 1 + 8 ≤ 64
  · have hlen : (tail ++ 0x80 :: List.replicate (64 - 8 - 1 - tail.length) 0).length = 56 := by
      rw [List.length_append, List.length_cons, List.length_replicate]
      omega
    have hsplit : tail ++ 0x80 :: List.replicate (63 - tail.length) (0 : UInt8) =
        tail ++ 0x80 :: List.replicate (64 - 8 - 1 - tail.length) 0 ++ List.replicate 8 0 := by
      rw [List.append_assoc, List.cons_append, ← List.replicate_add]
      congr 3
      omega
    rw [if_neg (by rw [hcompare]; omega), if_pos hfits, hsplit]
    simp only [set_length hlen hn, rmd160Compress_eq]
    rfl
  · have hzeros : List.replicate 16 (0 : Word) =
        blockWords (List.replicate 56 0 ++ List.replicate 8 0) :=
      foldl_xorAt (by decide : ([] : Bytes).length < 64) le_rfl
    rw [if_pos (by rw [hcompare]; omega), if_neg hfits, hzeros]
    simp only [set_length (List.length_replicate ..) hn, rmd160Compress_eq]
    rfl

end Finish

section Message

theorem compressBlocks_eq (h : Registers) (ptr : Bytes) : compressBlocks h ptr =
    ((blocks 64 ptr).foldl compress h, ptr.drop (64 * (ptr.length / 64))) := by
  induction hk : ptr.length / 64 generalizing h ptr with
  | zero =>
    have hlt : ptr.length < 64 := (Nat.div_eq_zero_iff_lt (by decide)).mp hk
    rw [compressBlocks, if_neg (not_le.mpr hlt), blocks_of_lt hlt]
    rfl
  | succ k ih =>
    have hle : 64 ≤ ptr.length := by omega
    have hrest : (ptr.drop 64).length / 64 = k := by
      rw [List.length_drop]
      omega
    have htake : (ptr.take 64).length = 64 := List.length_take_of_le hle
    have hwords : (List.range 16).map (fun i => loadLittleU32 (ptr.drop (4 * i))) =
        blockWords (ptr.take 64) := by
      rw [blockWords_eq htake]
      apply List.map_congr_left
      intro i hi
      have hi' := List.mem_range.mp hi
      rw [loadLittleU32, loadLittleU32, List.drop_take, List.take_take, Nat.min_eq_left (by omega)]
    rw [compressBlocks, if_pos hle, hwords]
    simp only [rmd160Compress_eq]
    rw [ih _ _ hrest, blocks_of_le (by decide) hle, List.foldl_cons, List.drop_drop, Nat.mul_succ,
      Nat.add_comm (64 * k)]

theorem storeWord_eq (x : Word) : [UInt8.ofBitVec (x.setWidth 8),
    UInt8.ofBitVec ((x >>> 8).setWidth 8), UInt8.ofBitVec ((x >>> 16).setWidth 8),
    UInt8.ofBitVec ((x >>> 24).setWidth 8)] = littleEndian 4 x.toNat := by
  have hbyte (y : Word) : UInt8.ofBitVec (y.setWidth 8) = UInt8.ofNat y.toNat := by
    apply UInt8.toNat_inj.mp
    simp
  simp only [hbyte, littleEndian, BitVec.toNat_ushiftRight, Nat.shiftRight_eq_div_pow,
    Nat.div_div_eq_div_mul]

theorem calculateRipemd160_eq {input : Bytes} (h : input.length < 2 ^ 32) :
    calculateRipemd160 input = ripemd160 input := by
  have htail : input.length % 64 =
      (input.drop (64 * (input.length / 64))).length := by
    rw [List.length_drop]
    omega
  have hblocks : blocks 64 (scheme.pad input) = blocks 64 input ++
      scheme.closing input.length (input.drop (64 * (input.length / 64))) := scheme.blocks_rest rfl
  rw [calculateRipemd160, compressBlocks_eq]
  simp only [rmd160Finish_eq _ h htail, storeWord_eq]
  rw [← List.foldl_append, ← hblocks]
  rfl

def rip160Run (input : Bytes) : Option Bytes :=
  some (List.replicate 12 0 ++ calculateRipemd160 input)

/-- The contract returns the hash of an input whose length fits in 32 bits. -/
theorem rip160Run_eq (input : Bytes) (h : input.length < 2 ^ 32) :
    rip160Run input = some (List.replicate 12 0 ++ ripemd160 input) :=
  congrArg (fun hash => some (List.replicate 12 0 ++ hash)) (calculateRipemd160_eq h)

theorem rip160Run_eq_abc : rip160Run [0x61, 0x62, 0x63] = some [
    0, 0, 0, 0, 0, 0, 0, 0, 0, 0, 0, 0,
    0x8e, 0xb2, 0x08, 0xf7, 0xe0, 0x5d, 0x98, 0x7a, 0x9b, 0x04, 0x4a, 0x8e, 0x98, 0xc6, 0xb0, 0x87,
    0xf1, 0x5a, 0x0b, 0xfc] :=
  (rip160Run_eq _ (by decide)).trans (by decide +kernel)

end Message

end Silkworm.Ripemd160
