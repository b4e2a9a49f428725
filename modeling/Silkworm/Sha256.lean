import Silkworm.BigEndian
import Silkworm.PaddedBlocks
import Silkworm.RlpEncoding
import Silkworm.SlidingWindows
import Mathlib.Data.BitVec

/-!
# SHA-256

The hash is that of the padded message, cut into blocks, with a schedule of 64 words for each block.
The code makes the chunks one by one, with the padding in the last one or two, and keeps 16 words of
the schedule at a time. The two agree on every message.
-/

namespace Silkworm.Sha256
open BigEndian PaddedBlocks SlidingWindows

abbrev Word := BitVec 32
abbrev State := Vector Word 8
abbrev Words := Vector Word 16

def kConstants : List Word := [
  0x428a2f98, 0x71374491, 0xb5c0fbcf, 0xe9b5dba5, 0x3956c25b, 0x59f111f1, 0x923f82a4, 0xab1c5ed5,
  0xd807aa98, 0x12835b01, 0x243185be, 0x550c7dc3, 0x72be5d74, 0x80deb1fe, 0x9bdc06a7, 0xc19bf174,
  0xe49b69c1, 0xefbe4786, 0x0fc19dc6, 0x240ca1cc, 0x2de92c6f, 0x4a7484aa, 0x5cb0a9dc, 0x76f988da,
  0x983e5152, 0xa831c66d, 0xb00327c8, 0xbf597fc7, 0xc6e00bf3, 0xd5a79147, 0x06ca6351, 0x14292967,
  0x27b70a85, 0x2e1b2138, 0x4d2c6dfc, 0x53380d13, 0x650a7354, 0x766a0abb, 0x81c2c92e, 0x92722c85,
  0xa2bfe8a1, 0xa81a664b, 0xc24b8b70, 0xc76c51a3, 0xd192e819, 0xd6990624, 0xf40e3585, 0x106aa070,
  0x19a4c116, 0x1e376c08, 0x2748774c, 0x34b0bcb5, 0x391c0cb3, 0x4ed8aa4a, 0x5b9cca4f, 0x682e6ff3,
  0x748f82ee, 0x78a5636f, 0x84c87814, 0x8cc70208, 0x90befffa, 0xa4506ceb, 0xbef9a3f7, 0xc67178f2]

def kInitialHash : State :=
  #v[0x6a09e667, 0xbb67ae85, 0x3c6ef372, 0xa54ff53a, 0x510e527f, 0x9b05688c, 0x1f83d9ab, 0x5be0cd19]

section Standard

theorem lengthSize_lt_blockSize : 8 < 64 := by decide

def scheme : Scheme UInt8 where
  blockSize := 64
  lengthSize := 8
  mark := 0x80
  zero := 0
  lengthField n := fixedBigEndian 8 (8 * n % 2 ^ 64)
  lengthSize_lt := lengthSize_lt_blockSize
  length_lengthField n := length_fixedBigEndian (Nat.mod_lt _ (by decide))

def blockWords (block : Bytes) : List Word :=
  (blocks 4 block).map fun b => BitVec.ofNat 32 (ofBigEndian b)

def bigSigma0 (x : Word) : Word := x.rotateRight 2 ^^^ x.rotateRight 13 ^^^ x.rotateRight 22
def bigSigma1 (x : Word) : Word := x.rotateRight 6 ^^^ x.rotateRight 11 ^^^ x.rotateRight 25
def smallSigma0 (x : Word) : Word := x.rotateRight 7 ^^^ x.rotateRight 18 ^^^ x >>> 3
def smallSigma1 (x : Word) : Word := x.rotateRight 17 ^^^ x.rotateRight 19 ^^^ x >>> 10
def choose (x y z : Word) : Word := (x &&& y) ^^^ (~~~x &&& z)
def majority (x y z : Word) : Word := (x &&& y) ^^^ (x &&& z) ^^^ (y &&& z)

/-- The word of the schedule behind `w`. -/
def nextWord (w : List Word) : Word :=
  smallSigma1 (w.getD (w.length - 2) 0) + w.getD (w.length - 7) 0 +
    smallSigma0 (w.getD (w.length - 15) 0) + w.getD (w.length - 16) 0

def schedule (block : Bytes) : List Word := grow nextWord 48 (blockWords block)

def round (v : State) (kw : Word × Word) : State :=
  let t1 := v[7] + bigSigma1 v[4] + choose v[4] v[5] v[6] + kw.1 + kw.2
  let t2 := bigSigma0 v[0] + majority v[0] v[1] v[2]
  #v[t1 + t2, v[0], v[1], v[2], v[3] + t1, v[4], v[5], v[6]]

def compress (h : State) (block : Bytes) : State :=
  h.zipWith (· + ·) ((kConstants.zip (schedule block)).foldl round h)

def sha256 (message : Bytes) : Bytes :=
  (scheme.digest compress kInitialHash message).toList.flatMap fun x => fixedBigEndian 4 x.toNat

end Standard

section Code

def rightRot (value : Word) (count : ℕ) : Word := value >>> count ||| value <<< (32 - count)

/-- `p` has the `len` bytes that the pointer `p` points at. -/
structure BufferState where
  p : Bytes
  totalLen : Uint64
  singleOneDelivered : Bool
  totalLenDelivered : Bool

def initBufState (input : Bytes) : BufferState where
  p := input
  totalLen := BitVec.ofNat 64 input.length
  singleOneDelivered := false
  totalLenDelivered := false

/-- The bytes from `i - 1` down to 0, in front of what the chunk has already. -/
def storeBytes : ℕ → Uint64 → Bytes → Bytes
  | 0, _, chunk => chunk
  | i + 1, len, chunk => storeBytes i (len >>> 8) (UInt8.ofBitVec (len.setWidth 8) :: chunk)

def storeTotalLen (len : Uint64) : Bytes :=
  storeBytes 7 (len >>> 5) [UInt8.ofBitVec ((len <<< 3).setWidth 8)]

def calcChunk (state : BufferState) : Option (Bytes × BufferState) :=
  if state.totalLenDelivered then none
  else if 64 ≤ state.p.length then
    some (state.p.take 64, { state with p := state.p.drop 64 })
  else
    let chunk := if state.singleOneDelivered then state.p else state.p ++ [0x80]
    let state := { state with p := [], singleOneDelivered := true }
    let spaceInChunk := 64 - chunk.length
    if 8 ≤ spaceInChunk then
      some (chunk ++ List.replicate (spaceInChunk - 8) 0 ++ storeTotalLen state.totalLen,
        { state with totalLenDelivered := true })
    else some (chunk ++ List.replicate spaceInChunk 0, state)

/-- The item with the index `j & 0xf`. -/
def item (w : Words) (j : ℕ) : Word :=
  w.get ⟨j &&& 0xf, Nat.and_lt_two_pow j (by decide : 0xf < 2 ^ 4)⟩

def loadWord (p : Bytes) : Word :=
  (p.getD 0 0).toBitVec.setWidth 32 <<< 24 ||| (p.getD 1 0).toBitVec.setWidth 32 <<< 16 |||
    (p.getD 2 0).toBitVec.setWidth 32 <<< 8 ||| (p.getD 3 0).toBitVec.setWidth 32

structure LoopState where
  p : Bytes
  w : Words
  ah : State

/-- The word `w[j]` in the pass `i`. -/
def extendWord (i j : ℕ) (s : LoopState) : Word :=
  if i = 0 then loadWord s.p
  else
    let s0 := rightRot (item s.w (j + 1)) 7 ^^^ rightRot (item s.w (j + 1)) 18 ^^^
      item s.w (j + 1) >>> 3
    let s1 := rightRot (item s.w (j + 14)) 17 ^^^ rightRot (item s.w (j + 14)) 19 ^^^
      item s.w (j + 14) >>> 10
    item s.w j + s0 + item s.w (j + 9) + s1

def loopBody (i : ℕ) (s : LoopState) (j : ℕ) : LoopState :=
  let wj := extendWord i j s
  let ah := s.ah
  let s1 := rightRot ah[4] 6 ^^^ rightRot ah[4] 11 ^^^ rightRot ah[4] 25
  let ch := (ah[4] &&& ah[5]) ^^^ (~~~ah[4] &&& ah[6])
  let temp1 := ah[7] + s1 + ch + kConstants.getD (i <<< 4 ||| j) 0 + wj
  let s0 := rightRot ah[0] 2 ^^^ rightRot ah[0] 13 ^^^ rightRot ah[0] 22
  let maj := (ah[0] &&& ah[1]) ^^^ (ah[0] &&& ah[2]) ^^^ (ah[1] &&& ah[2])
  let temp2 := s0 + maj
  { p := if i = 0 then s.p.drop 4 else s.p
    w := s.w.setIfInBounds j wj
    ah := #v[temp1 + temp2, ah[0], ah[1], ah[2], ah[3] + temp1, ah[4], ah[5], ah[6]] }

variable (fresh : Words → Words)

/-- A pass declares the array `w` anew: `fresh` says what it holds where `w` was before. -/
def pass (s : LoopState) (i : ℕ) : LoopState :=
  (List.range 16).foldl (loopBody i) { s with w := fresh s.w }

/-- The chunk is added to the hash. What is left in the array `w` goes on. -/
def addChunk (h : State) (w : Words) (chunk : Bytes) : State × Words :=
  let s := (List.range 4).foldl (pass fresh) ⟨chunk, w, h⟩
  (h.zipWith (· + ·) s.ah, s.w)

/-- The chunks that are still to come, at most. -/
def pending (state : BufferState) : ℕ :=
  if state.totalLenDelivered then 0
  else state.p.length + if state.singleOneDelivered then 1 else 2

theorem pending_lt {state state' : BufferState} {chunk : Bytes}
    (h : calcChunk state = some (chunk, state')) : pending state' < pending state := by
  simp only [calcChunk] at h
  split_ifs at h with hdelivered hlen hspace hfits hfits
  · obtain ⟨-, rfl⟩ := Prod.mk.inj (Option.some.inj h)
    simp only [pending, if_neg hdelivered, List.length_drop]
    omega
  all_goals
    obtain ⟨-, rfl⟩ := Prod.mk.inj (Option.some.inj h)
    simp [pending, hdelivered, hspace]
  omega

/-- The loop over the chunks. -/
def hashChunks (h : State) (w : Words) (state : BufferState) : State :=
  match _hc : calcChunk state with
  | none => h
  | some (chunk, state') =>
    let (h, w) := addChunk fresh h w chunk
    hashChunks h w state'
termination_by pending state
decreasing_by exact pending_lt _hc

def storeHash (h : State) : Bytes :=
  h.toList.flatMap fun x : Word => [UInt8.ofBitVec ((x >>> 24).setWidth 8),
    UInt8.ofBitVec ((x >>> 16).setWidth 8), UInt8.ofBitVec ((x >>> 8).setWidth 8),
    UInt8.ofBitVec (x.setWidth 8)]

def calcSha256 (w : Words) (input : Bytes) : Bytes :=
  storeHash (hashChunks fresh kInitialHash w (initBufState input))

end Code

section Bytes

theorem rightRot_eq {count : ℕ} (value : Word) (h : count < 32) :
    rightRot value count = value.rotateRight count := by
  rw [rightRot, BitVec.rotateRight_def, Nat.mod_eq_of_lt h]

theorem length_storeBytes (i : ℕ) (len : Uint64) (chunk : Bytes) :
    (storeBytes i len chunk).length = i + chunk.length := by
  induction i generalizing len chunk with
  | zero => simp [storeBytes]
  | succ i ih => rw [storeBytes, ih, List.length_cons, Nat.add_assoc, Nat.add_comm 1]

theorem ofBigEndian_storeBytes (i : ℕ) (len : Uint64) (chunk : Bytes) :
    ofBigEndian (storeBytes i len chunk) =
      ofBigEndian chunk + 256 ^ chunk.length * (len.toNat % 256 ^ i) := by
  induction i generalizing len chunk with
  | zero => simp [storeBytes, Nat.mod_one]
  | succ i ih =>
    have hbyte : (UInt8.ofBitVec (len.setWidth 8)).toNat = len.toNat % 256 := by
      simp [UInt8.toNat, BitVec.toNat_setWidth]
    have hshift : (len >>> 8).toNat = len.toNat / 256 := by
      simp [BitVec.toNat_ushiftRight, Nat.shiftRight_eq_div_pow]
    rw [storeBytes, ih, ofBigEndian_cons, List.length_cons, hbyte, hshift, pow_succ' 256 i,
      Nat.mod_mul]
    ring

/-- The total length in bits, as if the field were wide enough for all of them. -/
theorem storeTotalLen_eq (n : ℕ) :
    storeTotalLen (BitVec.ofNat 64 n) = fixedBigEndian 8 (8 * n % 2 ^ 64) := by
  have hlast : (UInt8.ofBitVec ((BitVec.ofNat 64 n <<< 3).setWidth 8)).toNat = 8 * n % 256 := by
    simp only [UInt8.toNat_ofBitVec, BitVec.toNat_setWidth, BitVec.toNat_shiftLeft,
      BitVec.toNat_ofNat, Nat.shiftLeft_eq]
    omega
  have hrest : (BitVec.ofNat 64 n >>> 5).toNat = n % 2 ^ 64 / 32 := by
    simp [BitVec.toNat_ushiftRight, Nat.shiftRight_eq_div_pow]
  have hnumber : ofBigEndian (storeTotalLen (BitVec.ofNat 64 n)) = 8 * n % 2 ^ 64 := by
    rw [storeTotalLen, ofBigEndian_storeBytes, ofBigEndian_cons, ofBigEndian_nil, hlast, hrest]
    simp only [List.length_nil, List.length_singleton, pow_zero, pow_one]
    omega
  rw [← hnumber]
  exact (fixedBigEndian_ofBigEndian (length_storeBytes 7 _ _)).symm

theorem loadWord_eq {p : Bytes} (h : 4 ≤ p.length) :
    loadWord p = BitVec.ofNat 32 (ofBigEndian (p.take 4)) := by
  obtain ⟨a, b, c, d, t, rfl⟩ : ∃ a b c d t, p = a :: b :: c :: d :: t := by
    match p, h with
    | a :: b :: c :: d :: t, _ => exact ⟨a, b, c, d, t, rfl⟩
  apply BitVec.eq_of_toNat_eq
  have ha := a.toNat_lt
  have hb := b.toNat_lt
  have hc := c.toNat_lt
  have hd := d.toNat_lt
  simp only [loadWord, List.getD_cons_zero, List.getD_cons_succ, List.take_succ_cons,
    List.take_zero, ofBigEndian_cons, ofBigEndian_nil, List.length_cons, List.length_nil,
    BitVec.toNat_or, BitVec.toNat_shiftLeft, BitVec.toNat_setWidth, UInt8.toNat_toBitVec,
    BitVec.toNat_ofNat]
  have hshift {x i : ℕ} (hx : x < 256) (hi : i ≤ 24) : (x % 2 ^ 32) <<< i % 2 ^ 32 = x <<< i := by
    have hpow : 2 ^ i ≤ 2 ^ 24 := Nat.pow_le_pow_right (by decide) hi
    have hlt : x * 2 ^ i < 2 ^ 32 :=
      (Nat.mul_lt_mul_of_lt_of_le hx hpow (by decide)).trans_le (by decide)
    rw [Nat.mod_eq_of_lt (hx.trans (by norm_num)), Nat.shiftLeft_eq, Nat.mod_eq_of_lt hlt]
  rw [hshift ha le_rfl, hshift hb (by decide), hshift hc (by decide), Nat.mod_eq_of_lt
    (hd.trans (by decide)), Nat.or_assoc, Nat.or_assoc, ← Nat.shiftLeft_add_eq_or_of_lt hd,
    ← Nat.shiftLeft_add_eq_or_of_lt (i := 16), ← Nat.shiftLeft_add_eq_or_of_lt (i := 24)]
  all_goals
    simp only [Nat.shiftLeft_eq]
    omega

end Bytes

section Chunks

/-- The chunks that a message of length `n` has left in a state of the buffer. -/
inductive Delivers (n : ℕ) : BufferState → List Bytes → Prop
  | message (p : Bytes) : n % 64 = p.length % 64 →
      Delivers n ⟨p, BitVec.ofNat 64 n, false, false⟩ (blocks 64 (scheme.rest n p))
  | totalLen : Delivers n ⟨[], BitVec.ofNat 64 n, true, false⟩
      [List.replicate 56 0 ++ scheme.lengthField n]
  | nothing : Delivers n ⟨[], BitVec.ofNat 64 n, true, true⟩ []

theorem delivers_initBufState (input : Bytes) :
    Delivers input.length (initBufState input) (blocks 64 (scheme.pad input)) :=
  .message input rfl

variable {n : ℕ} {state : BufferState} {chunk : Bytes} {chunks : List Bytes}

theorem calcChunk_of_lt {p : Bytes} (hn : n % 64 = p.length % 64) (h : p.length < 64) :
    ∃ chunk chunks state', blocks 64 (scheme.rest n p) = chunk :: chunks ∧
      calcChunk ⟨p, BitVec.ofNat 64 n, false, false⟩ = some (chunk, state') ∧
      Delivers n state' chunks := by
  rw [Nat.mod_eq_of_lt h] at hn
  have hblocks : blocks 64 (scheme.rest n p) = scheme.closing n p := scheme.blocks_closing hn
  have hle : ¬ 64 ≤ p.length := not_le.mpr h
  rw [hblocks, Scheme.closing]
  split_ifs with hfits
  · have hspace : 8 ≤ 64 - (p ++ [0x80]).length := by
      change p.length + 1 + 8 ≤ 64 at hfits
      rw [List.length_append, List.length_singleton]
      omega
    have hzeros : 64 - (p ++ [0x80]).length - 8 = 64 - 8 - 1 - p.length := by
      rw [List.length_append, List.length_singleton]
      omega
    refine ⟨_, [], ⟨[], BitVec.ofNat 64 n, true, true⟩, rfl, ?_, .nothing⟩
    simp only [calcChunk, if_neg hle, if_pos hspace, hzeros, storeTotalLen_eq, Bool.false_eq_true,
      if_false, List.append_assoc, List.nil_append, List.cons_append, scheme]
  · have hspace : ¬ 8 ≤ 64 - 1 - p.length := by
      change ¬ p.length + 1 + 8 ≤ 64 at hfits
      omega
    have hzeros : 64 - (p ++ [0x80]).length = 64 - 1 - p.length := by
      rw [List.length_append, List.length_singleton]
      omega
    refine ⟨_, _, ⟨[], BitVec.ofNat 64 n, true, false⟩, rfl, ?_, .totalLen⟩
    simp only [calcChunk, if_neg hle, if_neg hspace, hzeros, Bool.false_eq_true, if_false,
      List.append_assoc, List.singleton_append, scheme]

theorem calcChunk_of_message {p : Bytes} (hn : n % 64 = p.length % 64) :
    ∃ chunk chunks state', blocks 64 (scheme.rest n p) = chunk :: chunks ∧
      calcChunk ⟨p, BitVec.ofNat 64 n, false, false⟩ = some (chunk, state') ∧
      Delivers n state' chunks := by
  by_cases h : 64 ≤ p.length
  · have hn' : n % 64 = (p.drop 64).length % 64 := by
      rw [hn, List.length_drop]
      omega
    refine ⟨p.take 64, _, _, scheme.blocks_rest_of_le h, ?_, .message (p.drop 64) hn'⟩
    simp [calcChunk, h]
  · exact calcChunk_of_lt hn (not_le.mp h)

theorem Delivers.calcChunk_nil (h : Delivers n state []) : calcChunk state = none := by
  generalize hc : ([] : List Bytes) = chunks at h
  cases h with
  | message p hn =>
    obtain ⟨chunk, chunks, -, hblocks, -⟩ := calcChunk_of_message hn
    rw [hblocks] at hc
    cases hc
  | totalLen => cases hc
  | nothing => rfl

theorem Delivers.calcChunk_cons (h : Delivers n state (chunk :: chunks)) :
    ∃ state', calcChunk state = some (chunk, state') ∧ Delivers n state' chunks := by
  generalize hc : chunk :: chunks = all at h
  cases h with
  | message p hn =>
    obtain ⟨chunk', chunks', state', hblocks, hstep, hnext⟩ := calcChunk_of_message hn
    rw [hblocks] at hc
    cases hc
    exact ⟨state', hstep, hnext⟩
  | totalLen =>
    cases hc
    have hfield : scheme.lengthField n = storeTotalLen (BitVec.ofNat 64 n) :=
      (storeTotalLen_eq n).symm
    refine ⟨_, ?_, .nothing⟩
    rw [hfield]
    rfl
  | nothing => cases hc

end Chunks

section Rounds

/-- The array holds the last words of the schedule, and all of them have gone into the rounds. -/
structure Follows (h : State) (l : List Word) (s : LoopState) : Prop where
  holds : Holds s.w l
  rounds : s.ah = (kConstants.zip l).foldl round h

theorem zip_concat {ks l : List Word} (h : l.length < ks.length) (x : Word) :
    ks.zip (l ++ [x]) = ks.zip l ++ [(ks.getD l.length 0, x)] := by
  induction l generalizing ks with
  | nil =>
    cases ks with
    | nil => exact absurd h (Nat.not_lt_zero _)
    | cons k ks => simp
  | cons y l ih =>
    cases ks with
    | nil => exact absurd h (Nat.not_lt_zero _)
    | cons k ks =>
      have hlt : l.length < ks.length := Nat.lt_of_succ_lt_succ h
      simp [ih hlt]

variable {h : State} {l : List Word} {s : LoopState} {i j : ℕ}

theorem Follows.loopBody (hs : Follows h l s) (hi : i < 4) (hj : j < 16)
    (hl : l.length = 16 * i + j) : Follows h (l ++ [extendWord i j s]) (loopBody i s j) := by
  have hplace : l.length % 16 = j := by omega
  have hindex : i <<< 4 ||| j = l.length := by
    rw [← Nat.shiftLeft_add_eq_or_of_lt (by omega : j < 2 ^ 4), Nat.shiftLeft_eq, hl]
    omega
  have hlt : l.length < kConstants.length := by
    change l.length < 64
    omega
  constructor
  · have hpush := hs.holds.push (by decide) (extendWord i j s)
    rwa [hplace] at hpush
  · rw [zip_concat hlt, List.foldl_concat, ← hs.rounds, Sha256.loopBody, hindex]
    simp only [round, bigSigma0, bigSigma1, choose, majority]
    simp [rightRot_eq]

/-- The places are taken modulo the size of the array. -/
theorem item_of_holds (hw : Holds s.w l) (hl : 16 ≤ l.length) (hj : l.length % 16 = j % 16)
    {m : ℕ} (hm : m < 16) : item s.w (j + m) = l.getD (l.length - 16 + m) 0 := by
  have hget := hw.get hm hl
  have hplace : (l.length + m) % 16 = (j + m) &&& 0xf := by
    rw [Nat.add_mod, hj, ← Nat.add_mod]
    exact (Nat.and_two_pow_sub_one_eq_mod _ 4).symm
  rw [hplace, Vector.getElem?_eq_getElem (Nat.and_lt_two_pow _ (by decide : 0xf < 2 ^ 4))] at hget
  rw [List.getD_eq_getElem?_getD, ← hget]
  rfl

theorem extendWord_of_pos (hw : Holds s.w l) (hi : 0 < i) (hl : l.length = 16 * i + j) :
    extendWord i j s = nextWord l := by
  have hle : 16 ≤ l.length := by omega
  have hmod : l.length % 16 = j % 16 := by omega
  have h0 := item_of_holds hw hle hmod (by decide : 0 < 16)
  have h1 := item_of_holds hw hle hmod (by decide : 1 < 16)
  have h9 := item_of_holds hw hle hmod (by decide : 9 < 16)
  have h14 := item_of_holds hw hle hmod (by decide : 14 < 16)
  rw [extendWord, if_neg hi.ne', nextWord]
  rw [Nat.add_zero] at h0
  rw [h0, h1, h9, h14, show l.length - 16 + 1 = l.length - 15 by omega,
    show l.length - 16 + 9 = l.length - 7 by omega,
    show l.length - 16 + 14 = l.length - 2 by omega, smallSigma0, smallSigma1]
  simp (disch := decide) only [rightRot_eq, Nat.add_zero]
  ac_rfl

variable {chunk : Bytes} {fresh : Words → Words}

theorem length_blockWords (hc : chunk.length = 64) : (blockWords chunk).length = 16 := by
  simp [blockWords, blocks, hc]

theorem getElem?_blockWords (hc : chunk.length = 64) (hj : j < 16) :
    (blockWords chunk)[j]? = some (loadWord (chunk.drop (4 * j))) := by
  have hle : 4 ≤ (chunk.drop (4 * j)).length := by
    rw [List.length_drop]
    omega
  rw [loadWord_eq hle]
  simp [blockWords, blocks, hc, hj]

/-- The first pass reads the words, whatever the array holds. -/
theorem follows_firstPass (hc : chunk.length = 64) (w : Words) :
    Follows h (blockWords chunk) (pass fresh ⟨chunk, w, h⟩ 0) := by
  have hsteps (m : ℕ) (hm : m ≤ 16) :
      Follows h ((blockWords chunk).take m)
        ((List.range m).foldl (loopBody 0) ⟨chunk, fresh w, h⟩) ∧
      ((List.range m).foldl (loopBody 0) ⟨chunk, fresh w, h⟩).p = chunk.drop (4 * m) := by
    induction m with
    | zero => exact ⟨⟨holds_nil _, by simp⟩, rfl⟩
    | succ m ih =>
      obtain ⟨hfollows, hp⟩ := ih (Nat.le_of_succ_le hm)
      have hlen : ((blockWords chunk).take m).length = 16 * 0 + m := by
        rw [List.length_take, length_blockWords hc]
        omega
      have hword := getElem?_blockWords hc (Nat.lt_of_succ_le hm)
      have hnext := hfollows.loopBody (by decide) (Nat.lt_of_succ_le hm) hlen
      rw [List.range_succ, List.foldl_concat, List.take_add_one, hword, Option.toList_some, ← hp]
      refine ⟨hnext, ?_⟩
      rw [loopBody, if_pos rfl, hp, List.drop_drop, Nat.mul_succ]
  have hall := (hsteps 16 le_rfl).1
  rwa [List.take_of_length_le (length_blockWords hc).le] at hall

/-- A further pass extends the schedule by 16 words. -/
theorem Follows.pass {t : ℕ} (hfresh : ∀ w, fresh w = w) (hs : Follows h (grow nextWord t l) s)
    (hl : l.length + t = 16 * i) (h0 : 0 < i) (hi : i < 4) :
    Follows h (grow nextWord (t + 16) l) (pass fresh s i) := by
  have hsteps (m : ℕ) (hm : m ≤ 16) :
      Follows h (grow nextWord (t + m) l) ((List.range m).foldl (Sha256.loopBody i) s) := by
    induction m with
    | zero => exact hs
    | succ m ih =>
      have hfollows := ih (Nat.le_of_succ_le hm)
      have hlen : (grow nextWord (t + m) l).length = 16 * i + m := by
        rw [length_grow, ← hl, Nat.add_assoc]
      have hnext := hfollows.loopBody hi (Nat.lt_of_succ_le hm) hlen
      rw [extendWord_of_pos hfollows.holds h0 hlen] at hnext
      rw [List.range_succ, List.foldl_concat]
      exact hnext
  have hall := hsteps 16 le_rfl
  rwa [Sha256.pass, hfresh]

theorem follows_passes (hfresh : ∀ w, fresh w = w) (hc : chunk.length = 64) (w : Words) {m : ℕ}
    (hm : m < 4) : Follows h (grow nextWord (16 * m) (blockWords chunk))
      ((List.range (m + 1)).foldl (pass fresh) ⟨chunk, w, h⟩) := by
  induction m with
  | zero =>
    rw [Nat.mul_zero, grow, Nat.zero_add, List.range_one, List.foldl_cons, List.foldl_nil]
    exact follows_firstPass hc w
  | succ m ih =>
    have hlen : (blockWords chunk).length + 16 * m = 16 * (m + 1) := by
      rw [length_blockWords hc]
      omega
    rw [List.range_succ, List.foldl_concat, Nat.mul_succ]
    exact (ih (Nat.lt_of_succ_lt hm)).pass hfresh hlen m.succ_pos hm

theorem addChunk_eq (hfresh : ∀ w, fresh w = w) (hc : chunk.length = 64) (w : Words) :
    (addChunk fresh h w chunk).1 = compress h chunk := by
  have hall := (follows_passes (h := h) hfresh hc w (by decide : 3 < 4)).rounds
  simp only [Nat.reduceMul, Nat.reduceAdd] at hall
  rw [addChunk, hall, compress, schedule]

theorem hashChunks_eq {n : ℕ} {state : BufferState} {chunks : List Bytes}
    (hfresh : ∀ w, fresh w = w) (hd : Delivers n state chunks)
    (hlen : ∀ chunk ∈ chunks, chunk.length = 64) (w : Words) :
    hashChunks fresh h w state = chunks.foldl compress h := by
  induction chunks generalizing h w state with
  | nil =>
    rw [hashChunks]
    split
    · rfl
    · simp_all [hd.calcChunk_nil]
  | cons chunk chunks ih =>
    obtain ⟨state', hstep, hnext⟩ := hd.calcChunk_cons
    rw [hashChunks]
    split
    · simp_all
    · rename_i chunk' state'' heq
      rw [hstep] at heq
      cases heq
      rw [List.foldl_cons, ← addChunk_eq hfresh (hlen chunk List.mem_cons_self) w]
      exact ih hnext (fun c hc => hlen c (List.mem_cons_of_mem _ hc)) _

end Rounds

theorem storeHash_eq (h : State) : storeHash h = h.toList.flatMap fun x => fixedBigEndian 4 x.toNat := by
  apply List.flatMap_congr
  intro x _
  have hnumber : ofBigEndian [UInt8.ofBitVec ((x >>> 24).setWidth 8),
      UInt8.ofBitVec ((x >>> 16).setWidth 8), UInt8.ofBitVec ((x >>> 8).setWidth 8),
      UInt8.ofBitVec (x.setWidth 8)] = x.toNat := by
    have hlt := x.isLt
    simp only [ofBigEndian_cons, ofBigEndian_nil, UInt8.toNat_ofBitVec, BitVec.toNat_setWidth,
      BitVec.toNat_ushiftRight, Nat.shiftRight_eq_div_pow, List.length_cons, List.length_nil]
    omega
  rw [← hnumber]
  exact (fixedBigEndian_ofBigEndian rfl).symm

theorem calcSha256_eq (fresh : Words → Words) (hfresh : ∀ w, fresh w = w) (w : Words)
    (input : Bytes) : calcSha256 fresh w input = sha256 input := by
  have hlen : ∀ chunk ∈ blocks 64 (scheme.pad input), chunk.length = 64 :=
    fun _ => length_of_mem_blocks
  rw [calcSha256, hashChunks_eq hfresh (delivers_initBufState input) hlen w, storeHash_eq]
  rfl

section Precompiled

variable (fresh : Words → Words) (w : Words)

/-- The memory that the array `w` lies in is a parameter. -/
def sha256Run (input : Bytes) : Option Bytes := some (calcSha256 fresh w input)

/-- The contract returns the hash of every input, if an array that is declared anew in each pass
keeps the words of the last one. -/
theorem sha256Run_eq (hfresh : ∀ w, fresh w = w) (input : Bytes) :
    sha256Run fresh w input = some (sha256 input) :=
  congrArg some (calcSha256_eq fresh hfresh w input)

theorem sha256Run_eq_abc : sha256Run id (Vector.replicate 16 0) [0x61, 0x62, 0x63] = some [
    0xba, 0x78, 0x16, 0xbf, 0x8f, 0x01, 0xcf, 0xea, 0x41, 0x41, 0x40, 0xde, 0x5d, 0xae, 0x22, 0x23,
    0xb0, 0x03, 0x61, 0xa3, 0x96, 0x17, 0x7a, 0x9c, 0xb4, 0x10, 0xff, 0x61, 0xf2, 0x00, 0x15,
    0xad] :=
  (sha256Run_eq id _ (fun _ => rfl) _).trans (by decide +kernel)

end Precompiled

end Silkworm.Sha256
