import Silkworm.BigEndian
import Mathlib.Tactic.Linarith

/-!
# RLP encoding

Headers, byte strings, fixed-size arrays, unsigned integers and vectors, with the
announced lengths computed by code of their own. Encoders return the bytes they append.
Sizes are natural numbers.
-/

namespace Silkworm

abbrev Bytes := BigEndian.Bytes

/-- Arrays of a fixed number of bytes, such as `evmc::address` and `evmc::bytes32`. -/
abbrev FixedBytes (n : ℕ) := {b : Bytes // b.length = n}

abbrev kAddressLength : ℕ := 20
abbrev kHashLength : ℕ := 32
abbrev kBloomByteLength : ℕ := 256

abbrev Address := FixedBytes kAddressLength
abbrev Bytes32 := FixedBytes kHashLength
abbrev Bloom := FixedBytes kBloomByteLength
abbrev Uint64 := BitVec 64
abbrev Uint256 := BitVec 256

def FixedBytes.zero (n : ℕ) : FixedBytes n := ⟨List.replicate n 0, List.length_replicate⟩

def FixedBytes.replicate (n : ℕ) (b : UInt8) : FixedBytes n :=
  ⟨List.replicate n b, List.length_replicate⟩

/-- The last byte, after zeros. -/
def FixedBytes.ofByte (n : ℕ) (b : UInt8) : FixedBytes (n + 1) :=
  ⟨List.replicate n 0 ++ [b], by simp⟩

instance (n : ℕ) : Inhabited (FixedBytes n) := ⟨FixedBytes.zero n⟩

def isZero {n : ℕ} (b : FixedBytes n) : Bool := b = FixedBytes.zero n

namespace Rlp
open BigEndian

structure Header where
  list : Bool := false
  payloadLength : ℕ := 0
  deriving DecidableEq

abbrev kEmptyStringCode : ℕ := 0x80
abbrev kEmptyListCode : ℕ := 0xC0

def byte (n : ℕ) : UInt8 := UInt8.ofNat n

def encodeHeader (header : Header) : Bytes :=
  if header.payloadLength < 56 then
    [byte ((if header.list then kEmptyListCode else kEmptyStringCode) + header.payloadLength)]
  else
    let lenBe := bigEndian header.payloadLength
    byte ((if header.list then 0xF7 else 0xB7) + lenBe.length) :: lenBe

def lengthOfLength (payloadLength : ℕ) : ℕ :=
  if payloadLength < 56 then 1 else 1 + (bigEndian payloadLength).length

/-- Whether a byte string is its own encoding. -/
def isSingleByte : Bytes → Bool
  | [b] => b.toNat < kEmptyStringCode
  | _ => false

def encodeBytes (s : Bytes) : Bytes :=
  (if isSingleByte s then [] else encodeHeader ⟨false, s.length⟩) ++ s

def lengthBytes (s : Bytes) : ℕ :=
  s.length + if isSingleByte s then 0 else lengthOfLength s.length

/-- Arrays of at most 55 bytes. -/
def encodeFixed {n : ℕ} (bytes : FixedBytes n) : Bytes := byte (kEmptyStringCode + n) :: bytes.val

def encodeUint {w : ℕ} (n : BitVec w) : Bytes :=
  if n.toNat = 0 then [byte kEmptyStringCode]
  else if n.toNat < kEmptyStringCode then [byte n.toNat]
  else
    let be := bigEndian n.toNat
    byte (kEmptyStringCode + be.length) :: be

def lengthUint {w : ℕ} (n : BitVec w) : ℕ :=
  if n.toNat < kEmptyStringCode then 1 else 1 + (bigEndian n.toNat).length

def encodeBool (b : Bool) : Bytes := encodeUint (if b then 1 else 0 : Uint64)

def lengthBool (b : Bool) : ℕ := lengthUint (if b then 1 else 0 : Uint64)

def lengthHash (_ : Bytes32) : ℕ := kHashLength + 1

section Vectors

variable {α : Type} (length : α → ℕ) (encode : α → Bytes)

def payloadLengthVector (v : List α) : ℕ := (v.map length).sum

def lengthVector (v : List α) : ℕ :=
  lengthOfLength (payloadLengthVector length v) + payloadLengthVector length v

def encodeVector (v : List α) : Bytes :=
  encodeHeader ⟨true, payloadLengthVector length v⟩ ++ (v.map encode).flatten

end Vectors

@[simp] theorem toNat_byte {n : ℕ} (h : n < 256) : (byte n).toNat = n := toNat_ofNat h

theorem byte_toNat (b : UInt8) : byte b.toNat = b := by simp [byte]

@[simp] theorem length_encodeHeader (h : Header) :
    (encodeHeader h).length = lengthOfLength h.payloadLength := by
  simp only [encodeHeader, lengthOfLength]
  split <;> simp [Nat.add_comm]

theorem encodeHeader_ne_nil (h : Header) : encodeHeader h ≠ [] := by
  simp only [encodeHeader]
  split <;> simp

theorem length_encodeBytes (s : Bytes) : (encodeBytes s).length = lengthBytes s := by
  simp only [encodeBytes, lengthBytes]
  split <;> simp [Nat.add_comm]

@[simp] theorem length_encodeFixed {n : ℕ} (b : FixedBytes n) : (encodeFixed b).length = n + 1 := by
  simp [encodeFixed, b.property]

theorem length_encodeUint {w : ℕ} (n : BitVec w) : (encodeUint n).length = lengthUint n := by
  simp only [encodeUint, lengthUint, kEmptyStringCode]
  by_cases h0 : n.toNat = 0
  · simp [h0]
  · by_cases h : n.toNat < 0x80
    · simp [h0, h]
    · simp [h0, h, Nat.add_comm]

theorem length_encodeBool (b : Bool) : (encodeBool b).length = lengthBool b := length_encodeUint _

theorem length_flatten_map {α : Type} {length : α → ℕ} {encode : α → Bytes} {v : List α}
    (h : ∀ x ∈ v, (encode x).length = length x) :
    (v.map encode).flatten.length = payloadLengthVector length v := by
  simp only [payloadLengthVector, List.length_flatten, List.map_map]
  exact congrArg List.sum (List.map_congr_left h)

theorem length_encodeVector {α : Type} {length : α → ℕ} {encode : α → Bytes} {v : List α}
    (h : ∀ x ∈ v, (encode x).length = length x) :
    (encodeVector length encode v).length = lengthVector length v := by
  simp [encodeVector, lengthVector, length_flatten_map h]

theorem encodeHeader_short {list : Bool} {L : ℕ} (h : L < 56) :
    encodeHeader ⟨list, L⟩ = [byte ((if list then 0xC0 else 0x80) + L)] := by
  simp [encodeHeader, h, kEmptyListCode, kEmptyStringCode]

theorem encodeHeader_long {list : Bool} {L : ℕ} (h : 56 ≤ L) :
    encodeHeader ⟨list, L⟩ =
      byte ((if list then 0xF7 else 0xB7) + (bigEndian L).length) :: bigEndian L := by
  simp [encodeHeader, Nat.not_lt.mpr h]

theorem isSingleByte_iff {s : Bytes} : isSingleByte s = true ↔ ∃ b, s = [b] ∧ b.toNat < 0x80 := by
  match s with
  | [] => simp [isSingleByte]
  | [b] => simp [isSingleByte]
  | _ :: _ :: _ => simp [isSingleByte]

end Rlp
end Silkworm
