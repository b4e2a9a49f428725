import Silkworm.RlpEncoding
import Silkworm.ViewParsers

/-!
# RLP decoding

Decoders run on a view and either return a value and the rest of the view, fail with a
`DecodingResult`, or leave the view. Success is characterized for each of them: exactly
the canonical encodings are accepted.
-/

namespace Silkworm.Rlp
open BigEndian ViewParsers

/-- The failures of a decoder; `kOk` is the outcome `ok`. -/
inductive DecodingResult where
  | kOverflow
  | kLeadingZero
  | kInputTooShort
  | kNonCanonicalSingleByte
  | kNonCanonicalSize
  | kUnexpectedLength
  | kUnexpectedString
  | kUnexpectedList
  | kListLengthMismatch
  | kUnsupportedEip2718Type
  deriving DecidableEq

abbrev Decoder (α : Type) := Parser UInt8 DecodingResult α

def ofExcept {α : Type} : Except DecodingResult α → Decoder α
  | .ok a => pure a
  | .error e => fail e

/-- `read_uint64` and `read_uint256` differ in the width of their result only. -/
def readUint (w : ℕ) (be : Bytes) (allowLeadingZeros : Bool) : Except DecodingResult (BitVec w) :=
  if be.length > w / 8 then .error .kOverflow
  else match be with
    | [] => .ok 0
    | b :: _ =>
      if b = 0 ∧ allowLeadingZeros = false then .error .kLeadingZero
      else .ok (BitVec.ofNat w (ofBigEndian be))

def readUint64 (be : Bytes) (allowLeadingZeros : Bool) : Except DecodingResult Uint64 :=
  readUint 64 be allowLeadingZeros

def readUint256 (be : Bytes) (allowLeadingZeros : Bool) : Except DecodingResult Uint256 :=
  readUint 256 be allowLeadingZeros

/-- The two branches of `decode_header` for payloads of 56 bytes and more. -/
def decodeLongHeader (list : Bool) (lenOfLen : ℕ) : Decoder Header := do
  let n ← remaining
  if n < lenOfLen then fail .kInputTooShort else
  let be ← substr lenOfLen
  let len ← ofExcept (readUint64 be false)
  removePrefix lenOfLen
  if len.toNat < 56 then fail .kNonCanonicalSize else pure ⟨list, len.toNat⟩

def decodeShortString (payloadLength : ℕ) : Decoder Header := do
  if payloadLength = 1 then
    let n ← remaining
    if n = 0 then fail .kInputTooShort else
    let b ← peek
    if b.toNat < 0x80 then fail .kNonCanonicalSingleByte else pure ⟨false, payloadLength⟩
  else pure ⟨false, payloadLength⟩

/-- The part of `decode_header` that reads the first byte. -/
def decodePrefix : Decoder Header := do
  let b ← peek
  if b.toNat < 0x80 then pure ⟨false, 1⟩
  else if b.toNat < 0xB8 then do
    removePrefix 1
    decodeShortString (b.toNat - 0x80)
  else if b.toNat < 0xC0 then do
    removePrefix 1
    decodeLongHeader false (b.toNat - 0xB7)
  else if b.toNat < 0xF8 then do
    removePrefix 1
    pure ⟨true, b.toNat - 0xC0⟩
  else do
    removePrefix 1
    decodeLongHeader true (b.toNat - 0xF7)

def decodeHeader : Decoder Header := do
  let n ← remaining
  if n = 0 then fail .kInputTooShort else
  let h ← decodePrefix
  let n ← remaining
  if n < h.payloadLength then fail .kInputTooShort else pure h

def decodeBytes : Decoder Bytes := do
  let h ← decodeHeader
  if h.list then fail .kUnexpectedList else
  let x ← substr h.payloadLength
  removePrefix h.payloadLength
  pure x

/-- `decode` for `uint64_t` and `intx::uint256`. -/
def decodeUint (w : ℕ) : Decoder (BitVec w) := do
  let h ← decodeHeader
  if h.list then fail .kUnexpectedList else
  let be ← substr h.payloadLength
  let x ← ofExcept (readUint w be false)
  removePrefix h.payloadLength
  pure x

def decodeBool : Decoder Bool := do
  let i ← decodeUint 64
  if i.toNat > 1 then fail .kOverflow else pure (i.toNat = 1)

def decodeFixed (n : ℕ) : Decoder (FixedBytes n) := do
  let h ← decodeHeader
  if h.list then fail .kUnexpectedList else
  if h.payloadLength ≠ n then fail .kUnexpectedLength else
  let x ← copy n
  removePrefix n
  pure x

def decodeVector {α : Type} (decode : Decoder α) : Decoder (List α) := do
  let h ← decodeHeader
  if !h.list then fail .kUnexpectedString else
  let payloadView ← substr h.payloadLength
  let x ← within payloadView (untilEmpty decode payloadView.length)
  removePrefix h.payloadLength
  pure x.1

/-- The frame of the decoders of structs: a list header, the fields, and the check that
the fields took exactly the announced number of bytes. -/
def decodeListOf {α : Type} (fields : Decoder α) : Decoder α := do
  let h ← decodeHeader
  if !h.list then fail .kUnexpectedString else
  let n ← remaining
  let x ← fields
  let m ← remaining
  if m = n - h.payloadLength then pure x else fail .kListLengthMismatch

end Silkworm.Rlp
