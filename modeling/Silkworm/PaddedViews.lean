import Silkworm.RlpEncoding
import Mathlib.Data.List.GetD

/-!
# Padded views

Views are padded in a scratch buffer, and may themselves be part of it. Padding gives the bytes
of the view with zeros, wherever the view lies, unless the buffer would become too long.
-/

namespace Silkworm
open BigEndian

/-- A view of bytes of its own, or of a part of the scratch buffer. -/
inductive PaddedView where
  | outside (bytes : Bytes)
  | inside (pos length : ℕ)

/-- `max_size()` of a string. It is left to the library, but not below the few words that every
padding of a constant size needs. -/
structure MaxSize where
  value : ℕ
  le_value : 3 * 32 ≤ value

section Buffers

/-- `resize` of a string fills it up with zeros. It throws beyond the greatest size, and no caller
catches this, which is `none`. -/
def resizeBytes (limit : MaxSize) (buffer : Bytes) (n : ℕ) : Option Bytes :=
  if limit.value < n then none else some (buffer.take n ++ List.replicate (n - buffer.length) 0)

/-- `memmove` to a place in the buffer. -/
def moveTo (buffer : Bytes) (pos : ℕ) (data : Bytes) : Bytes :=
  buffer.take pos ++ (data ++ buffer.drop (pos + data.length))

def padRight (bytes : Bytes) (n : ℕ) : Bytes := bytes ++ List.replicate (n - bytes.length) 0

def padLeft (bytes : Bytes) (n : ℕ) : Bytes := List.replicate (n - bytes.length) 0 ++ bytes

namespace PaddedView

def bytes (buffer : Bytes) : PaddedView → Bytes
  | outside data => data
  | inside pos length => (buffer.drop pos).take length

def length : PaddedView → ℕ
  | outside data => data.length
  | inside _ length => length

/-- The part of the buffer exists. -/
def Valid (buffer : Bytes) : PaddedView → Prop
  | outside _ => True
  | inside pos length => pos + length ≤ buffer.length

def isInside : PaddedView → Bool
  | outside _ => false
  | inside _ _ => true

def removePrefix (n : ℕ) (view : PaddedView) : Option PaddedView :=
  if view.length < n then none
  else match view with
    | outside data => some (outside (data.drop n))
    | inside pos length => some (inside (pos + n) (length - n))

/-- `substr(0, n)`. -/
def first (n : ℕ) : PaddedView → PaddedView
  | outside data => outside (data.take n)
  | inside pos length => inside pos (min n length)

end PaddedView

end Buffers

/-- If the buffer has to grow, a view of it is lost. -/
def leftPad (limit : MaxSize) (view : PaddedView) (minSize : ℕ) (buffer : Bytes) :
    Option (PaddedView × Bytes) := do
  if minSize ≤ view.length then some (view, buffer)
  else if buffer.length < minSize ∧ view.isInside then none
  else
    let data := view.bytes buffer
    let buffer ← (if buffer.length < minSize then resizeBytes limit buffer minSize else some buffer)
    let prefixLen := minSize - view.length
    let buffer := moveTo buffer prefixLen data
    let buffer ← resizeBytes limit buffer minSize
    let buffer := moveTo buffer 0 (List.replicate prefixLen 0)
    some (.inside 0 buffer.length, buffer)

/-- A view of the buffer is never longer than the buffer, which then does not grow before the
bytes are moved. -/
def rightPad (limit : MaxSize) (view : PaddedView) (minSize : ℕ) (buffer : Bytes) :
    Option (PaddedView × Bytes) := do
  if minSize ≤ view.length then some (view, buffer)
  else
    let data := view.bytes buffer
    let buffer ←
      (if buffer.length < view.length then resizeBytes limit buffer view.length else some buffer)
    let buffer := moveTo buffer 0 data
    let buffer ← resizeBytes limit buffer view.length
    let buffer ← resizeBytes limit buffer minSize
    some (.inside 0 buffer.length, buffer)

section Lemmas

variable {limit : MaxSize} {buffer data : Bytes} {n pos : ℕ} {view : PaddedView}

theorem resizeBytes_of_le (hn : n ≤ limit.value) (h : n ≤ buffer.length) :
    resizeBytes limit buffer n = some (buffer.take n) := by
  rw [resizeBytes, if_neg (Nat.not_lt.mpr hn), Nat.sub_eq_zero_of_le h, List.replicate_zero,
    List.append_nil]

theorem resizeBytes_of_ge (hn : n ≤ limit.value) (h : buffer.length ≤ n) :
    resizeBytes limit buffer n = some (padRight buffer n) := by
  rw [resizeBytes, if_neg (Nat.not_lt.mpr hn), List.take_of_length_le h, padRight]

theorem resizeBytes_eq_none (hn : limit.value < n) : resizeBytes limit buffer n = none := if_pos hn

@[simp] theorem length_padRight : (padRight data n).length = max n data.length := by
  rw [padRight, List.length_append, List.length_replicate]
  omega

theorem padRight_of_le (h : n ≤ data.length) : padRight data n = data := by
  rw [padRight, Nat.sub_eq_zero_of_le h, List.replicate_zero, List.append_nil]

theorem padLeft_of_le (h : n ≤ data.length) : padLeft data n = data := by
  rw [padLeft, Nat.sub_eq_zero_of_le h, List.replicate_zero, List.nil_append]

@[simp] theorem length_padLeft : (padLeft data n).length = max n data.length := by
  rw [padLeft, List.length_append, List.length_replicate]
  omega

namespace PaddedView

theorem length_bytes (h : view.Valid buffer) : (view.bytes buffer).length = view.length := by
  cases view with
  | outside data => rfl
  | inside pos length =>
    rw [Valid] at h
    rw [bytes, List.length_take, List.length_drop, PaddedView.length]
    omega

theorem length_le_of_isInside (h : view.Valid buffer) (hin : view.isInside = true) :
    view.length ≤ buffer.length := by
  cases view with
  | outside data => cases hin
  | inside pos length =>
    rw [Valid] at h
    rw [PaddedView.length]
    omega

theorem removePrefix_eq (hn : n ≤ view.length) :
    ∃ view', view.removePrefix n = some view' ∧
      (view.Valid buffer → view'.Valid buffer) ∧
      (view.Valid buffer → view'.bytes buffer = (view.bytes buffer).drop n) ∧
      view'.length = view.length - n ∧ view'.isInside = view.isInside := by
  cases view with
  | outside data =>
    exact ⟨_, if_neg (Nat.not_lt.mpr hn), fun h => h, fun _ => rfl, List.length_drop, rfl⟩
  | inside pos length =>
    refine ⟨_, if_neg (Nat.not_lt.mpr hn), ?_, ?_, rfl, rfl⟩
    · intro h
      rw [PaddedView.length] at hn
      rw [Valid] at h ⊢
      omega
    · intro _
      rw [bytes, bytes, List.drop_take, List.drop_drop]

@[simp] theorem bytes_first : (view.first n).bytes buffer = (view.bytes buffer).take n := by
  cases view with
  | outside data => rfl
  | inside pos length => rw [first, bytes, bytes, List.take_take]

theorem Valid.first (h : view.Valid buffer) : (view.first n).Valid buffer := by
  cases view with
  | outside data => exact h
  | inside pos length =>
    rw [Valid] at h
    rw [PaddedView.first, Valid]
    omega

@[simp] theorem length_first : (view.first n).length = min n view.length := by
  cases view with
  | outside data => rw [first, PaddedView.length, PaddedView.length, List.length_take]
  | inside pos length => rfl

@[simp] theorem isInside_first : (view.first n).isInside = view.isInside := by
  cases view <;> rfl

end PaddedView

/-- A buffer that is at least as long as it has to be. -/
theorem exists_grown (buffer : Bytes) (hn : n ≤ limit.value) :
    ∃ grown, (if buffer.length < n then resizeBytes limit buffer n else some buffer) = some grown ∧
      n ≤ grown.length := by
  by_cases h : buffer.length < n
  · refine ⟨_, (if_pos h).trans (resizeBytes_of_ge hn h.le), ?_⟩
    rw [length_padRight]
    exact le_max_left _ _
  · exact ⟨_, if_neg h, Nat.not_lt.mp h⟩

/-- Padding on the right: the bytes and then zeros. -/
theorem rightPad_spec (h : view.Valid buffer) (hn : n ≤ limit.value ∨ n ≤ view.length) :
    ∃ padded, rightPad limit view n buffer = some padded ∧ padded.1.Valid padded.2 ∧
      padded.1.bytes padded.2 = padRight (view.bytes buffer) n := by
  have hlen := PaddedView.length_bytes h
  rw [rightPad]
  by_cases hle : n ≤ view.length
  · rw [if_pos hle, padRight_of_le (hlen ▸ hle)]
    exact ⟨_, rfl, h, rfl⟩
  · have hlimit := hn.resolve_right hle
    have hview : view.length ≤ limit.value := by omega
    obtain ⟨grown, hgrown, hlong⟩ := exists_grown buffer hview
    have hmoved : resizeBytes limit (moveTo grown 0 (view.bytes buffer)) view.length =
        some (view.bytes buffer) := by
      rw [resizeBytes_of_le hview]
      · rw [moveTo, List.take_zero, List.nil_append, ← hlen, List.take_left]
      · rw [moveTo, List.take_zero, List.nil_append, List.length_append]
        omega
    have hpadded : resizeBytes limit (view.bytes buffer) n = some (padRight (view.bytes buffer) n) :=
      resizeBytes_of_ge hlimit (by omega)
    rw [if_neg hle]
    simp only [Option.bind_eq_bind, hgrown, Option.bind_some, hmoved, hpadded]
    refine ⟨_, rfl, (Nat.zero_add _).le, ?_⟩
    rw [PaddedView.bytes, List.drop_zero, List.take_length]

/-- A buffer that would be too long. -/
theorem rightPad_eq_none (hn : limit.value < n) (h : view.length < n) :
    rightPad limit view n buffer = none := by
  rw [rightPad, if_neg (Nat.not_le.mpr h)]
  simp [resizeBytes_eq_none hn]

/-- Padding on the left: zeros and then the bytes. -/
theorem leftPad_spec (h : view.Valid buffer) (hn : n ≤ limit.value)
    (hfit : view.isInside = true → n ≤ buffer.length) :
    ∃ padded, leftPad limit view n buffer = some padded ∧ padded.1.Valid padded.2 ∧
      padded.1.bytes padded.2 = padLeft (view.bytes buffer) n := by
  have hlen := PaddedView.length_bytes h
  rw [leftPad]
  by_cases hle : n ≤ view.length
  · rw [if_pos hle, padLeft_of_le (hlen ▸ hle)]
    exact ⟨_, rfl, h, rfl⟩
  · have hsafe : ¬(buffer.length < n ∧ view.isInside = true) := fun ⟨hlt, hin⟩ =>
      absurd (hfit hin) (Nat.not_le.mpr hlt)
    obtain ⟨grown, hgrown, hlong⟩ := exists_grown buffer hn
    have hpos : n - view.length + (view.bytes buffer).length = n := by omega
    have hmoved : resizeBytes limit (moveTo grown (n - view.length) (view.bytes buffer)) n =
        some (grown.take (n - view.length) ++ view.bytes buffer) := by
      have hwhole : (grown.take (n - view.length) ++ view.bytes buffer).length = n := by
        rw [List.length_append, List.length_take]
        omega
      rw [resizeBytes_of_le hn]
      · rw [moveTo, ← List.append_assoc]
        exact congrArg some (List.take_left' hwhole)
      · rw [moveTo, ← List.append_assoc, List.length_append]
        omega
    have htake : (grown.take (n - view.length)).length = n - view.length := by
      rw [List.length_take]
      omega
    have hzeros : moveTo (grown.take (n - view.length) ++ view.bytes buffer) 0
        (List.replicate (n - view.length) 0) = padLeft (view.bytes buffer) n := by
      rw [moveTo, List.take_zero, List.nil_append, List.length_replicate, Nat.zero_add,
        List.drop_left' htake, padLeft, hlen]
    rw [if_neg hle, if_neg hsafe]
    simp only [Option.bind_eq_bind, hgrown, Option.bind_some, hmoved, hzeros]
    refine ⟨_, rfl, (Nat.zero_add _).le, ?_⟩
    rw [PaddedView.bytes, List.drop_zero, List.take_length]

end Lemmas

section Zeros

/-- A part of an input that goes on with zeros. -/
def zeroExtended (s : Bytes) (start n : ℕ) : Bytes := (List.range n).map fun k => s.getD (start + k) 0

@[simp] theorem length_zeroExtended (s : Bytes) (start n : ℕ) :
    (zeroExtended s start n).length = n := by
  rw [zeroExtended, List.length_map, List.length_range]

theorem getD_padRight (s : Bytes) (n i : ℕ) : (padRight s n).getD i 0 = s.getD i 0 := by
  rw [padRight]
  by_cases h : i < s.length
  · rw [List.getD_append _ _ _ _ h]
  · have hzero (m j : ℕ) : (List.replicate m (0 : UInt8)).getD j 0 = 0 := by
      by_cases hj : j < m
      · exact List.getD_replicate 0 hj
      · exact List.getD_eq_default _ _ (by rw [List.length_replicate]; omega)
    rw [List.getD_append_right _ _ _ _ (Nat.not_lt.mp h), hzero,
      List.getD_eq_default _ _ (Nat.not_lt.mp h)]

theorem take_drop_eq_zeroExtended (s : Bytes) (start n : ℕ) (h : start + n ≤ s.length) :
    (s.drop start).take n = zeroExtended s start n := by
  apply List.ext_getElem
  · rw [List.length_take, List.length_drop, length_zeroExtended]
    omega
  · intro i hi hi'
    have hlt : start + i < s.length := by
      rw [length_zeroExtended] at hi'
      omega
    simp [zeroExtended, List.getD_eq_getElem?_getD, List.getElem?_eq_getElem hlt]

theorem zeroExtended_padRight (s : Bytes) (n start k : ℕ) :
    zeroExtended (padRight s n) start k = zeroExtended s start k := by
  rw [zeroExtended, zeroExtended]
  apply List.map_congr_left
  intro i _
  exact getD_padRight s n (start + i)

theorem zeroExtended_drop (s : Bytes) (start pos n : ℕ) :
    zeroExtended (s.drop pos) start n = zeroExtended s (pos + start) n := by
  rw [zeroExtended, zeroExtended]
  apply List.map_congr_left
  intro i _
  rw [List.getD_eq_getElem?_getD, List.getD_eq_getElem?_getD, List.getElem?_drop, Nat.add_assoc]

theorem zeroExtended_append (s : Bytes) (start m n : ℕ) :
    zeroExtended s start (m + n) = zeroExtended s start m ++ zeroExtended s (start + m) n := by
  rw [zeroExtended, List.range_add, List.map_append, List.map_map]
  congr 1
  apply List.map_congr_left
  intro i _
  rw [Function.comp_apply, Nat.add_assoc]

theorem zeroExtended_of_length_le {s : Bytes} {start n : ℕ} (h : s.length ≤ start) :
    zeroExtended s start n = List.replicate n 0 := by
  rw [List.eq_replicate_iff]
  constructor
  · exact length_zeroExtended s start n
  · intro b hb
    obtain ⟨k, -, rfl⟩ := List.mem_map.mp hb
    exact List.getD_eq_default _ _ (by omega)

theorem padRight_eq_zeroExtended {s : Bytes} {n : ℕ} (h : s.length ≤ n) :
    padRight s n = zeroExtended s 0 n := by
  have hlen : (padRight s n).length = n := by
    rw [length_padRight, Nat.max_eq_left h]
  have htake := take_drop_eq_zeroExtended (padRight s n) 0 n (by omega)
  rw [zeroExtended_padRight] at htake
  rw [← htake, List.drop_zero, List.take_of_length_le hlen.le]

end Zeros

end Silkworm
