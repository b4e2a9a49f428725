import Silkworm.RlpCanonicalForms

/-!
# Bounds of the RLP decoders

The primitive decoders stay inside their view on every input. The frames of lists and of
structs leave it only where the decoder of an element or of the fields does.
-/

namespace Silkworm.Rlp
open BigEndian ViewParsers

theorem decodeLongHeader_inBounds (list : Bool) (k : ℕ) : InBounds (decodeLongHeader list k) := by
  intro s h
  simp only [decodeLongHeader, bind_eq_outOfBounds, remaining_apply, reduceCtorEq, false_or,
    Outcome.ok.injEq] at h
  obtain ⟨_, _, ⟨rfl, rfl⟩, h⟩ := h
  split_ifs at h with hk
  · simp at h
  simp only [bind_eq_outOfBounds, substr_apply, reduceCtorEq, false_or, Outcome.ok.injEq,
    ofExcept_ne_outOfBounds, ofExcept_eq_ok] at h
  obtain ⟨_, _, ⟨rfl, rfl⟩, len, _, ⟨-, rfl⟩, h⟩ := h
  rw [removePrefix_of_le (by omega)] at h
  simp only [reduceCtorEq, Outcome.ok.injEq, true_and, false_or] at h
  obtain ⟨_, _, rfl, h⟩ := h
  split_ifs at h
  simp at h

theorem decodeShortString_inBounds (k : ℕ) : InBounds (decodeShortString k) := by
  intro s h
  simp only [decodeShortString] at h
  split_ifs at h with hk
  · cases s with
    | nil => simp [bind_apply] at h
    | cons b t =>
      rw [bind_of_ok (remaining_apply _), if_neg (by simp), bind_of_ok (peek_cons b t)] at h
      split_ifs at h
      simp at h

theorem decodeHeader_inBounds : InBounds decodeHeader := by
  intro s h
  cases s with
  | nil => simp [decodeHeader, bind_apply] at h
  | cons b t =>
    simp only [decodeHeader] at h
    rw [bind_of_ok (remaining_apply _), if_neg (by simp), bind_eq_outOfBounds] at h
    rcases h with h | ⟨a, m, -, h⟩
    · rw [decodePrefix_cons] at h
      split_ifs at h
      · exact decodeShortString_inBounds _ _ h
      · exact decodeLongHeader_inBounds _ _ _ h
      · exact decodeLongHeader_inBounds _ _ _ h
    · rw [bind_of_ok (remaining_apply _)] at h
      split_ifs at h
      simp at h

/-- What a decoder does after a header starts on a view that holds the payload. -/
theorem afterHeader_inBounds {α : Type} {f : Header → Decoder α}
    (hf : ∀ h s, h.payloadLength ≤ s.length → f h s ≠ .outOfBounds) :
    InBounds (decodeHeader >>= f) := by
  intro s h
  rcases bind_eq_outOfBounds.mp h with h | ⟨hd, m, hh, h⟩
  · exact decodeHeader_inBounds s h
  · exact hf hd m (decodeHeader_eq_ok.mp hh).2 h

theorem decodeBytes_inBounds : InBounds decodeBytes := by
  apply afterHeader_inBounds
  intro h s hs
  split_ifs
  · simp
  · simp [removePrefix_of_le hs]

theorem decodeUint_inBounds (w : ℕ) : InBounds (decodeUint w) := by
  apply afterHeader_inBounds
  intro h s hs
  split_ifs
  · simp
  · simp [removePrefix_of_le hs]

theorem decodeFixed_inBounds (n : ℕ) : InBounds (decodeFixed n) := by
  apply afterHeader_inBounds
  intro h s hs
  split_ifs with hl hn
  · simp
  · simp
  · obtain rfl : h.payloadLength = n := by simpa using hn
    simp [removePrefix_of_le hs, copy_of_le hs]

theorem decodeBool_inBounds : InBounds decodeBool := by
  intro s h
  simp only [decodeBool, bind_eq_outOfBounds, decodeUint_inBounds 64 s, false_or] at h
  obtain ⟨i, m, -, h⟩ := h
  split_ifs at h
  simp at h

/-- The rule for the next field of a struct whose own decoder stays inside the view. -/
theorem Codes.bind_eq_outOfBounds {α β : Type} {p : Decoder α} {encode : α → Bytes}
    {small : α → Prop} (hc : Codes p encode small) (hp : InBounds p) {f : α → Decoder β}
    {s : Bytes} :
    (p >>= f) s = .outOfBounds ↔
      ∃ a m, small a ∧ s = encode a ++ m ∧ f a m = .outOfBounds := by
  rw [ViewParsers.bind_eq_outOfBounds]
  simp only [hp s, false_or, hc.eq_ok, and_assoc]

section Lists

variable {α : Type} {p : Decoder α} {R : Bytes → α → Prop}

theorem decodeListOf_eq_outOfBounds {s : Bytes} :
    decodeListOf p s = .outOfBounds ↔
      ∃ L m, s = encodeHeader ⟨true, L⟩ ++ m ∧ L ≤ m.length ∧ L < 2 ^ 64 ∧ p m = .outOfBounds := by
  simp only [decodeListOf, bind_eq_outOfBounds, decodeHeader_inBounds s, false_or]
  constructor
  · rintro ⟨⟨list, L⟩, m, hh, h⟩
    cases list with
    | false => simp at h
    | true =>
      obtain ⟨hs, hL, hlt⟩ := decodeHeader_eq_list.mp hh
      rw [if_neg (by simp), bind_of_ok (remaining_apply _), bind_eq_outOfBounds] at h
      rcases h with h | ⟨a, r, -, h⟩
      · exact ⟨L, m, hs, hL, hlt, h⟩
      · rw [bind_of_ok (remaining_apply _)] at h
        split_ifs at h
        simp at h
  · rintro ⟨L, m, hs, hL, hlt, h⟩
    refine ⟨⟨true, L⟩, m, decodeHeader_eq_list.mpr ⟨hs, hL, hlt⟩, ?_⟩
    rw [if_neg (by simp), bind_of_ok (remaining_apply _), bind_eq_outOfBounds]
    exact .inl h

theorem decodeVector_eq_outOfBounds (hp : Accepts p R) (hne : ∀ t a, R t a → t ≠ []) {s : Bytes} :
    decodeVector p s = .outOfBounds ↔
      ∃ t as u rest, Words R t as ∧ u ≠ [] ∧ p u = .outOfBounds ∧ (t ++ u).length < 2 ^ 64 ∧
        s = encodeList (t ++ u) ++ rest := by
  simp only [decodeVector, bind_eq_outOfBounds, decodeHeader_inBounds s, false_or]
  constructor
  · rintro ⟨⟨list, L⟩, m, hh, h⟩
    cases list with
    | false => simp at h
    | true =>
      obtain ⟨rfl, hL, hlt⟩ := decodeHeader_eq_list.mp hh
      rw [if_neg (by simp), bind_of_ok (substr_apply L m), bind_eq_outOfBounds] at h
      have hlen : (m.take L).length = L := by simp [hL]
      rcases h with h | ⟨a, r, hw, h⟩
      · obtain ⟨t, as, u, hw, hm, hu, hb⟩ :=
          (untilEmpty_eq_outOfBounds hp hne le_rfl).mp (within_eq_outOfBounds.mp h)
        refine ⟨t, as, u, m.drop L, hw, hu, hb, by rw [← hm]; omega, ?_⟩
        rw [encodeList, ← hm, hlen, List.append_assoc, List.take_append_drop]
      · obtain ⟨-, rfl⟩ := within_eq_ok.mp hw
        simp [removePrefix_of_le hL] at h
  · rintro ⟨t, as, u, rest, hw, hu, hb, hlt, rfl⟩
    refine ⟨⟨true, (t ++ u).length⟩, t ++ u ++ rest, ?_, ?_⟩
    · rw [decodeHeader_eq_list]
      exact ⟨by simp [encodeList], by simp, hlt⟩
    · rw [if_neg (by simp), bind_of_ok (substr_apply _ _), bind_eq_outOfBounds]
      refine .inl (within_eq_outOfBounds.mpr ((untilEmpty_eq_outOfBounds hp hne le_rfl).mpr ?_))
      exact ⟨t, as, u, hw, by rw [List.take_left], hu, hb⟩

theorem decodeListOf_inBounds (h : InBounds p) : InBounds (decodeListOf p) := by
  intro s hs
  obtain ⟨L, m, -, -, -, hm⟩ := decodeListOf_eq_outOfBounds.mp hs
  exact h m hm

theorem decodeVector_inBounds (hp : Accepts p R) (hne : ∀ t a, R t a → t ≠ []) (h : InBounds p) :
    InBounds (decodeVector p) := by
  intro s hs
  obtain ⟨t, as, u, rest, -, -, hu, -⟩ := (decodeVector_eq_outOfBounds hp hne).mp hs
  exact h u hu

end Lists

end Silkworm.Rlp
