import Silkworm.RlpDecoding

/-!
# The canonical RLP strings

Each primitive decoder accepts exactly the strings that start with the encoding of the
value it returns, and none of them leaves its view.
-/

namespace Silkworm.Rlp
open BigEndian ViewParsers

@[simp] theorem ofExcept_eq_ok {α : Type} {x : Except DecodingResult α} {a : α} {s r : Bytes} :
    ofExcept x s = .ok a r ↔ x = .ok a ∧ r = s := by
  cases x <;> simp [ofExcept, eq_comm]

@[simp] theorem ofExcept_ne_outOfBounds {α : Type} {x : Except DecodingResult α} {s : Bytes} :
    ofExcept x s ≠ .outOfBounds := by
  cases x <;> simp [ofExcept]

@[simp] theorem ofExcept_ne_diverges {α : Type} {x : Except DecodingResult α} {s : Bytes} :
    ofExcept x s ≠ .diverges := by
  cases x <;> simp [ofExcept]

theorem toNat_lt_pow_bytes {w : ℕ} (h8 : 8 ∣ w) (v : BitVec w) : v.toNat < 256 ^ (w / 8) := by
  obtain ⟨k, rfl⟩ := h8
  have h := v.isLt
  rw [Nat.mul_div_cancel_left k (by norm_num)]
  calc v.toNat < 2 ^ (8 * k) := h
    _ = 256 ^ k := by rw [pow_mul]; norm_num

theorem length_bigEndian_toNat {w : ℕ} (h8 : 8 ∣ w) (v : BitVec w) :
    (bigEndian v.toNat).length ≤ w / 8 :=
  length_bigEndian_le.mpr (toNat_lt_pow_bytes h8 v)

/-- Without leading zeros a number of at most the given width has exactly one string. -/
theorem readUint_eq_ok {w : ℕ} (h8 : 8 ∣ w) {be : Bytes} {v : BitVec w} :
    readUint w be false = .ok v ↔ be = bigEndian v.toNat := by
  simp only [readUint]
  constructor
  · intro h
    split_ifs at h with hlen
    cases be with
    | nil =>
      simp only [Except.ok.injEq] at h
      simp [← h]
    | cons b t =>
      simp only [and_true] at h
      split_ifs at h with hb
      simp only [Except.ok.injEq] at h
      have hlt : ofBigEndian (b :: t) < 2 ^ w := by
        obtain ⟨k, rfl⟩ := h8
        rw [Nat.mul_div_cancel_left k (by norm_num)] at hlen
        calc ofBigEndian (b :: t) < 256 ^ (b :: t).length := ofBigEndian_lt _
          _ ≤ 256 ^ k := Nat.pow_le_pow_right (by norm_num) (by omega)
          _ = 2 ^ (8 * k) := by rw [pow_mul]; norm_num
      rw [← h, BitVec.toNat_ofNat, Nat.mod_eq_of_lt hlt]
      exact (bigEndian_ofBigEndian (by simpa using hb)).symm
  · rintro rfl
    have hlen := length_bigEndian_toNat h8 v
    rw [if_neg (by omega)]
    cases hbe : bigEndian v.toNat with
    | nil =>
      have h0 : v.toNat = 0 := by
        by_contra hne
        exact bigEndian_ne_nil hne hbe
      simp only [Except.ok.injEq]
      exact (BitVec.eq_of_toNat_eq (by simpa using h0)).symm
    | cons b t =>
      have hb : b ≠ 0 := bigEndian_head_ne_zero v.toNat b (by simp [hbe])
      simp only [and_true]
      rw [if_neg hb, ← hbe, ofBigEndian_bigEndian]
      simp

theorem decodeLongHeader_eq_ok {list : Bool} {k : ℕ} {s r : Bytes} {h : Header} :
    decodeLongHeader list k s = .ok h r ↔
      h.list = list ∧ 56 ≤ h.payloadLength ∧ h.payloadLength < 2 ^ 64 ∧
        (bigEndian h.payloadLength).length = k ∧ s = bigEndian h.payloadLength ++ r := by
  simp only [decodeLongHeader, bind_eq_ok, remaining_apply, Outcome.ok.injEq]
  constructor
  · rintro ⟨n, m, ⟨rfl, rfl⟩, hr⟩
    split_ifs at hr with hk
    · simp at hr
    simp only [bind_eq_ok, substr_apply, Outcome.ok.injEq, ofExcept_eq_ok, readUint64] at hr
    obtain ⟨be, m, ⟨rfl, rfl⟩, len, m, ⟨hlen, rfl⟩, u, m, hrm, hr⟩ := hr
    rw [removePrefix_of_le (by omega)] at hrm
    simp only [Outcome.ok.injEq, true_and] at hrm
    subst hrm
    split_ifs at hr with h56
    · simp at hr
    simp only [pure_apply, Outcome.ok.injEq] at hr
    obtain ⟨rfl, rfl⟩ := hr
    have hbe := (readUint_eq_ok (by norm_num)).mp hlen
    refine ⟨rfl, Nat.not_lt.mp h56, by simpa using len.isLt, ?_, ?_⟩
    · rw [← hbe, List.length_take]
      omega
    · rw [← hbe, List.take_append_drop]
  · rintro ⟨rfl, h56, hlt, rfl, rfl⟩
    refine ⟨_, _, ⟨rfl, rfl⟩, ?_⟩
    have hv : (BitVec.ofNat 64 h.payloadLength).toNat = h.payloadLength := by
      simpa using Nat.mod_eq_of_lt hlt
    rw [if_neg (by simp)]
    simp only [bind_eq_ok, substr_apply, Outcome.ok.injEq, ofExcept_eq_ok, readUint64]
    refine ⟨_, _, ⟨rfl, rfl⟩, BitVec.ofNat 64 h.payloadLength, _, ⟨?_, rfl⟩, (), r, ?_, ?_⟩
    · rw [readUint_eq_ok (by norm_num), hv]
      simp
    · rw [removePrefix_of_le (by simp)]
      simp
    · rw [if_neg (by omega), hv]
      rfl

theorem decodeShortString_eq_ok {k : ℕ} {s r : Bytes} {h : Header} :
    decodeShortString k s = .ok h r ↔
      h = ⟨false, k⟩ ∧ r = s ∧ (k = 1 → ∃ b t, s = b :: t ∧ 0x80 ≤ b.toNat) := by
  simp only [decodeShortString]
  by_cases hk : k = 1
  · cases s with
    | nil => simp [hk]
    | cons b t =>
      simp only [hk, ↓reduceIte, bind_eq_ok, remaining_apply, Outcome.ok.injEq]
      by_cases hb : b.toNat < 0x80
      · simp [hb]
      · have hb' : 0x80 ≤ b.toNat := by omega
        simp [hb, hb']
        constructor <;> rintro ⟨rfl, rfl⟩ <;> exact ⟨rfl, rfl⟩
  · simp [hk, eq_comm]

theorem decodeHeader_eq_ok {s r : Bytes} {h : Header} :
    decodeHeader s = .ok h r ↔ decodePrefix s = .ok h r ∧ h.payloadLength ≤ r.length := by
  cases s with
  | nil => simp [decodeHeader, decodePrefix]
  | cons b t =>
    simp only [decodeHeader, bind_eq_ok, remaining_apply, Outcome.ok.injEq]
    constructor
    · rintro ⟨n, m, ⟨rfl, rfl⟩, hr⟩
      rw [if_neg (by simp)] at hr
      obtain ⟨h', m, hp, hr⟩ := bind_eq_ok.mp hr
      obtain ⟨n, m', hn, hr⟩ := bind_eq_ok.mp hr
      simp only [remaining_apply, Outcome.ok.injEq] at hn
      obtain ⟨rfl, rfl⟩ := hn
      split_ifs at hr with hle
      · simp at hr
      simp only [pure_apply, Outcome.ok.injEq] at hr
      obtain ⟨rfl, rfl⟩ := hr
      exact ⟨hp, by omega⟩
    · rintro ⟨hp, hle⟩
      refine ⟨_, _, ⟨rfl, rfl⟩, ?_⟩
      rw [if_neg (by simp), bind_of_ok hp, bind_of_ok (remaining_apply r), if_neg (by omega)]
      rfl

theorem decodePrefix_cons (b : UInt8) (t : Bytes) :
    decodePrefix (b :: t) =
      if b.toNat < 0x80 then .ok ⟨false, 1⟩ (b :: t)
      else if b.toNat < 0xB8 then decodeShortString (b.toNat - 0x80) t
      else if b.toNat < 0xC0 then decodeLongHeader false (b.toNat - 0xB7) t
      else if b.toNat < 0xF8 then .ok ⟨true, b.toNat - 0xC0⟩ t
      else decodeLongHeader true (b.toNat - 0xF7) t := by
  simp only [decodePrefix]
  rw [bind_of_ok (peek_cons b t)]
  split_ifs <;> rfl

private theorem eq_byte {b : UInt8} {n : ℕ} (h : b.toNat = n) : b = byte n := by
  rw [← h, byte_toNat]

private theorem length_lt_nine {L : ℕ} (h : L < 2 ^ 64) : (bigEndian L).length ≤ 8 :=
  length_bigEndian_le.mpr (by simpa using h)

private theorem decodePrefix_eq_list {L : ℕ} {s r : Bytes} :
    decodePrefix s = .ok ⟨true, L⟩ r ↔ s = encodeHeader ⟨true, L⟩ ++ r ∧ L < 2 ^ 64 := by
  constructor
  · intro h
    cases s with
    | nil => simp [decodePrefix] at h
    | cons b t =>
      rw [decodePrefix_cons] at h
      split_ifs at h with h1 h2 h3 h4
      · simp at h
      · simp [decodeShortString_eq_ok] at h
      · simp [decodeLongHeader_eq_ok] at h
      · simp only [Outcome.ok.injEq, Header.mk.injEq, true_and] at h
        obtain ⟨rfl, rfl⟩ := h
        have hb : b = byte (0xC0 + (b.toNat - 0xC0)) := eq_byte (by omega)
        refine ⟨?_, by omega⟩
        rw [encodeHeader_short (by omega)]
        exact congrArg (· :: t) hb
      · simp only [decodeLongHeader_eq_ok, true_and] at h
        obtain ⟨h56, hlt, hlen, rfl⟩ := h
        have hb : b = byte (0xF7 + (bigEndian L).length) := eq_byte (by omega)
        refine ⟨?_, hlt⟩
        rw [encodeHeader_long h56]
        exact congrArg (· :: (bigEndian L ++ r)) hb
  · rintro ⟨rfl, hlt⟩
    have hlen := length_lt_nine hlt
    by_cases h56 : L < 56
    · have hb : (byte (0xC0 + L)).toNat = 0xC0 + L := toNat_byte (by omega)
      rw [encodeHeader_short h56, if_pos rfl, List.singleton_append, decodePrefix_cons, hb,
        if_neg (by omega), if_neg (by omega), if_neg (by omega), if_pos (by omega)]
      simp
    · have hb : (byte (0xF7 + (bigEndian L).length)).toNat = 0xF7 + (bigEndian L).length :=
        toNat_byte (by omega)
      have hpos : 0 < (bigEndian L).length := lt_length_bigEndian.mpr (by omega)
      rw [encodeHeader_long (by omega), if_pos rfl, List.cons_append, decodePrefix_cons, hb,
        if_neg (by omega), if_neg (by omega), if_neg (by omega), if_neg (by omega),
        decodeLongHeader_eq_ok]
      exact ⟨rfl, by simpa using h56, hlt, by simp, rfl⟩

/-- The header of a list is accepted in its canonical form, if the view holds the payload. -/
theorem decodeHeader_eq_list {L : ℕ} {s r : Bytes} :
    decodeHeader s = .ok ⟨true, L⟩ r ↔
      s = encodeHeader ⟨true, L⟩ ++ r ∧ L ≤ r.length ∧ L < 2 ^ 64 := by
  rw [decodeHeader_eq_ok, decodePrefix_eq_list]
  tauto

private theorem isSingleByte_take_iff {L : ℕ} {r : Bytes} (hL : L ≤ r.length) :
    isSingleByte (r.take L) = true ↔ L = 1 ∧ ∃ b t, r = b :: t ∧ b.toNat < 0x80 := by
  rw [isSingleByte_iff]
  constructor
  · rintro ⟨b, hb, hlt⟩
    have hlen := congrArg List.length hb
    rw [List.length_take, Nat.min_eq_left hL] at hlen
    simp only [List.length_singleton] at hlen
    subst hlen
    cases r with
    | nil => simp at hb
    | cons c t =>
      simp only [List.take_succ_cons, List.take_zero, List.cons.injEq, and_true] at hb
      exact ⟨rfl, c, t, rfl, hb ▸ hlt⟩
  · rintro ⟨rfl, b, t, rfl, hlt⟩
    exact ⟨b, by simp, hlt⟩

private theorem decodePrefix_eq_string {L : ℕ} {s r : Bytes} (hL : L ≤ r.length) :
    decodePrefix s = .ok ⟨false, L⟩ r ↔
      s = (if isSingleByte (r.take L) then [] else encodeHeader ⟨false, L⟩) ++ r ∧ L < 2 ^ 64 := by
  constructor
  · intro h
    cases s with
    | nil => simp [decodePrefix] at h
    | cons b t =>
      rw [decodePrefix_cons] at h
      split_ifs at h with h1 h2 h3 h4
      · simp only [Outcome.ok.injEq, Header.mk.injEq, true_and] at h
        obtain ⟨rfl, rfl⟩ := h
        rw [if_pos ((isSingleByte_take_iff hL).mpr ⟨rfl, b, t, rfl, h1⟩)]
        simp
      · obtain ⟨hh, rfl, hone⟩ := decodeShortString_eq_ok.mp h
        simp only [Header.mk.injEq, true_and] at hh
        have hb : b = byte (0x80 + L) := eq_byte (by omega)
        refine ⟨?_, by omega⟩
        rw [if_neg, encodeHeader_short (by omega)]
        · exact congrArg (· :: r) hb
        · rw [isSingleByte_take_iff hL]
          rintro ⟨h1, c, t, rfl, hc⟩
          obtain ⟨c', t', he, hc'⟩ := hone (by omega)
          cases he
          omega
      · simp only [decodeLongHeader_eq_ok, true_and] at h
        obtain ⟨h56, hlt, hlen, rfl⟩ := h
        have hb : b = byte (0xB7 + (bigEndian L).length) := eq_byte (by omega)
        refine ⟨?_, hlt⟩
        rw [if_neg, encodeHeader_long h56]
        · exact congrArg (· :: (bigEndian L ++ r)) hb
        · rw [isSingleByte_take_iff hL]
          omega
      · simp at h
      · simp [decodeLongHeader_eq_ok] at h
  · rintro ⟨rfl, hlt⟩
    have hlen := length_lt_nine hlt
    by_cases hs : isSingleByte (r.take L) = true
    · obtain ⟨rfl, b, t, rfl, hb⟩ := (isSingleByte_take_iff hL).mp hs
      rw [if_pos hs, List.nil_append, decodePrefix_cons, if_pos hb]
    · rw [if_neg hs]
      by_cases h56 : L < 56
      · have hb : (byte (0x80 + L)).toNat = 0x80 + L := toNat_byte (by omega)
        simp only [encodeHeader_short h56, Bool.false_eq_true, ↓reduceIte, List.singleton_append]
        rw [decodePrefix_cons, hb, if_neg (by omega), if_pos (by omega), decodeShortString_eq_ok]
        refine ⟨by simp, rfl, fun h1 => ?_⟩
        obtain rfl : L = 1 := by omega
        cases r with
        | nil => simp at hL
        | cons c t =>
          refine ⟨c, t, rfl, ?_⟩
          by_contra hc
          exact hs ((isSingleByte_take_iff hL).mpr ⟨rfl, c, t, rfl, by omega⟩)
      · have hb : (byte (0xB7 + (bigEndian L).length)).toNat = 0xB7 + (bigEndian L).length :=
          toNat_byte (by omega)
        have hpos : 0 < (bigEndian L).length := lt_length_bigEndian.mpr (by omega)
        simp only [encodeHeader_long (Nat.not_lt.mp h56), Bool.false_eq_true, ↓reduceIte, List.cons_append]
        rw [decodePrefix_cons, hb, if_neg (by omega), if_neg (by omega), if_pos (by omega),
          decodeLongHeader_eq_ok]
        exact ⟨rfl, by simpa using h56, hlt, by simp, rfl⟩

/-- The header of a string is absent in front of a single byte below 0x80. -/
theorem decodeHeader_eq_string {L : ℕ} {s r : Bytes} :
    decodeHeader s = .ok ⟨false, L⟩ r ↔
      s = (if isSingleByte (r.take L) then [] else encodeHeader ⟨false, L⟩) ++ r ∧
        L ≤ r.length ∧ L < 2 ^ 64 := by
  rw [decodeHeader_eq_ok]
  by_cases hL : L ≤ r.length
  · simp [decodePrefix_eq_string hL, hL]
  · simp [hL]

theorem encodeBytes_length_pos (b : Bytes) : encodeBytes b ≠ [] := by
  simp only [encodeBytes]
  split_ifs with h
  · obtain ⟨c, rfl, -⟩ := isSingleByte_iff.mp h
    simp
  · simp [encodeHeader_ne_nil]

theorem decodeBytes_accepts :
    Accepts decodeBytes (fun t b => t = encodeBytes b ∧ b.length < 2 ^ 64) := by
  intro s b r
  simp only [decodeBytes, bind_eq_ok]
  constructor
  · rintro ⟨⟨list, L⟩, m, hh, h⟩
    cases list with
    | true => simp at h
    | false =>
      obtain ⟨rfl, hL, hlt⟩ := decodeHeader_eq_string.mp hh
      simp only [Bool.false_eq_true, ↓reduceIte, bind_eq_ok, substr_apply, Outcome.ok.injEq,
        pure_apply] at h
      obtain ⟨_, _, ⟨rfl, rfl⟩, _, _, hm, rfl, rfl⟩ := h
      rw [removePrefix_of_le hL] at hm
      simp only [Outcome.ok.injEq, true_and] at hm
      subst hm
      refine ⟨_, ⟨rfl, by simpa using Or.inl hlt⟩, ?_⟩
      simp only [encodeBytes, List.length_take, Nat.min_eq_left hL, List.append_assoc,
        List.take_append_drop]
  · rintro ⟨t, ⟨rfl, hlt⟩, rfl⟩
    refine ⟨⟨false, b.length⟩, b ++ r, ?_, ?_⟩
    · rw [decodeHeader_eq_string]
      refine ⟨?_, by simp, hlt⟩
      simp [encodeBytes]
    · rw [if_neg (by simp)]
      simp [removePrefix_of_le]

theorem encodeUint_eq_encodeBytes {w : ℕ} (h8 : 8 ∣ w) (hw : w ≤ 256) (v : BitVec w) :
    encodeUint v = encodeBytes (bigEndian v.toNat) := by
  have hlen := length_bigEndian_toNat h8 v
  simp only [encodeUint]
  by_cases h0 : v.toNat = 0
  · rw [if_pos h0, h0]
    rfl
  rw [if_neg h0]
  by_cases h : v.toNat < 0x80
  · rw [if_pos h, bigEndian_of_lt h0 (by omega)]
    have hs : isSingleByte [UInt8.ofNat v.toNat] = true :=
      isSingleByte_iff.mpr ⟨_, rfl, by rw [toNat_ofNat (by omega)]; exact h⟩
    simp [encodeBytes, hs, byte]
  · have hs : ¬isSingleByte (bigEndian v.toNat) = true := by
      rw [isSingleByte_iff]
      rintro ⟨b, hb, hlt⟩
      have hv := ofBigEndian_bigEndian v.toNat
      rw [hb] at hv
      simp only [ofBigEndian, List.reverse_singleton, List.map_cons, List.map_nil,
        Nat.ofDigits_singleton] at hv
      omega
    rw [if_neg h, encodeBytes, if_neg hs, encodeHeader_short (by omega)]
    rfl

theorem decodeUint_eq_ok {w : ℕ} {s r : Bytes} {v : BitVec w} :
    decodeUint w s = .ok v r ↔ ∃ b, decodeBytes s = .ok b r ∧ readUint w b false = .ok v := by
  simp only [decodeUint, decodeBytes, bind_eq_ok]
  constructor
  · rintro ⟨h, m, hh, hr⟩
    split_ifs at hr with hl
    · simp at hr
    simp only [bind_eq_ok, substr_apply, Outcome.ok.injEq, ofExcept_eq_ok, pure_apply] at hr
    obtain ⟨_, _, ⟨rfl, rfl⟩, _, _, ⟨hread, rfl⟩, _, _, hm, rfl, rfl⟩ := hr
    refine ⟨_, ⟨h, _, hh, ?_⟩, hread⟩
    simp [hl, hm]
  · rintro ⟨b, ⟨h, m, hh, hr⟩, hread⟩
    refine ⟨h, m, hh, ?_⟩
    split_ifs at hr ⊢ with hl
    · simp at hr
    simp only [bind_eq_ok, substr_apply, Outcome.ok.injEq, pure_apply] at hr
    obtain ⟨_, _, ⟨rfl, rfl⟩, _, _, hm, rfl, rfl⟩ := hr
    simp [hread, hm]

theorem decodeUint_accepts {w : ℕ} (h8 : 8 ∣ w) (hw : w ≤ 256) :
    Accepts (decodeUint w) (fun t v => t = encodeUint v) := by
  intro s v r
  rw [decodeUint_eq_ok]
  constructor
  · rintro ⟨b, hb, hread⟩
    obtain ⟨t, ⟨rfl, -⟩, rfl⟩ := (decodeBytes_accepts _ _ _).mp hb
    rw [(readUint_eq_ok h8).mp hread]
    exact ⟨_, (encodeUint_eq_encodeBytes h8 hw v).symm, rfl⟩
  · rintro ⟨t, rfl, rfl⟩
    refine ⟨bigEndian v.toNat, decodeBytes_accepts.ok ⟨encodeUint_eq_encodeBytes h8 hw v, ?_⟩ r,
      (readUint_eq_ok h8).mpr rfl⟩
    have hlen := length_bigEndian_toNat h8 v
    omega

theorem encodeFixed_eq_encodeBytes {n : ℕ} (h2 : 2 ≤ n) (h55 : n ≤ 55) (v : FixedBytes n) :
    encodeFixed v = encodeBytes v.val := by
  have hs : ¬isSingleByte v.val = true := by
    rw [isSingleByte_iff]
    rintro ⟨b, hb, -⟩
    have hl := v.property
    rw [hb] at hl
    simp at hl
    omega
  rw [encodeFixed, encodeBytes, if_neg hs, v.property, encodeHeader_short (by omega)]
  rfl

theorem decodeFixed_eq_ok {n : ℕ} {s r : Bytes} {v : FixedBytes n} :
    decodeFixed n s = .ok v r ↔ decodeBytes s = .ok v.val r := by
  simp only [decodeFixed, decodeBytes, bind_eq_ok]
  constructor
  · rintro ⟨h, m, hh, hr⟩
    have hle := (decodeHeader_eq_ok.mp hh).2
    split_ifs at hr with hl hn
    · simp at hr
    · simp at hr
    obtain rfl : h.payloadLength = n := by simpa using hn
    simp only [bind_eq_ok, copy_of_le hle, Outcome.ok.injEq, pure_apply] at hr
    obtain ⟨_, _, ⟨rfl, rfl⟩, _, _, hm, rfl, rfl⟩ := hr
    refine ⟨h, _, hh, ?_⟩
    simp [hl, hm]
  · rintro ⟨h, m, hh, hr⟩
    have hle := (decodeHeader_eq_ok.mp hh).2
    refine ⟨h, m, hh, ?_⟩
    split_ifs at hr ⊢ with hl hn
    · simp at hr
    all_goals
      simp only [bind_eq_ok, substr_apply, Outcome.ok.injEq, pure_apply] at hr
      obtain ⟨_, _, ⟨rfl, rfl⟩, _, _, hm, hv, rfl⟩ := hr
      have hlen := v.property
      rw [← hv, List.length_take, Nat.min_eq_left hle] at hlen
    · exact absurd hlen hn
    · subst hlen
      simp only [bind_eq_ok, copy_of_le hle, Outcome.ok.injEq, pure_apply]
      exact ⟨_, _, ⟨rfl, rfl⟩, _, _, hm, Subtype.ext hv, rfl⟩

theorem decodeFixed_accepts {n : ℕ} (hn : n < 2 ^ 64) :
    Accepts (decodeFixed n) (fun t v => t = encodeBytes v.val) := by
  intro s v r
  rw [decodeFixed_eq_ok, decodeBytes_accepts]
  simp only [v.property, hn, and_true]

theorem decodeBool_accepts : Accepts decodeBool (fun t b => t = encodeBool b) := by
  intro s b r
  simp only [decodeBool, bind_eq_ok, decodeUint_accepts (w := 64) (by norm_num) (by norm_num) s]
  constructor
  · rintro ⟨i, m, ⟨t, rfl, rfl⟩, h⟩
    split_ifs at h with hi
    · simp at h
    simp only [pure_apply, Outcome.ok.injEq] at h
    obtain ⟨rfl, rfl⟩ := h
    refine ⟨_, ?_, rfl⟩
    rw [encodeBool]
    congr 1
    apply BitVec.eq_of_toNat_eq
    by_cases h1 : i.toNat = 1
    · simp [h1]
    · simp [h1]
      omega
  · rintro ⟨t, rfl, rfl⟩
    refine ⟨_, r, ⟨_, rfl, rfl⟩, ?_⟩
    cases b <;> rfl

/-- The list with the given payload. -/
def encodeList (payload : Bytes) : Bytes := encodeHeader ⟨true, payload.length⟩ ++ payload

theorem encodeList_ne_nil (u : Bytes) : encodeList u ≠ [] := by
  simp [encodeList, encodeHeader_ne_nil]

section Lists

variable {α : Type} {p : Decoder α} {R : Bytes → α → Prop}

theorem decodeListOf_accepts (hp : Accepts p R) :
    Accepts (decodeListOf p) (fun t a => ∃ u, R u a ∧ u.length < 2 ^ 64 ∧ t = encodeList u) := by
  intro s a r
  simp only [decodeListOf, bind_eq_ok]
  constructor
  · rintro ⟨⟨list, L⟩, m, hh, h⟩
    cases list with
    | false => simp at h
    | true =>
      obtain ⟨rfl, hL, hlt⟩ := decodeHeader_eq_list.mp hh
      simp only [Bool.not_true, Bool.false_eq_true, ↓reduceIte, bind_eq_ok, remaining_apply,
        Outcome.ok.injEq] at h
      obtain ⟨_, _, ⟨rfl, rfl⟩, x, m', hx, _, _, ⟨rfl, rfl⟩, h⟩ := h
      split_ifs at h with hlen
      · simp only [pure_apply, Outcome.ok.injEq] at h
        obtain ⟨rfl, rfl⟩ := h
        obtain ⟨u, hu, rfl⟩ := (hp _ _ _).mp hx
        rw [List.length_append] at hlen hL
        obtain rfl : u.length = L := by omega
        exact ⟨_, ⟨u, hu, hlt, rfl⟩, by simp [encodeList]⟩
      · simp at h
  · rintro ⟨t, ⟨u, hu, hlt, rfl⟩, rfl⟩
    refine ⟨⟨true, u.length⟩, u ++ r, ?_, ?_⟩
    · rw [decodeHeader_eq_list]
      exact ⟨by simp [encodeList], by simp, hlt⟩
    · rw [if_neg (by simp), bind_of_ok (remaining_apply _), bind_of_ok (hp.ok hu r),
        bind_of_ok (remaining_apply _), if_pos (by simp)]
      rfl

theorem decodeVector_acceptsUpTo {n : ℕ} (hp : AcceptsUpTo n p R) (hne : ∀ t a, R t a → t ≠ []) :
    AcceptsUpTo n (decodeVector p)
      (fun t as => ∃ u, Words R u as ∧ u.length < 2 ^ 64 ∧ t = encodeList u) := by
  intro s hs as r
  simp only [decodeVector, bind_eq_ok]
  constructor
  · rintro ⟨⟨list, L⟩, m, hh, h⟩
    cases list with
    | false => simp at h
    | true =>
      obtain ⟨rfl, hL, hlt⟩ := decodeHeader_eq_list.mp hh
      simp only [Bool.not_true, Bool.false_eq_true, ↓reduceIte, bind_eq_ok, substr_apply,
        Outcome.ok.injEq, within_eq_ok, pure_apply] at h
      obtain ⟨_, _, ⟨rfl, rfl⟩, x, m', ⟨hx, rfl⟩, _, _, hm, rfl, rfl⟩ := h
      rw [removePrefix_of_le hL] at hm
      simp only [Outcome.ok.injEq, true_and] at hm
      subst hm
      obtain ⟨-, hw⟩ := (untilEmpty_eq_ok_upTo hp hne (by simp at hs ⊢; omega) le_rfl).mp hx
      have hlen : (m'.take L).length = L := by simp [hL]
      refine ⟨_, ⟨m'.take L, hw, by omega, rfl⟩, ?_⟩
      rw [encodeList, hlen, List.append_assoc, List.take_append_drop]
  · rintro ⟨t, ⟨u, hu, hlt, rfl⟩, rfl⟩
    refine ⟨⟨true, u.length⟩, u ++ r, ?_, ?_⟩
    · rw [decodeHeader_eq_list]
      exact ⟨by simp [encodeList], by simp, hlt⟩
    · have hun : u.length ≤ n := by
        simp only [encodeList, List.length_append] at hs
        omega
      have hw := (untilEmpty_eq_ok_upTo hp hne hun (le_refl u.length)).mpr ⟨rfl, hu⟩
      simp [removePrefix_of_le, hw]

theorem decodeVector_accepts (hp : Accepts p R) (hne : ∀ t a, R t a → t ≠ []) :
    Accepts (decodeVector p)
      (fun t as => ∃ u, Words R u as ∧ u.length < 2 ^ 64 ∧ t = encodeList u) :=
  fun s => decodeVector_acceptsUpTo (hp.upTo s.length) hne s le_rfl

end Lists

theorem encodeVector_eq_encodeList {α : Type} {encode : α → Bytes} {length : α → ℕ} {v : List α}
    (hl : ∀ x ∈ v, (encode x).length = length x) :
    encodeVector length encode v = encodeList (v.map encode).flatten := by
  rw [encodeList, length_flatten_map hl]
  rfl

/-- The decoder accepts exactly the codes of the values that are small enough. A value with
a code below 2^64 bytes always is. -/
structure Codes {α : Type} (p : Decoder α) (encode : α → Bytes) (small : α → Prop) : Prop where
  accepts : Accepts p (fun t a => t = encode a ∧ small a)
  tame : ∀ a, (encode a).length < 2 ^ 64 → small a
  nonempty : ∀ a, encode a ≠ []

section Codes

variable {α β : Type} {p : Decoder α} {encode : α → Bytes} {small : α → Prop}

theorem Codes.eq_ok (h : Codes p encode small) {s r : Bytes} {a : α} :
    p s = .ok a r ↔ small a ∧ s = encode a ++ r := by
  rw [h.accepts]
  simp [and_comm]

/-- The rule for the next field of a struct. -/
theorem Codes.bind_eq_ok (h : Codes p encode small) {f : α → Decoder β} {s r : Bytes} {b : β} :
    (p >>= f) s = .ok b r ↔ ∃ a m, small a ∧ s = encode a ++ m ∧ f a m = .ok b r := by
  rw [ViewParsers.bind_eq_ok]
  simp only [h.eq_ok, and_assoc]

theorem Codes.congr (h : Codes p encode small) {encode' : α → Bytes} {small' : α → Prop}
    (he : ∀ a, encode' a = encode a) (hs : ∀ a, small' a ↔ small a) : Codes p encode' small' := by
  obtain rfl : encode' = encode := funext he
  obtain rfl : small' = small := funext fun a => propext (hs a)
  exact h

theorem Codes.list {fields : Decoder α} (h : Codes fields encode small) :
    Codes (decodeListOf fields) (fun a => encodeList (encode a))
      (fun a => (encode a).length < 2 ^ 64) where
  accepts := by
    intro s a r
    rw [decodeListOf_accepts h.accepts]
    constructor
    · rintro ⟨t, ⟨u, ⟨rfl, -⟩, hlt, rfl⟩, rfl⟩
      exact ⟨_, ⟨rfl, hlt⟩, rfl⟩
    · rintro ⟨t, ⟨rfl, hlt⟩, rfl⟩
      exact ⟨_, ⟨_, ⟨rfl, h.tame a hlt⟩, hlt, rfl⟩, rfl⟩
  tame a ha := by
    rw [encodeList, List.length_append] at ha
    omega
  nonempty a := encodeList_ne_nil _

theorem Codes.vector (h : Codes p encode small) {length : α → ℕ}
    (hl : ∀ a, (encode a).length = length a) :
    Codes (decodeVector p) (encodeVector length encode)
      (fun v => payloadLengthVector length v < 2 ^ 64) where
  accepts := by
    intro s v r
    rw [decodeVector_accepts h.accepts (by rintro t a ⟨rfl, -⟩; exact h.nonempty a)]
    have hv : (v.map encode).flatten.length = payloadLengthVector length v :=
      length_flatten_map fun x _ => hl x
    have hcode := encodeVector_eq_encodeList (v := v) fun x _ => hl x
    constructor
    · rintro ⟨t, ⟨u, ⟨ts, hts, rfl⟩, hlt, rfl⟩, rfl⟩
      have hw : ts.flatten = (v.map encode).flatten :=
        words_code_iff.mp ⟨ts, hts.imp fun _ _ h => h.1, rfl⟩
      rw [hw, hv] at hlt
      exact ⟨_, ⟨(congrArg encodeList hw).trans hcode.symm, hlt⟩, rfl⟩
    · rintro ⟨t, ⟨rfl, hlt⟩, rfl⟩
      refine ⟨_, ⟨(v.map encode).flatten, ⟨v.map encode, ?_, rfl⟩, by omega, hcode⟩, rfl⟩
      rw [List.forall₂_map_left_iff, List.forall₂_same]
      intro x hx
      refine ⟨rfl, h.tame x ?_⟩
      have hle : (encode x).length ≤ (v.map encode).flatten.length :=
        (List.sublist_flatten_of_mem (List.mem_map_of_mem hx)).length_le
      omega
  tame v hv := by
    rw [length_encodeVector fun x _ => hl x, lengthVector] at hv
    omega
  nonempty v := by simp [encodeVector, encodeHeader_ne_nil]

end Codes

theorem codes_uint {w : ℕ} (h8 : 8 ∣ w) (hw : w ≤ 256) :
    Codes (decodeUint w) encodeUint (fun _ => True) where
  accepts := by simpa using decodeUint_accepts h8 hw
  tame _ _ := trivial
  nonempty v := by
    rw [encodeUint_eq_encodeBytes h8 hw]
    exact encodeBytes_length_pos _

theorem codes_bytes : Codes decodeBytes encodeBytes (fun b => b.length < 2 ^ 64) where
  accepts := decodeBytes_accepts
  tame b hb := by
    rw [encodeBytes, List.length_append] at hb
    omega
  nonempty := encodeBytes_length_pos

theorem codes_array {n : ℕ} (hn : n < 2 ^ 64) :
    Codes (decodeFixed n) (fun v => encodeBytes v.val) (fun _ => True) where
  accepts := by simpa using decodeFixed_accepts hn
  tame _ _ := trivial
  nonempty v := encodeBytes_length_pos _

theorem codes_fixed {n : ℕ} (h2 : 2 ≤ n) (h55 : n ≤ 55) :
    Codes (decodeFixed n) encodeFixed (fun _ => True) :=
  (codes_array (by omega)).congr (encodeFixed_eq_encodeBytes h2 h55) (by simp)

theorem codes_bool : Codes decodeBool encodeBool (fun _ => True) where
  accepts := by simpa using decodeBool_accepts
  tame _ _ := trivial
  nonempty b := (codes_uint (w := 64) (by norm_num) (by norm_num)).nonempty _

theorem codes_uint64 : Codes (decodeUint 64) encodeUint (fun _ => True) :=
  codes_uint (by norm_num) (by norm_num)

theorem codes_uint256 : Codes (decodeUint 256) encodeUint (fun _ => True) :=
  codes_uint (by norm_num) (by norm_num)

theorem codes_hash : Codes (decodeFixed kHashLength) encodeFixed (fun _ => True) :=
  codes_fixed (by norm_num) (by norm_num)

theorem codes_address : Codes (decodeFixed kAddressLength) encodeFixed (fun _ => True) :=
  codes_fixed (by norm_num) (by norm_num)

section ByteViews

/-- The length of a view is a `size_t`. -/
abbrev ByteView := { view : Bytes // view.length < 2 ^ 64 }

/-- A view is accepted if it starts with the encoding of a value, and the rest of it remains. -/
def Canonical {α : Type} (decode : Decoder α) (encode : α → Bytes) : Prop :=
  ∀ (s : ByteView) (v : α) (r : Bytes), decode s.val = .ok v r ↔ s.val = encode v ++ r

/-- The functions of a type whose values can be the items of a list. -/
structure ItemType (α : Type) where
  decode : Decoder α
  encode : α → Bytes
  length : α → ℕ
  length_encode : ∀ v, (encode v).length = length v
  encode_ne_nil : ∀ v, encode v ≠ []

variable {α : Type}

theorem Codes.canonical {p : Decoder α} {encode : α → Bytes} {small : α → Prop}
    (h : Codes p encode small) : Canonical p encode := by
  intro s v r
  rw [h.eq_ok]
  constructor
  · exact And.right
  · intro hs
    have hlen := s.property
    rw [hs, List.length_append] at hlen
    exact ⟨h.tame v (by omega), hs⟩

theorem Canonical.acceptsUpTo {p : Decoder α} {encode : α → Bytes} (h : Canonical p encode) :
    AcceptsUpTo (2 ^ 64 - 1) p (fun t v => t = encode v) := by
  intro s hs v r
  rw [h ⟨s, by omega⟩]
  simp

theorem Canonical.vector {t : ItemType α} (h : Canonical t.decode t.encode) :
    Canonical (decodeVector t.decode) (encodeVector t.length t.encode) := by
  intro s as r
  have hs := s.property
  rw [decodeVector_acceptsUpTo h.acceptsUpTo (by rintro _ a rfl; exact t.encode_ne_nil a) _
    (by omega), encodeVector_eq_encodeList fun x _ => t.length_encode x]
  constructor
  · rintro ⟨_, ⟨u, hu, -, rfl⟩, hr⟩
    rw [words_code_iff.mp hu] at hr
    exact hr
  · intro hr
    refine ⟨_, ⟨(as.map t.encode).flatten, words_code_iff.mpr rfl, ?_, rfl⟩, hr⟩
    rw [hr, encodeList, List.length_append, List.length_append] at hs
    omega

/-- The primitive decoders accept exactly the canonical encodings. -/
theorem decode_canonical :
    Canonical decodeBytes encodeBytes ∧
    Canonical (decodeUint 64) encodeUint ∧
    Canonical (decodeUint 256) encodeUint ∧
    Canonical decodeBool encodeBool ∧
    (∀ n, 2 ≤ n → n ≤ 55 → Canonical (decodeFixed n) encodeFixed) ∧
    ∀ (α : Type) (t : ItemType α), Canonical t.decode t.encode →
      Canonical (decodeVector t.decode) (encodeVector t.length t.encode) :=
  ⟨codes_bytes.canonical, codes_uint64.canonical, codes_uint256.canonical, codes_bool.canonical,
    fun _ h2 h55 => (codes_fixed h2 h55).canonical, fun _ _ h => h.vector⟩

/-- The list of the numbers 1 and 1024, with one byte behind it. -/
theorem decode_canonical_two_numbers :
    decodeVector (decodeUint 64) [0xc4, 0x01, 0x82, 0x04, 0x00, 0xff] = .ok [1, 1024] [0xff] := by
  let number : ItemType Uint64 :=
    ⟨decodeUint 64, encodeUint, lengthUint, length_encodeUint, codes_uint64.nonempty⟩
  have hvector := decode_canonical.2.2.2.2.2 Uint64 number decode_canonical.2.1
  exact (hvector ⟨[0xc4, 0x01, 0x82, 0x04, 0x00, 0xff], by decide⟩ [1, 1024] [0xff]).mpr
    (by decide)

end ByteViews

end Silkworm.Rlp
