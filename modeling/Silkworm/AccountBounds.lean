import Silkworm.AccountCodec

/-!
# Bounds of the account decoder

The decoder reads the length of an announced field before it compares it with the string, and copies
a balance before it looks at its length. It stays within the string and the balance unless the
string ends where such a length is due or after a balance of no bytes, or holds a balance of more
than 32 bytes.
-/

namespace Silkworm
open BigEndian ViewParsers Rlp

/-- The fields of an account in storage. -/
inductive StoredField where
  | nonce | balance | incarnation | codeHash
  deriving DecidableEq

namespace StoredField

/-- The lengths that a field can have. -/
def Fits : StoredField → ℕ → Prop
  | .nonce, n | .incarnation, n => n ≤ 8
  | .balance, n => n ≤ 32
  | .codeHash, n => n = kHashLength

/-- A number of 64 bits has no leading zero, either. -/
def Word (f : StoredField) (be : Bytes) : Prop :=
  f.Fits be.length ∧ ((f = .nonce ∨ f = .incarnation) → be.head? ≠ some 0)

/-- There is no length to read, or a balance without bytes at the very end, or a whole one that is
too long. -/
def Stray (f : StoredField) (s : Bytes) : Prop :=
  s = [] ∨ f = .balance ∧
    (s = [0] ∨ ∃ len r, s = len :: r ∧ 32 < len.toNat ∧ len.toNat ≤ r.length)

/-- One of the fields strays, after fields that do not. -/
def Strays : List StoredField → Bytes → Prop
  | [], _ => False
  | f :: fs, s => f.Stray s ∨ ∃ be r, f.Word be ∧ s = lengthPrefixed be ++ r ∧ Strays fs r

/-- All of the fields are there. -/
def Present : List StoredField → Bytes → Prop
  | [], _ => True
  | f :: fs, s => ∃ be r, f.Fits be.length ∧ s = lengthPrefixed be ++ r ∧ Present fs r

def announced (fields : UInt8) : List StoredField :=
  (if fields &&& 1 ≠ 0 then [.nonce] else []) ++ ((if fields &&& 2 ≠ 0 then [.balance] else []) ++
    ((if fields &&& 4 ≠ 0 then [.incarnation] else []) ++
      if fields &&& 8 ≠ 0 then [.codeHash] else []))

variable {f : StoredField} {be r s : Bytes} {fs : List StoredField}

theorem Fits.length_lt (h : f.Fits be.length) : be.length < 256 := by
  cases f with
  | nonce => exact Nat.lt_of_le_of_lt h (by norm_num)
  | balance => exact Nat.lt_of_le_of_lt h (by norm_num)
  | incarnation => exact Nat.lt_of_le_of_lt h (by norm_num)
  | codeHash => exact Nat.lt_of_le_of_lt (Nat.le_of_eq h) (by norm_num)

/-- A string that holds what its first byte says. -/
theorem lengthPrefixed_take {len : UInt8} (h : len.toNat ≤ r.length) :
    len :: r = lengthPrefixed (r.take len.toNat) ++ r.drop len.toNat := by
  rw [lengthPrefixed, List.length_take, Nat.min_eq_left h, byte, List.cons_append,
    List.take_append_drop, UInt8.ofNat_toNat]

end StoredField

section Decoders
open StoredField

variable {α β : Type}

/-- A decoder of one field. -/
structure Reads (f : StoredField) (p : Decoder α) : Prop where
  strays : ∀ s, p s = .outOfBounds ↔ f.Stray s
  word : ∀ s x r, p s = .ok x r → ∃ be, f.Word be ∧ s = lengthPrefixed be ++ r
  reads : ∀ be r, f.Word be → p (lengthPrefixed be ++ r) = .outOfBounds ∨
    ∃ x, p (lengthPrefixed be ++ r) = .ok x r
  terminates : ∀ s, p s ≠ .diverges

/-- A decoder of fields in turn. -/
structure Follows (fs : List StoredField) (p : Decoder α) : Prop where
  strays : ∀ s, p s = .outOfBounds ↔ Strays fs s
  present : ∀ s x r, p s = .ok x r → Present fs s
  terminates : ∀ s, p s ≠ .diverges

theorem fieldLength_apply (len : UInt8) (r : Bytes) : fieldLength (len :: r) = .ok len.toNat r := by
  rw [fieldLength, bind_of_ok (peek_cons _ _), bind_of_ok (removePrefix_one_cons _ _), pure_apply]

/-- A field, by what is read from its bytes. -/
theorem storedField_cons {read : Bytes → Decoder α} (len : UInt8) (r : Bytes) :
    storedField read (len :: r) = if r.length < len.toNat then .error .kInputTooShort r else
      (read (r.take len.toNat) >>= fun x => removePrefix len.toNat >>= fun _ => pure x) r := by
  rw [storedField, bind_of_ok (fieldLength_apply len r), bind_of_ok (remaining_apply r)]
  split_ifs
  · rfl
  · rw [bind_of_ok (substr_apply _ _)]

/-- The place of a balance is looked up behind the end. -/
def AtEnd (f : StoredField) (s : Bytes) : Prop := f = .balance ∧ s = []

/-- The bytes of a field are a word of it, or are refused, or do not fit. -/
structure ReadsWords (f : StoredField) (read : Bytes → Decoder α) : Prop where
  word : ∀ be s, f.Word be → ¬AtEnd f s → ∃ x, read be s = .ok x s
  atEnd : ∀ be s, AtEnd f s → read be s = .outOfBounds
  other : ∀ be s, ¬f.Word be →
    f = .balance ∧ read be s = .outOfBounds ∨ f ≠ .balance ∧ ∃ e, read be s = .error e s

theorem not_word_balance_iff {be : Bytes} : ¬StoredField.balance.Word be ↔ 32 < be.length := by
  simp [Word, Fits]

/-- Where there is a length, the bytes behind it decide whether the field strays. -/
theorem stray_cons_iff {f : StoredField} {len : UInt8} {r : Bytes} :
    f.Stray (len :: r) ↔
      len.toNat ≤ r.length ∧ (AtEnd f r ∨ f = .balance ∧ ¬f.Word (r.take len.toNat)) := by
  constructor
  · rintro (h | ⟨rfl, h | ⟨len', r', h, hlong, hle⟩⟩)
    · cases h
    · cases h
      exact ⟨Nat.le_refl 0, .inl ⟨rfl, rfl⟩⟩
    · cases h
      refine ⟨hle, .inr ⟨rfl, not_word_balance_iff.mpr ?_⟩⟩
      rwa [List.length_take_of_le hle]
  · rintro ⟨hle, ⟨rfl, rfl⟩ | ⟨rfl, hword⟩⟩
    · have hzero : len = 0 := UInt8.toNat_inj.mp (Nat.le_zero.mp hle)
      exact .inr ⟨rfl, .inl (by rw [hzero])⟩
    · have hlong := not_word_balance_iff.mp hword
      rw [List.length_take_of_le hle] at hlong
      exact .inr ⟨rfl, .inr ⟨len, r, rfl, hlong, hle⟩⟩

/-- A field strays, or it is read, or there is an error. -/
theorem ReadsWords.outcomes {f : StoredField} {read : Bytes → Decoder α} (h : ReadsWords f read)
    (s : Bytes) : f.Stray s ∧ storedField read s = .outOfBounds ∨ ¬f.Stray s ∧
      ((∃ be x r, f.Word be ∧ s = lengthPrefixed be ++ r ∧ storedField read s = .ok x r) ∨
        ∃ e r, storedField read s = .error e r) := by
  cases s with
  | nil => exact .inl ⟨.inl rfl, rfl⟩
  | cons len r =>
    rw [stray_cons_iff, storedField_cons]
    by_cases hlen : r.length < len.toNat
    · exact .inr ⟨fun hstray => absurd hstray.1 (Nat.not_le.mpr hlen), .inr ⟨_, r, if_pos hlen⟩⟩
    rw [if_neg hlen]
    have hle := Nat.not_lt.mp hlen
    by_cases hend : AtEnd f r
    · exact .inl ⟨⟨hle, .inl hend⟩, bind_eq_outOfBounds.mpr (.inl (h.atEnd _ r hend))⟩
    by_cases hword : f.Word (r.take len.toNat)
    · obtain ⟨x, hx⟩ := h.word _ r hword hend
      refine .inr ⟨?_, .inl ⟨_, x, _, hword, lengthPrefixed_take hle, ?_⟩⟩
      · rintro ⟨-, hatEnd | ⟨-, hother⟩⟩
        · exact hend hatEnd
        · exact hother hword
      · rw [bind_of_ok hx, bind_of_ok (removePrefix_of_le hle), pure_apply]
    · rcases h.other _ r hword with ⟨hf, hout⟩ | ⟨hf, e, he⟩
      · exact .inl ⟨⟨hle, .inr ⟨hf, hword⟩⟩, bind_eq_outOfBounds.mpr (.inl hout)⟩
      · refine .inr ⟨?_, .inr ⟨e, r, bind_of_error he⟩⟩
        rintro ⟨-, ⟨hbalance, -⟩ | ⟨hbalance, -⟩⟩
        · exact hf hbalance
        · exact hf hbalance

theorem ReadsWords.reads {f : StoredField} {read : Bytes → Decoder α} (h : ReadsWords f read) :
    Reads f (storedField read) := by
  constructor
  case strays =>
    intro s
    rcases h.outcomes s with ⟨hstray, hs⟩ | ⟨hstray, ⟨be, x, r, -, -, hs⟩ | ⟨e, r, hs⟩⟩
    · exact iff_of_true hs hstray
    · rw [hs]
      exact iff_of_false nofun hstray
    · rw [hs]
      exact iff_of_false nofun hstray
  case word =>
    intro s x r hok
    rcases h.outcomes s with ⟨-, hs⟩ | ⟨-, ⟨be, x', r', hword, heq, hs⟩ | ⟨e, r', hs⟩⟩
    · cases hs.symm.trans hok
    · cases hs.symm.trans hok
      exact ⟨be, hword, heq⟩
    · cases hs.symm.trans hok
  case reads =>
    intro be r hword
    by_cases hend : AtEnd f (be ++ r)
    · refine .inl ?_
      have hempty := List.append_eq_nil_iff.mp hend.2
      rw [hempty.1, hempty.2]
      change storedField read [0] = .outOfBounds
      have hzero : ¬([] : Bytes).length < UInt8.toNat 0 := Nat.lt_irrefl 0
      rw [storedField_cons, if_neg hzero]
      exact bind_eq_outOfBounds.mpr (.inl (h.atEnd _ [] ⟨hend.1, rfl⟩))
    · obtain ⟨x, hx⟩ := h.word be _ hword hend
      exact .inr ⟨x, storedField_lengthPrefixed hword.1.length_lt hx⟩
  case terminates =>
    intro s hdiverges
    rcases h.outcomes s with ⟨-, hs⟩ | ⟨-, ⟨be, x, r, -, -, hs⟩ | ⟨e, r, hs⟩⟩
    · cases hs.symm.trans hdiverges
    · cases hs.symm.trans hdiverges
    · cases hs.symm.trans hdiverges

theorem reads_uint64 {f : StoredField} (hf : f = .nonce ∨ f = .incarnation) :
    Reads f (storedField readStoredUint64) := by
  have hword {be : Bytes} : f.Word be ↔ be.length ≤ 8 ∧ be.head? ≠ some 0 := by
    rcases hf with rfl | rfl <;> simp [Word, Fits]
  apply ReadsWords.reads
  constructor
  · intro be s h _
    obtain ⟨hlen, hzero⟩ := hword.mp h
    refine ⟨BitVec.ofNat 64 (ofBigEndian be), ?_⟩
    rw [readStoredUint64, readUint64, readUint.eq_def, if_neg (Nat.not_lt.mpr hlen)]
    cases be with
    | nil => rfl
    | cons b be =>
      dsimp only
      rw [if_neg fun h => hzero (congrArg some h.1)]
      rfl
  · intro be s h
    rcases hf with rfl | rfl <;> cases h.1
  · intro be s h
    refine .inr ⟨?_, ?_⟩
    · rcases hf with rfl | rfl <;> simp
    · rw [readStoredUint64, readUint64, readUint.eq_def]
      split_ifs with hlen
      · exact ⟨_, rfl⟩
      · cases be with
        | nil => exact absurd (hword.mpr ⟨Nat.zero_le _, by simp⟩) h
        | cons b be =>
          have hzero : b = 0 := by
            by_contra hb
            refine h (hword.mpr ⟨Nat.not_lt.mp hlen, fun hhead => hb ?_⟩)
            exact Option.some.inj hhead
          rw [hzero]
          exact ⟨_, rfl⟩

theorem reads_balance : Reads .balance (storedField readStoredBalance) := by
  apply ReadsWords.reads
  constructor
  · intro be s h hend
    have hs : s ≠ [] := fun hs => hend ⟨rfl, hs⟩
    refine ⟨BitVec.ofNat 256 (ofBigEndian be), ?_⟩
    have hle : ¬32 < be.length := fun hlong => not_word_balance_iff.mpr hlong h
    rw [readStoredBalance, if_neg (not_or_intro hle hs)]
  · intro be s h
    rw [readStoredBalance, if_pos (.inr h.2)]
  · intro be s h
    refine .inl ⟨rfl, ?_⟩
    rw [readStoredBalance, if_pos (.inl (not_word_balance_iff.mp h))]

/-- The code hash comes last, and its bytes stay where they are. -/
theorem follows_codeHash : Follows [.codeHash] storedCodeHash := by
  have hcons (len : UInt8) (r : Bytes) : (∃ e, storedCodeHash (len :: r) = .error e r) ∨
      len.toNat = kHashLength ∧ kHashLength ≤ r.length ∧
        ∃ h, storedCodeHash (len :: r) = .ok h r := by
    rw [storedCodeHash, bind_of_ok (fieldLength_apply len r)]
    split_ifs with hlen
    · exact .inl ⟨_, rfl⟩
    · rw [bind_of_ok (remaining_apply r)]
      rw [not_not.mp hlen]
      split_ifs with hshort
      · exact .inl ⟨_, rfl⟩
      · exact .inr ⟨rfl, Nat.not_lt.mp hshort, _, copy_of_le (Nat.not_lt.mp hshort)⟩
  constructor
  case strays =>
    intro s
    cases s with
    | nil => exact ⟨fun _ => .inl (.inl rfl), fun _ => rfl⟩
    | cons len r =>
      refine iff_of_false ?_ ?_
      · rcases hcons len r with ⟨e, h⟩ | ⟨-, -, x, h⟩
        · rw [h]
          rintro ⟨⟩
        · rw [h]
          rintro ⟨⟩
      · rintro ((h | ⟨h, -⟩) | ⟨be, r, -, -, h⟩)
        · cases h
        · cases h
        · exact h
  case present =>
    intro s x r hs
    cases s with
    | nil => cases hs
    | cons len r' =>
      rcases hcons len r' with ⟨e, h⟩ | ⟨hlen, hle, -, -⟩
      · rw [h] at hs
        cases hs
      · rw [← hlen] at hle
        refine ⟨_, _, ?_, lengthPrefixed_take hle, trivial⟩
        rw [List.length_take_of_le hle]
        exact hlen
  case terminates =>
    intro s hs
    cases s with
    | nil => cases hs
    | cons len r =>
      rcases hcons len r with ⟨e, h⟩ | ⟨-, -, x, h⟩
      · rw [h] at hs
        cases hs
      · rw [h] at hs
        cases hs

theorem follows_pure (x : α) : Follows [] (pure x : Decoder α) := by
  constructor
  · intro s
    exact ⟨nofun, nofun⟩
  · intro s x r h
    trivial
  · intro s
    nofun

/-- A field that is there if its bit is set, and the fields after it. -/
theorem Follows.cons {bit : UInt8} {f : StoredField} {fs : List StoredField} {p : Decoder α}
    {d : α} {k : α → Decoder β} (hp : Reads f p) (hk : ∀ x, Follows fs (k x)) :
    Follows ((if bit ≠ 0 then [f] else []) ++ fs) (ifSet bit p d >>= k) := by
  by_cases hbit : bit ≠ 0
  · rw [if_pos hbit, ifSet, if_pos hbit]
    constructor
    case strays =>
      intro s
      rw [bind_eq_outOfBounds, hp.strays]
      constructor
      · rintro (h | ⟨x, r, h, hs⟩)
        · exact .inl h
        · obtain ⟨be, hword, rfl⟩ := hp.word s x r h
          exact .inr ⟨be, r, hword, rfl, ((hk x).strays r).mp hs⟩
      · rintro (h | ⟨be, r, hword, rfl, hs⟩)
        · exact .inl h
        · rcases hp.reads be r hword with hout | ⟨x, hx⟩
          · exact .inl ((hp.strays _).mp hout)
          · exact .inr ⟨x, r, hx, ((hk x).strays r).mpr hs⟩
    case present =>
      intro s y r hs
      obtain ⟨x, m, hx, hy⟩ := bind_eq_ok.mp hs
      obtain ⟨be, hword, rfl⟩ := hp.word s x m hx
      exact ⟨be, m, hword.1, rfl, (hk x).present m y r hy⟩
    case terminates =>
      intro s h
      rcases bind_eq_diverges.mp h with h | ⟨x, m, -, h⟩
      · exact hp.terminates s h
      · exact (hk x).terminates m h
  · rw [if_neg hbit, ifSet, if_neg hbit]
    exact hk d

theorem Follows.last {bit : UInt8} {f : StoredField} {p : Decoder α} {d : α} {g : α → β}
    (hp : Follows [f] p) :
    Follows (if bit ≠ 0 then [f] else []) (ifSet bit p d >>= fun x => pure (g x)) := by
  by_cases hbit : bit ≠ 0
  · rw [if_pos hbit, ifSet, if_pos hbit]
    constructor
    case strays =>
      intro s
      rw [bind_eq_outOfBounds, hp.strays, or_iff_left]
      rintro ⟨x, m, -, h⟩
      cases h
    case present =>
      intro s y r h
      obtain ⟨x, m, hx, -⟩ := bind_eq_ok.mp h
      exact hp.present s x m hx
    case terminates =>
      intro s h
      rcases bind_eq_diverges.mp h with h | ⟨x, m, -, h⟩
      · exact hp.terminates s h
      · cases h
  · rw [if_neg hbit, ifSet, if_neg hbit]
    exact follows_pure (g d)

theorem follows_decodeAccountFields (fields : UInt8) :
    Follows (announced fields) (decodeAccountFields fields) := by
  refine .cons (reads_uint64 (.inl rfl)) fun nonce => ?_
  refine .cons reads_balance fun balance => ?_
  refine .cons (reads_uint64 (.inr rfl)) fun incarnation => ?_
  exact .last follows_codeHash

end Decoders

section Accounts
open StoredField

/-- What the decoder of an account is meant to do with any string: it returns an account if all
fields that the first byte announces are there, and otherwise an error. -/
def DecodedSafely (encoded : Bytes) : Prop :=
  (∃ account r, decodeAccountFromStorage encoded = .ok account r ∧
      ∀ fields s, encoded = fields :: s → Present (announced fields) s) ∨
    ∃ e r, decodeAccountFromStorage encoded = .error e r

theorem decodeAccountFromStorage_cons (fields : UInt8) (s : Bytes) :
    decodeAccountFromStorage (fields :: s) = decodeAccountFields fields s := by
  rw [decodeAccountFromStorage, bind_of_ok (remaining_apply _), if_neg (by simp),
    bind_of_ok (peek_cons _ _), bind_of_ok (removePrefix_one_cons _ _)]

/-- The decoder is safe on a string unless one of the announced fields strays. -/
theorem decodeAccountFromStorage_safe (encoded : Bytes) :
    DecodedSafely encoded ↔
      ∀ fields s, encoded = fields :: s → ¬Strays (announced fields) s := by
  cases encoded with
  | nil => exact iff_of_true (.inl ⟨{}, [], rfl, nofun⟩) nofun
  | cons fields s =>
    have h := follows_decodeAccountFields fields
    rw [DecodedSafely, decodeAccountFromStorage_cons]
    constructor
    · intro hsafe fields' s' heq hstrays
      cases heq
      have hout := (h.strays s).mpr hstrays
      rcases hsafe with ⟨account, r, hok, -⟩ | ⟨e, r, herror⟩
      · rw [hout] at hok
        cases hok
      · rw [hout] at herror
        cases herror
    · intro hstrays
      cases hs : decodeAccountFields fields s with
      | ok account r =>
        refine .inl ⟨account, r, rfl, fun fields' s' heq => ?_⟩
        cases heq
        exact h.present s account r hs
      | error e r => exact .inr ⟨e, r, rfl⟩
      | outOfBounds => exact absurd ((h.strays s).mp hs) (hstrays fields s rfl)
      | diverges => exact absurd hs (h.terminates s)

/-- The string ends where the length of the nonce is due. -/
theorem not_decodeAccountFromStorage_safe :
    decodeAccountFromStorage [1] = .outOfBounds ∧ ¬DecodedSafely [1] := by
  have hout : decodeAccountFromStorage [1] = .outOfBounds := by decide
  refine ⟨hout, ?_⟩
  rintro (⟨account, r, h, -⟩ | ⟨e, r, h⟩)
  · rw [hout] at h
    cases h
  · rw [hout] at h
    cases h

/-- The balance has one byte more than it may have. -/
example : decodeAccountFromStorage ([2, 33] ++ List.replicate 33 0) = .outOfBounds := by decide

/-- A balance without bytes is harmless only if something follows it. -/
example : decodeAccountFromStorage [3, 0, 0] = .outOfBounds ∧
    decodeAccountFromStorage [6, 0, 1, 5] = .ok { incarnation := 5 } [] := by decide

end Accounts
end Silkworm
