import Silkworm.RlpCanonicalForms
import Silkworm.StateBuffers

/-!
# The storage format of accounts

A byte with one bit for each field that is not zero, followed by these fields with their
lengths. What is encoded is decoded again.
-/

namespace Silkworm
open BigEndian ViewParsers Rlp

section Encoding

/-- A field with its length in front of it. -/
def lengthPrefixed (be : Bytes) : Bytes := byte be.length :: be

def fieldSet (nonce balance incarnation codeHash : Bool) : UInt8 :=
  (if nonce then 1 else 0) ||| (if balance then 2 else 0) ||| (if incarnation then 4 else 0) |||
    (if codeHash then 8 else 0)

/-- A field that is there if its bit is set. -/
def optionalField (present : Bool) (be : Bytes) : Bytes := if present then lengthPrefixed be else []

namespace Account

variable (account : Account)

def encodeForStorage (omitCodeHash : Bool) : Bytes :=
  let hasCodeHash := account.codeHash ≠ kEmptyHash && !omitCodeHash
  fieldSet (account.nonce ≠ 0) (account.balance ≠ 0) (account.incarnation ≠ 0) hasCodeHash ::
    (optionalField (account.nonce ≠ 0) (bigEndian account.nonce.toNat) ++
      (optionalField (account.balance ≠ 0) (bigEndian account.balance.toNat) ++
        (optionalField (account.incarnation ≠ 0) (bigEndian account.incarnation.toNat) ++
          optionalField hasCodeHash account.codeHash.val)))

def encodingLengthForStorage : ℕ :=
  1 + (if account.nonce ≠ 0 then 1 + (bigEndian account.nonce.toNat).length else 0) +
    (if account.balance ≠ 0 then 1 + (bigEndian account.balance.toNat).length else 0) +
    (if account.incarnation ≠ 0 then 1 + (bigEndian account.incarnation.toNat).length else 0) +
    (if account.codeHash ≠ kEmptyHash then 1 + kHashLength else 0)

end Account

end Encoding

section Decoding

/-- `encoded[pos++]`, the length of a field. -/
def fieldLength : Decoder ℕ := do
  let len ← peek
  removePrefix 1
  pure len.toNat

/-- A field that is read from as many bytes as its length says. -/
def storedField {α : Type} (read : Bytes → Decoder α) : Decoder α := do
  let len ← fieldLength
  let n ← remaining
  if n < len then fail .kInputTooShort else
  let be ← substr len
  let x ← read be
  removePrefix len
  pure x

def readStoredUint64 (be : Bytes) : Decoder Uint64 := ofExcept (readUint64 be false)

/-- The bytes are copied to the end of a word of 32 bytes, from `&encoded[pos]`, a place that is
also looked up if there are none of them. -/
def readStoredBalance (be : Bytes) : Decoder Uint256 := fun s =>
  if 32 < be.length ∨ s = [] then .outOfBounds else .ok (BitVec.ofNat 256 (ofBigEndian be)) s

def storedCodeHash : Decoder Bytes32 := do
  let len ← fieldLength
  if len ≠ kHashLength then fail .kUnexpectedLength else
  let n ← remaining
  if n < len then fail .kInputTooShort else
  copy kHashLength

/-- A field that keeps its default if its bit is not set. -/
def ifSet {α : Type} (bit : UInt8) (p : Decoder α) (default : α) : Decoder α :=
  if bit ≠ 0 then p else pure default

def decodeAccountFields (fields : UInt8) : Decoder Account := do
  let nonce ← ifSet (fields &&& 1) (storedField readStoredUint64) 0
  let balance ← ifSet (fields &&& 2) (storedField readStoredBalance) 0
  let incarnation ← ifSet (fields &&& 4) (storedField readStoredUint64) 0
  let codeHash ← ifSet (fields &&& 8) storedCodeHash kEmptyHash
  pure { nonce, balance, codeHash, incarnation }

def decodeAccountFromStorage : Decoder Account := do
  let n ← remaining
  if n = 0 then pure {} else
  let fields ← peek
  removePrefix 1
  decodeAccountFields fields

end Decoding

section RoundTrip

theorem fieldSet_bits (nonce balance incarnation codeHash : Bool) :
    (fieldSet nonce balance incarnation codeHash &&& 1 ≠ 0 ↔ nonce = true) ∧
    (fieldSet nonce balance incarnation codeHash &&& 2 ≠ 0 ↔ balance = true) ∧
    (fieldSet nonce balance incarnation codeHash &&& 4 ≠ 0 ↔ incarnation = true) ∧
    (fieldSet nonce balance incarnation codeHash &&& 8 ≠ 0 ↔ codeHash = true) := by
  cases nonce <;> cases balance <;> cases incarnation <;> cases codeHash <;> decide

theorem fieldLength_lengthPrefixed {be : Bytes} (h : be.length < 256) (r : Bytes) :
    fieldLength (lengthPrefixed be ++ r) = .ok be.length (be ++ r) := by
  rw [fieldLength, lengthPrefixed, List.cons_append, bind_of_ok (peek_cons _ _),
    bind_of_ok (removePrefix_one_cons _ _), pure_apply, byte, BigEndian.toNat_ofNat h]

theorem storedField_lengthPrefixed {α : Type} {read : Bytes → Decoder α} {be : Bytes} {x : α}
    (h : be.length < 256) {r : Bytes} (hread : read be (be ++ r) = .ok x (be ++ r)) :
    storedField read (lengthPrefixed be ++ r) = .ok x r := by
  have hlen : ¬(be ++ r).length < be.length := by
    rw [List.length_append]
    omega
  rw [storedField, bind_of_ok (fieldLength_lengthPrefixed h r),
    bind_of_ok (remaining_apply _), if_neg hlen, bind_of_ok (substr_apply _ _),
    List.take_left' rfl, bind_of_ok hread, bind_of_ok (removePrefix_of_le (Nat.not_lt.mp hlen)),
    List.drop_left' rfl, pure_apply]

theorem length_bigEndian_lt {w : ℕ} (hw : w ≤ 256) (n : BitVec w) :
    (bigEndian n.toNat).length < 256 := by
  have h : (bigEndian n.toNat).length ≤ 32 := by
    apply length_bigEndian_le.mpr
    calc n.toNat < 2 ^ w := n.isLt
      _ ≤ 2 ^ 256 := Nat.pow_le_pow_right (by norm_num) hw
      _ = 256 ^ 32 := by norm_num
  omega

theorem readStoredUint64_bigEndian (n : Uint64) (s : Bytes) :
    readStoredUint64 (bigEndian n.toNat) s = .ok n s := by
  rw [readStoredUint64, readUint64, (readUint_eq_ok (by norm_num)).mpr rfl]
  rfl

theorem readStoredBalance_bigEndian (n : Uint256) {s : Bytes} (hs : s ≠ []) :
    readStoredBalance (bigEndian n.toNat) s = .ok n s := by
  have hlen : ¬32 < (bigEndian n.toNat).length :=
    Nat.not_lt.mpr (length_bigEndian_le.mpr (n.isLt.trans_eq (by norm_num)))
  rw [readStoredBalance, if_neg (not_or_intro hlen hs), ofBigEndian_bigEndian, BitVec.ofNat_toNat,
    BitVec.setWidth_eq]

/-- A field that is left out has its default. -/
theorem ifSet_optionalField {α : Type} {bit : UInt8} {p : Decoder α} {present : Bool} {be : Bytes}
    {x d : α} (hbit : bit ≠ 0 ↔ present = true)
    (hp : present = true → ∀ r, p (lengthPrefixed be ++ r) = .ok x r)
    (hd : present = false → d = x) (r : Bytes) :
    ifSet bit p d (optionalField present be ++ r) = .ok x r := by
  cases present with
  | true =>
    rw [ifSet, if_pos (hbit.mpr rfl)]
    exact hp rfl r
  | false =>
    rw [ifSet, if_neg fun h => Bool.false_ne_true (hbit.mp h), hd rfl]
    rfl

theorem storedCodeHash_lengthPrefixed (h : Bytes32) :
    storedCodeHash (lengthPrefixed h.val) = .ok h h.val := by
  have hlen : h.val.length = kHashLength := h.property
  have hfield : fieldLength (lengthPrefixed h.val ++ []) = .ok h.val.length (h.val ++ []) :=
    fieldLength_lengthPrefixed (by rw [hlen]; norm_num) []
  rw [List.append_nil, List.append_nil, hlen] at hfield
  rw [storedCodeHash, bind_of_ok hfield, if_neg (not_not.mpr rfl), bind_of_ok (remaining_apply _),
    if_neg (by rw [hlen]; exact lt_irrefl _), copy_of_le hlen.ge]
  congr
  exact List.take_of_length_le hlen.le

private theorem zero_of_absent {w : ℕ} {n : BitVec w} (h : decide (n ≠ 0) = false) : 0 = n :=
  (not_not.mp (of_decide_eq_false h)).symm

/-- A number that is stored has at least one byte. -/
private theorem append_ne_nil_of_present {w : ℕ} {n : BitVec w} (h : decide (n ≠ 0) = true)
    (r : Bytes) : bigEndian n.toNat ++ r ≠ [] := by
  have hn : n.toNat ≠ 0 := fun hz => of_decide_eq_true h (BitVec.eq_of_toNat_eq (by simpa using hz))
  simp [bigEndian_ne_nil hn]

theorem ifSet_codeHash {bit : UInt8} {codeHash : Bytes32} {omitCodeHash : Bool}
    (hbit : bit ≠ 0 ↔ (codeHash ≠ kEmptyHash && !omitCodeHash) = true) :
    ∃ r, ifSet bit storedCodeHash kEmptyHash
        (optionalField (codeHash ≠ kEmptyHash && !omitCodeHash) codeHash.val) =
      .ok (if omitCodeHash then kEmptyHash else codeHash) r := by
  by_cases hset : (codeHash ≠ kEmptyHash && !omitCodeHash) = true
  · rw [ifSet, if_pos (hbit.mpr hset), hset]
    simp only [ne_eq, Bool.and_eq_true, Bool.not_eq_true'] at hset
    rw [hset.2]
    exact ⟨_, storedCodeHash_lengthPrefixed codeHash⟩
  · rw [ifSet, if_neg fun h => hset (hbit.mp h), Bool.eq_false_iff.mpr hset]
    have hdefault : (if omitCodeHash = true then kEmptyHash else codeHash) = kEmptyHash := by
      cases omitCodeHash with
      | true => rfl
      | false => simpa using hset
    rw [hdefault]
    exact ⟨_, rfl⟩

/-- What is stored of an account is decoded again. -/
theorem decodeAccountFromStorage_encodeForStorage (account : Account) (omitCodeHash : Bool) :
    ∃ r, decodeAccountFromStorage (account.encodeForStorage omitCodeHash) =
      .ok { account with codeHash := if omitCodeHash then kEmptyHash else account.codeHash } r := by
  obtain ⟨nonce, balance, codeHash, incarnation⟩ := account
  obtain ⟨hnonce, hbalance, hincarnation, hcodeHash⟩ := fieldSet_bits (nonce ≠ 0) (balance ≠ 0)
    (incarnation ≠ 0) (codeHash ≠ kEmptyHash && !omitCodeHash)
  obtain ⟨r, hcode⟩ := ifSet_codeHash hcodeHash
  have hread_nonce := ifSet_optionalField (d := 0) hnonce
    (fun _ r => storedField_lengthPrefixed (length_bigEndian_lt (by norm_num) nonce)
      (readStoredUint64_bigEndian nonce _)) zero_of_absent
  have hread_balance := ifSet_optionalField (d := 0) hbalance
    (fun hset r => storedField_lengthPrefixed (length_bigEndian_lt (by norm_num) balance)
      (readStoredBalance_bigEndian balance (append_ne_nil_of_present hset r))) zero_of_absent
  have hread_incarnation := ifSet_optionalField (d := 0) hincarnation
    (fun _ r => storedField_lengthPrefixed (length_bigEndian_lt (by norm_num) incarnation)
      (readStoredUint64_bigEndian incarnation _)) zero_of_absent
  refine ⟨r, ?_⟩
  rw [decodeAccountFromStorage, Account.encodeForStorage]
  dsimp only
  rw [bind_of_ok (remaining_apply _), if_neg (by simp), bind_of_ok (peek_cons _ _),
    bind_of_ok (removePrefix_one_cons _ _), decodeAccountFields, bind_of_ok (hread_nonce _),
    bind_of_ok (hread_balance _), bind_of_ok (hread_incarnation _), bind_of_ok hcode, pure_apply]

theorem length_optionalField (present : Bool) (be : Bytes) :
    (optionalField present be).length = if present then 1 + be.length else 0 := by
  cases present with
  | true => simp [optionalField, lengthPrefixed, Nat.add_comm]
  | false => rfl

theorem length_encodeForStorage (account : Account) :
    (account.encodeForStorage false).length = account.encodingLengthForStorage := by
  have hhash : account.codeHash.val.length = kHashLength := account.codeHash.property
  simp only [Account.encodeForStorage, Account.encodingLengthForStorage, List.length_cons,
    List.length_append, length_optionalField, hhash, Bool.not_false, Bool.and_true,
    decide_eq_true_eq]
  omega

/-- With its code hash an account is read back as it was, and no two accounts are stored alike. -/
theorem encodeForStorage_faithful :
    (∀ account : Account,
      (∃ r, decodeAccountFromStorage (account.encodeForStorage false) = .ok account r) ∧
      (account.encodeForStorage false).length = account.encodingLengthForStorage ∧
      ∃ r, decodeAccountFromStorage (account.encodeForStorage true) =
        .ok { account with codeHash := kEmptyHash } r) ∧
    Function.Injective fun account : Account => account.encodeForStorage false := by
  constructor
  · intro account
    exact ⟨decodeAccountFromStorage_encodeForStorage account false,
      length_encodeForStorage account, decodeAccountFromStorage_encodeForStorage account true⟩
  · intro a b hab
    obtain ⟨r, ha⟩ := decodeAccountFromStorage_encodeForStorage a false
    obtain ⟨s, hb⟩ := decodeAccountFromStorage_encodeForStorage b false
    have hab : a.encodeForStorage false = b.encodeForStorage false := hab
    rw [hab, hb, Outcome.ok.injEq] at ha
    exact ha.1.symm

end RoundTrip

end Silkworm
