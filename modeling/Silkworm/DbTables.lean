import Silkworm.AccountCodec
import Silkworm.SortedTables

/-!
# The tables of the state

The tables into which a buffer is flushed, their keys, and the reads from them. A read is
undefined where a stored value does not have the format that its reader expects.
-/

namespace Silkworm.Db
open BigEndian SortedTables

structure Tables where
  /-- Accounts under addresses, and slots under an address with an incarnation. -/
  plainState : Table := {}
  incarnationMap : PlainTable := {}
  code : PlainTable := {}
  plainContractCode : PlainTable := {}
  plainAccountChangeSet : Table := {}
  plainStorageChangeSet : Table := {}
  blockReceipts : PlainTable := {}
  logs : PlainTable := {}
  deriving DecidableEq

section Keys

abbrev kIncarnationLength : ℕ := 8

abbrev kStoragePrefixLength : ℕ := kAddressLength + kIncarnationLength

/-- `boost::endian::store_big_u64`. -/
def bigU64 (n : Uint64) : Bytes := fixedBigEndian 8 n.toNat

def storagePrefix (address : Bytes) (incarnation : Uint64) : Bytes := address ++ bigU64 incarnation

def blockKey (blockNumber : Uint64) : Bytes := bigU64 blockNumber

def storageChangeKey (blockNumber : Uint64) (address : Address) (incarnation : Uint64) : Bytes :=
  bigU64 blockNumber ++ storagePrefix address.val incarnation

def logKey (blockNumber : Uint64) (transactionId : BitVec 32) : Bytes :=
  bigU64 blockNumber ++ fixedBigEndian 4 transactionId.toNat

@[simp] theorem length_bigU64 (n : Uint64) : (bigU64 n).length = 8 :=
  length_fixedBigEndian (n.isLt.trans_eq (by norm_num))

theorem bigU64_injective {m n : Uint64} (h : bigU64 m = bigU64 n) : m = n := by
  have := congrArg ofBigEndian h
  simp only [bigU64, ofBigEndian_fixedBigEndian] at this
  exact BitVec.eq_of_toNat_eq this

theorem bigU64_lt_iff {m n : Uint64} : bigU64 m < bigU64 n ↔ m.toNat < n.toNat := by
  rw [lt_iff_ofBigEndian_lt (by rw [length_bigU64, length_bigU64]), bigU64, bigU64,
    ofBigEndian_fixedBigEndian, ofBigEndian_fixedBigEndian]

theorem length_storagePrefix (a : Address) (incarnation : Uint64) :
    (storagePrefix a.val incarnation).length = kStoragePrefixLength := by
  rw [storagePrefix, List.length_append, a.property, length_bigU64]

theorem storagePrefix_injective {a a' : Address} {i i' : Uint64}
    (h : storagePrefix a.val i = storagePrefix a'.val i') : a = a' ∧ i = i' := by
  obtain ⟨ha, hi⟩ := List.append_inj h (a.property.trans a'.property.symm)
  exact ⟨Subtype.ext ha, bigU64_injective hi⟩

theorem address_ne_storagePrefix (a a' : Address) (i : Uint64) : a.val ≠ storagePrefix a'.val i := by
  intro h
  have := congrArg List.length h
  rw [a.property, length_storagePrefix] at this
  exact absurd this (by decide)

end Keys

/-- What is copied to the end of a word leaves zeros in front. -/
theorem length_word {value : Bytes} (h : value.length ≤ kHashLength) :
    (List.replicate (kHashLength - value.length) 0 ++ value).length = kHashLength := by
  rw [List.length_append, List.length_replicate]
  omega

section Readers

variable (tables : Tables)

/-- The code hash is not stored with the account of every version of the format. -/
def restoreCodeHash (a : Address) (account : Account) : Account :=
  if account.incarnation ≠ 0 ∧ account.codeHash = kEmptyHash then
    match tables.plainContractCode.get (storagePrefix a.val account.incarnation) with
    | some hash =>
      if h : hash.length = kHashLength then { account with codeHash := ⟨hash, h⟩ } else account
    | none => account
  else account

def readAccount (a : Address) : Option (Option Account) :=
  match tables.plainState.get a.val with
  | none => some none
  | some [] => some none
  | some (b :: encoded) =>
    match decodeAccountFromStorage (b :: encoded) with
    | .ok account _ => some (some (restoreCodeHash tables a account))
    | _ => none

/-- The value is copied to the end of a word. -/
def readStorage (a : Address) (incarnation : Uint64) (location : Bytes32) : Option Bytes32 :=
  match tables.plainState.getSuffix (storagePrefix a.val incarnation) location.val with
  | none => some default
  | some value =>
    if h : value.length ≤ kHashLength then
      some ⟨List.replicate (kHashLength - value.length) 0 ++ value, length_word h⟩
    else none

def readCode (codeHash : Bytes32) : Option Bytes := tables.code.get codeHash.val

def readPreviousIncarnation (a : Address) : Option (Option Uint64) :=
  match tables.incarnationMap.get a.val with
  | none => some none
  | some value =>
    if value.length = 8 then some (some (BitVec.ofNat 64 (ofBigEndian value))) else none

end Readers

end Silkworm.Db
