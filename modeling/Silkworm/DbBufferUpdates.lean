import Silkworm.DbBuffer
import Silkworm.StateChanges

/-!
# Updates of the buffer in front of the database

What the readers return after an update that reports the value they returned before it.
-/

namespace Silkworm.Db.Buffer

variable (b : Buffer)

section Fields

/-- The maps behind the readers. -/
structure Maps where
  txn : Option Tables
  accounts : HashMap Address (Option Account)
  storage : StorageMap
  incarnations : HashMap Address Uint64
  hashToCode : HashMap Bytes32 Bytes
  storagePrefixToCodeHash : HashMap Bytes Bytes32

def maps : Maps :=
  ⟨b.txn, b.accounts, b.storage, b.incarnations, b.hashToCode, b.storagePrefixToCodeHash⟩

@[simp] theorem maps_bumpBatchSize (inserted : Bool) (keyLen valueLen : ℕ) :
    (b.bumpBatchSize inserted keyLen valueLen).maps = b.maps := by
  rw [bumpBatchSize]
  split_ifs <;> rfl

@[simp] theorem maps_beginBlock (n : Uint64) : (b.beginBlock n).maps = b.maps := rfl

theorem maps_recordAccount (a : Address) (bytes : Bytes) :
    (b.recordAccount a bytes).maps = b.maps := maps_bumpBatchSize ..

theorem maps_recordStorage (a : Address) (i : Uint64) (location : Bytes32) (bytes : Bytes) :
    (b.recordStorage a i location bytes).maps = b.maps := maps_bumpBatchSize ..

theorem maps_setAccount (a : Address) (current : Option Account) :
    (b.setAccount a current).maps = { b.maps with accounts := b.maps.accounts.set a current } :=
  maps_bumpBatchSize ..

theorem maps_setIncarnation (a : Address) (i : Uint64) :
    (b.setIncarnation a i).maps = { b.maps with incarnations := b.maps.incarnations.set a i } :=
  maps_bumpBatchSize ..

theorem maps_setStorage (a : Address) (i : Uint64) (location current : Bytes32) :
    (b.setStorage a i location current).maps =
      { b.maps with storage := b.maps.storage.set a i location current } := maps_bumpBatchSize ..

theorem maps_updateAccountCode (a : Address) (i : Uint64) (codeHash : Bytes32) (code : Bytes) :
    (b.updateAccountCode a i codeHash code).maps =
      { b.maps with
        hashToCode := b.maps.hashToCode.set codeHash code
        storagePrefixToCodeHash :=
          b.maps.storagePrefixToCodeHash.set (storagePrefix a.val i) codeHash } := by
  rw [updateAccountCode, maps_bumpBatchSize]
  have h := maps_bumpBatchSize { b with hashToCode := b.hashToCode.set codeHash code }
    (b.hashToCode.find codeHash).isNone kHashLength code.length
  simp only [maps, Maps.mk.injEq] at h ⊢
  obtain ⟨h1, h2, h3, h4, h5, h6⟩ := h
  exact ⟨h1, h2, h3, h4, h5, congrArg (fun m => HashMap.set m _ codeHash) h6⟩

theorem maps_updateStorage (a : Address) (i : Uint64) (location initial current : Bytes32) :
    (b.updateStorage a i location initial current).maps =
      if current = initial then b.maps
      else { b.maps with storage := b.maps.storage.set a i location current } := by
  rw [updateStorage]
  split_ifs
  · rfl
  · rw [maps_setStorage, maps_recordStorage]
    rfl

/-- The account of a contract leaves its incarnation behind when it is deleted. -/
def deletedIncarnation (initial current : Option Account) : Option Uint64 :=
  match current, initial with
  | none, some account => if account.incarnation ≠ 0 then some account.incarnation else none
  | _, _ => none

theorem maps_updateAccount (a : Address) (initial current : Option Account) :
    (b.updateAccount a initial current).maps =
      { b.maps with
        accounts := if current = initial then b.maps.accounts else b.maps.accounts.set a current
        incarnations := match deletedIncarnation initial current with
          | some i => b.maps.incarnations.set a i
          | none => b.maps.incarnations } := by
  by_cases heq : current = initial
  · have hnone : deletedIncarnation initial current = none := by
      subst heq
      cases current <;> rfl
    rw [if_pos heq, hnone, updateAccount]
    split_ifs
    · rfl
    · exact b.maps_recordAccount a _
  · rw [if_neg heq, updateAccount, if_neg fun h => heq h.1]
    dsimp only
    rw [if_neg heq]
    cases current with
    | some account =>
      dsimp only [deletedIncarnation]
      rw [maps_setAccount, maps_recordAccount]
    | none =>
      cases initial with
      | none => exact absurd rfl heq
      | some account =>
        dsimp only [deletedIncarnation]
        split_ifs
        · dsimp only
          rw [maps_setIncarnation, maps_setAccount, maps_recordAccount]
        · dsimp only
          rw [maps_setAccount, maps_recordAccount]

end Fields

section Readers

theorem readAccount_eq (a : Address) :
    b.readAccount a = match b.maps.accounts.find a, b.maps.txn with
      | some account, _ => some account
      | none, none => some none
      | none, some tables => Db.readAccount tables a := rfl

theorem readStorage_eq (a : Address) (i : Uint64) (location : Bytes32) :
    b.readStorage a i location = match b.maps.storage.find a i location, b.maps.txn with
      | some value, _ => some value
      | none, none => some default
      | none, some tables => Db.readStorage tables a i location := rfl

theorem readCode_eq (codeHash : Bytes32) :
    b.readCode codeHash = match b.maps.hashToCode.find codeHash, b.maps.txn with
      | some code, _ => code
      | none, none => []
      | none, some tables => (Db.readCode tables codeHash).getD [] := rfl

theorem previousIncarnation_eq (a : Address) :
    b.previousIncarnation a = match b.maps.incarnations.find a, b.maps.txn with
      | some incarnation, _ => some incarnation
      | none, none => some 0
      | none, some tables => (Db.readPreviousIncarnation tables a).map fun x => x.getD 0 := rfl

variable {b} in
theorem readAccount_updateAccount {a : Address} {initial : Option Account}
    (h : b.readAccount a = some initial) (current : Option Account) (a' : Address) :
    (b.updateAccount a initial current).readAccount a' =
      if a' = a then some current else b.readAccount a' := by
  rw [readAccount_eq, maps_updateAccount]
  by_cases heq : current = initial
  · rw [if_pos heq]
    split_ifs with ha
    · rw [ha, heq]
      exact h
    · rfl
  · rw [if_neg heq, HashMap.find_set]
    split_ifs with ha <;> rfl

theorem readStorage_updateAccount (a : Address) (initial current : Option Account) :
    (b.updateAccount a initial current).readStorage = b.readStorage := by
  funext a' i location
  rw [readStorage_eq, maps_updateAccount]
  rfl

theorem readCode_updateAccount (a : Address) (initial current : Option Account) :
    (b.updateAccount a initial current).readCode = b.readCode := by
  funext codeHash
  rw [readCode_eq, maps_updateAccount]
  rfl

theorem previousIncarnation_updateAccount (a : Address) (initial current : Option Account)
    (a' : Address) :
    (b.updateAccount a initial current).previousIncarnation a' =
      match (if a' = a then deletedIncarnation initial current else none) with
      | some i => some i
      | none => b.previousIncarnation a' := by
  rw [previousIncarnation_eq, maps_updateAccount]
  cases deletedIncarnation initial current with
  | none =>
    rw [ite_self]
    rfl
  | some i =>
    dsimp only
    rw [HashMap.find_set]
    split_ifs with ha <;> rfl

variable {b} in
theorem readStorage_updateStorage {a : Address} {i : Uint64} {location initial : Bytes32}
    (h : b.readStorage a i location = some initial) (current : Bytes32) (a' : Address) (i' : Uint64)
    (location' : Bytes32) :
    (b.updateStorage a i location initial current).readStorage a' i' location' =
      if (a', i', location') = (a, i, location) then some current
      else b.readStorage a' i' location' := by
  rw [readStorage_eq, maps_updateStorage]
  by_cases heq : current = initial
  · rw [if_pos heq]
    split_ifs with hk
    · cases hk
      rw [heq]
      exact h
    · rfl
  · rw [if_neg heq]
    dsimp only
    rw [StorageMap.find_set]
    split_ifs with hk <;> rfl

theorem readAccount_updateStorage (a : Address) (i : Uint64) (location initial current : Bytes32) :
    (b.updateStorage a i location initial current).readAccount = b.readAccount := by
  funext a'
  rw [readAccount_eq, maps_updateStorage]
  split_ifs <;> rfl

theorem readCode_updateStorage (a : Address) (i : Uint64) (location initial current : Bytes32) :
    (b.updateStorage a i location initial current).readCode = b.readCode := by
  funext codeHash
  rw [readCode_eq, maps_updateStorage]
  split_ifs <;> rfl

theorem previousIncarnation_updateStorage (a : Address) (i : Uint64)
    (location initial current : Bytes32) :
    (b.updateStorage a i location initial current).previousIncarnation = b.previousIncarnation := by
  funext a'
  rw [previousIncarnation_eq, maps_updateStorage]
  split_ifs <;> rfl

theorem readCode_updateAccountCode (a : Address) (i : Uint64) (codeHash : Bytes32) (code : Bytes)
    (codeHash' : Bytes32) :
    (b.updateAccountCode a i codeHash code).readCode codeHash' =
      if codeHash' = codeHash then code else b.readCode codeHash' := by
  rw [readCode_eq, maps_updateAccountCode]
  dsimp only
  rw [HashMap.find_set]
  split_ifs <;> rfl

theorem readAccount_updateAccountCode (a : Address) (i : Uint64) (codeHash : Bytes32)
    (code : Bytes) : (b.updateAccountCode a i codeHash code).readAccount = b.readAccount := by
  funext a'
  rw [readAccount_eq, maps_updateAccountCode]
  rfl

theorem readStorage_updateAccountCode (a : Address) (i : Uint64) (codeHash : Bytes32)
    (code : Bytes) : (b.updateAccountCode a i codeHash code).readStorage = b.readStorage := by
  funext a' i' location
  rw [readStorage_eq, maps_updateAccountCode]
  rfl

theorem previousIncarnation_updateAccountCode (a : Address) (i : Uint64) (codeHash : Bytes32)
    (code : Bytes) :
    (b.updateAccountCode a i codeHash code).previousIncarnation = b.previousIncarnation := by
  funext a'
  rw [previousIncarnation_eq, maps_updateAccountCode]
  rfl

end Readers

end Silkworm.Db.Buffer
