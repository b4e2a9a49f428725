import Silkworm.DbTables
import Silkworm.MemoryBuffer

/-!
# The buffer in front of the database

Changes of the state are collected in maps, in which deleted accounts and zeros stay as
entries of their own, until they are flushed into the tables. Without a transaction there is
nothing behind the maps.
-/

namespace Silkworm.Db
open SortedTables

structure Buffer where
  txn : Option Tables := none
  accounts : HashMap Address (Option Account) := ∅
  storage : StorageMap := ∅
  accountChanges : HashMap Uint64 (HashMap Address Bytes) := ∅
  storageChanges :
    HashMap Uint64 (HashMap Address (HashMap Uint64 (HashMap Bytes32 Bytes))) := ∅
  incarnations : HashMap Address Uint64 := ∅
  hashToCode : HashMap Bytes32 Bytes := ∅
  storagePrefixToCodeHash : HashMap Bytes Bytes32 := ∅
  receipts : HashMap Bytes Bytes := ∅
  logs : HashMap Bytes Bytes := ∅
  batchSize : Uint64 := 0
  blockNumber : Uint64 := 0
  changedStorage : HashSet Address := ∅

namespace Buffer

section Updates

variable (b : Buffer)

/-- Account for an entry if it was not there before. -/
def bumpBatchSize (inserted : Bool) (keyLen valueLen : ℕ) : Buffer :=
  if inserted then { b with batchSize := b.batchSize + BitVec.ofNat 64 (8 + keyLen + valueLen) }
  else b

def beginBlock (blockNumber : Uint64) : Buffer := { b with blockNumber, changedStorage := ∅ }

/-- The value of an account at the beginning of the block. -/
def recordAccount (a : Address) (encodedInitial : Bytes) : Buffer :=
  let changes := b.accountChanges.findD b.blockNumber ∅
  bumpBatchSize
    { b with accountChanges := b.accountChanges.set b.blockNumber (changes.set a encodedInitial) }
    (changes.find a).isNone 8 (kAddressLength + encodedInitial.length)

def setAccount (a : Address) (current : Option Account) : Buffer :=
  bumpBatchSize { b with accounts := b.accounts.set a current } (b.accounts.find a).isNone
    kAddressLength ((current.map Account.encodingLengthForStorage).getD 0)

def setIncarnation (a : Address) (incarnation : Uint64) : Buffer :=
  bumpBatchSize { b with incarnations := b.incarnations.set a incarnation }
    (b.incarnations.find a).isNone kAddressLength kIncarnationLength

def updateAccount (a : Address) (initial current : Option Account) : Buffer :=
  if current = initial ∧ current ≠ none ∧ b.changedStorage.contains a = false then b
  else
    let encodedInitial := (initial.map fun account => account.encodeForStorage current.isSome).getD []
    let b := b.recordAccount a encodedInitial
    if current = initial then b
    else
      let b := b.setAccount a current
      match current, initial with
      | none, some account =>
        if account.incarnation ≠ 0 then b.setIncarnation a account.incarnation else b
      | _, _ => b

def updateAccountCode (a : Address) (incarnation : Uint64) (codeHash : Bytes32) (code : Bytes) :
    Buffer :=
  let key := storagePrefix a.val incarnation
  let b := bumpBatchSize { b with hashToCode := b.hashToCode.set codeHash code }
    (b.hashToCode.find codeHash).isNone kHashLength code.length
  bumpBatchSize
    { b with storagePrefixToCodeHash := b.storagePrefixToCodeHash.set key codeHash }
    (b.storagePrefixToCodeHash.find key).isNone kStoragePrefixLength kHashLength

/-- The value of a slot at the beginning of the block. -/
def recordStorage (a : Address) (incarnation : Uint64) (location : Bytes32) (changeVal : Bytes) :
    Buffer :=
  let changes := b.storageChanges.findD b.blockNumber ∅
  let contract := changes.findD a ∅
  let slots := contract.findD incarnation ∅
  bumpBatchSize
    { b with
      storageChanges := b.storageChanges.set b.blockNumber
        (changes.set a (contract.set incarnation (slots.set location changeVal))) }
    (slots.find location).isNone (8 + kStoragePrefixLength) (kHashLength + changeVal.length)

def setStorage (a : Address) (incarnation : Uint64) (location current : Bytes32) : Buffer :=
  bumpBatchSize { b with storage := b.storage.set a incarnation location current }
    (b.storage.find a incarnation location).isNone kStoragePrefixLength
    (kHashLength + (MemoryBuffer.zerolessView current).length)

def updateStorage (a : Address) (incarnation : Uint64) (location initial current : Bytes32) :
    Buffer :=
  if current = initial then b
  else
    let b := { b with changedStorage := b.changedStorage.insert a }
    let b := b.recordStorage a incarnation location (MemoryBuffer.zerolessView initial)
    b.setStorage a incarnation location current

end Updates

section Readers

variable (b : Buffer)

def readAccount (a : Address) : Option (Option Account) :=
  match b.accounts.find a, b.txn with
  | some account, _ => some account
  | none, none => some none
  | none, some tables => Db.readAccount tables a

def readCode (codeHash : Bytes32) : Bytes :=
  match b.hashToCode.find codeHash, b.txn with
  | some code, _ => code
  | none, none => []
  | none, some tables => (Db.readCode tables codeHash).getD []

def readStorage (a : Address) (incarnation : Uint64) (location : Bytes32) : Option Bytes32 :=
  match b.storage.find a incarnation location, b.txn with
  | some value, _ => some value
  | none, none => some default
  | none, some tables => Db.readStorage tables a incarnation location

def previousIncarnation (a : Address) : Option Uint64 :=
  match b.incarnations.find a, b.txn with
  | some incarnation, _ => some incarnation
  | none, none => some 0
  | none, some tables => (Db.readPreviousIncarnation tables a).map fun x => x.getD 0

end Readers

/-- A read that is undefined ends the process; the interface has no value for it. -/
instance : StateBuffer Buffer where
  readAccount b a := (b.readAccount a).getD none
  readCode := readCode
  readStorage b a incarnation location := (b.readStorage a incarnation location).getD default
  previousIncarnation b a := (b.previousIncarnation a).getD 0
  beginBlock blockNumber b := b.beginBlock blockNumber
  updateAccount a initial current b := b.updateAccount a initial current
  updateAccountCode a incarnation codeHash code b := b.updateAccountCode a incarnation codeHash code
  updateStorage a incarnation location initial current b :=
    b.updateStorage a incarnation location initial current

section Roots

open Rlp Trie

variable (keccak : Bytes → Bytes32)

def accountStorageRoot (a : Address) (incarnation : Uint64) (b : Buffer) : Option Bytes32 :=
  let storage := b.storage.locations a incarnation
  if storage.toList = [] then some kEmptyRoot
  else MemoryBuffer.orderedRoot keccak (storage.toList.foldl (fun m e =>
    m.set (keccak e.1.val) (encodeBytes (MemoryBuffer.zerolessView e.2))) ∅)

def stateRootHash (b : Buffer) : Option Bytes32 := do
  if b.accounts.toList = [] then some kEmptyRoot
  else
    let m ← b.accounts.toList.foldlM (fun (m : HashMap Bytes32 Bytes) e =>
      match e.2 with
      | none => some m
      | some account => do
        let storageRoot ← accountStorageRoot keccak e.1 account.incarnation b
        some (m.set (keccak e.1.val) (account.rlp storageRoot))) ∅
    MemoryBuffer.orderedRoot keccak m

end Roots

section Flush

variable (b : Buffer)

/-- The keys of a map in their order. -/
def sortedKeys {n : ℕ} {V : Type} (m : HashMap (FixedBytes n) V) : List (FixedBytes n) :=
  (m.toList.map Prod.fst).mergeSort fun x y => !decide (y.val < x.val)

def upsertStorageValue (stateTable : Table) (key : Bytes) (location value : Bytes32) : Table :=
  let stateTable := stateTable.delSuffix key location.val
  if isZero value then stateTable
  else stateTable.putDup key (location.val ++ MemoryBuffer.zerolessView value)

def writeAccount (a : Address) (stateTable : Table) : Table :=
  match b.accounts.find a with
  | none => stateTable
  | some none => stateTable.del a.val
  | some (some account) => (stateTable.del a.val).putDup a.val (account.encodeForStorage false)

/-- The slots of a contract in the order of their locations. -/
def writeContract (a : Address) (incarnation : Uint64) (slots : HashMap Bytes32 Bytes32)
    (stateTable : Table) : Table :=
  (sortedKeys slots).foldl (fun t location =>
    upsertStorageValue t (storagePrefix a.val incarnation) location (slots.findD location default))
    stateTable

/-- The contracts at an address in the order of their incarnations. -/
def writeContracts (a : Address) (stateTable : Table) : Table :=
  let contracts := (b.storage.findD a ∅).toList.mergeSort fun x y => x.1.toNat ≤ y.1.toNat
  contracts.foldl (fun t contract => writeContract a contract.1 contract.2 t) stateTable

/-- The addresses with an account or with storage in their order. -/
def changedAddresses : List Address :=
  sortedKeys ((HashMap.toList b.storage).foldl (fun m e => m.set e.1 ())
    (b.accounts.toList.foldl (fun m e => m.set e.1 ()) (∅ : HashSet Address)))

def writeToStateTable (stateTable : Table) : Table :=
  b.changedAddresses.foldl (fun t a => b.writeContracts a (b.writeAccount a t)) stateTable

/-- `write_to_db` on the tables. -/
def flush (tables : Tables) : Tables where
  plainState := b.writeToStateTable tables.plainState
  incarnationMap := b.incarnations.toList.foldl (fun t e => t.put e.1.val (bigU64 e.2))
    tables.incarnationMap
  code := b.hashToCode.toList.foldl (fun t e => t.put e.1.val e.2) tables.code
  plainContractCode := b.storagePrefixToCodeHash.toList.foldl (fun t e => t.put e.1 e.2.val)
    tables.plainContractCode
  plainAccountChangeSet := b.accountChanges.toList.foldl (fun t block =>
    block.2.toList.foldl (fun t e => t.putDup (blockKey block.1) (e.1.val ++ e.2)) t)
    tables.plainAccountChangeSet
  plainStorageChangeSet := b.storageChanges.toList.foldl (fun t block =>
    block.2.toList.foldl (fun t address => address.2.toList.foldl (fun t contract =>
      contract.2.toList.foldl (fun t e =>
        t.putDup (storageChangeKey block.1 address.1 contract.1) (e.1.val ++ e.2)) t) t) t)
    tables.plainStorageChangeSet
  blockReceipts := b.receipts.toList.foldl (fun t e => t.put e.1 e.2) tables.blockReceipts
  logs := b.logs.toList.foldl (fun t e => t.put e.1 e.2) tables.logs

def writeToDb : Buffer := { b with txn := b.txn.map b.flush }

end Flush

end Buffer
end Silkworm.Db
