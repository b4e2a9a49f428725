import Silkworm.HashMaps
import Silkworm.StateBuffers

/-!
# The state within a block

Accounts, storage and code are read from the buffer on first use and kept in maps. Changes
go to a journal, so that a snapshot can be restored. Getters fill the maps, hence they return
a new state, too. The journal lists its newest entry first.
-/

namespace Silkworm

structure Object where
  initial : Option Account := none
  current : Option Account := none
  deriving DecidableEq, Inhabited

structure CommittedValue where
  initial : Bytes32 := default
  original : Bytes32 := default
  deriving DecidableEq, Inhabited

structure Storage where
  committed : HashMap Bytes32 CommittedValue := ∅
  current : HashMap Bytes32 Bytes32 := ∅
  deriving DecidableEq

structure Log where
  address : Address
  topics : List Bytes32
  data : Bytes
  deriving DecidableEq

inductive Delta where
  | create (address : Address)
  | update (address : Address) (previous : Object)
  | suicide (address : Address)
  | touch (address : Address)
  | storageChange (address : Address) (key previous : Bytes32)
  | storageWipe (address : Address) (storage : Storage)
  | storageCreate (address : Address)
  | storageAccess (address : Address) (key : Bytes32)
  | accountAccess (address : Address)
  deriving DecidableEq

structure IntraBlockState where
  objects : HashMap Address Object := ∅
  storage : HashMap Address Storage := ∅
  code : HashMap Bytes32 Bytes := ∅
  journal : List Delta := []
  selfDestructs : HashSet Address := ∅
  logs : List Log := []
  touched : HashSet Address := ∅
  refund : Uint64 := 0
  accessedAddresses : HashSet Address := ∅
  accessedStorageKeys : HashMap Address (HashSet Bytes32) := ∅
  deriving DecidableEq

structure Snapshot where
  journalSize : ℕ
  logSize : ℕ
  refund : Uint64

/-- Yellow Paper, Appendix K "Anomalies on the Main Network". -/
abbrev kRipemdAddress : Address :=
  ⟨[0, 0, 0, 0, 0, 0, 0, 0, 0, 0, 0, 0, 0, 0, 0, 0, 0, 0, 0, 3], rfl⟩

namespace IntraBlockState

def undo (d : Delta) (s : IntraBlockState) : IntraBlockState :=
  match d with
  | .create a => { s with objects := s.objects.remove a }
  | .update a previous => { s with objects := s.objects.set a previous }
  | .suicide a => { s with selfDestructs := HashSet.remove s.selfDestructs a }
  | .touch a => { s with touched := HashSet.remove s.touched a }
  | .storageChange a key previous =>
    let st := s.storage.findD a {}
    { s with storage := s.storage.set a { st with current := st.current.set key previous } }
  | .storageWipe a st => { s with storage := s.storage.set a st }
  | .storageCreate a => { s with storage := s.storage.remove a }
  | .storageAccess a key =>
    let keys := s.accessedStorageKeys.findD a ∅
    { s with accessedStorageKeys := s.accessedStorageKeys.set a (HashSet.remove keys key) }
  | .accountAccess a => { s with accessedAddresses := HashSet.remove s.accessedAddresses a }

def record (d : Delta) (s : IntraBlockState) : IntraBlockState := { s with journal := d :: s.journal }

section Operations

variable {B : Type} [StateBuffer B] (db : B)
open StateBuffer

def getObject (a : Address) (s : IntraBlockState) : Option Object × IntraBlockState :=
  match s.objects.find a with
  | some obj => (some obj, s)
  | none => match readAccount db a with
    | none => (none, s)
    | some account =>
      let obj : Object := ⟨some account, some account⟩
      (some obj, { s with objects := s.objects.set a obj })

def getOrCreateObject (a : Address) (s : IntraBlockState) : Object × IntraBlockState :=
  match getObject db a s with
  | (none, s) =>
    let obj : Object := ⟨none, some {}⟩
    (obj, { record (.create a) s with objects := s.objects.set a obj })
  | (some obj, s) =>
    if obj.current.isNone then
      let obj' : Object := { obj with current := some {} }
      (obj', { record (.update a obj) s with objects := s.objects.set a obj' })
    else (obj, s)

def existsAccount (a : Address) (s : IntraBlockState) : Bool × IntraBlockState :=
  let (obj, s) := getObject db a s
  ((obj.bind Object.current).isSome, s)

def isDead (a : Address) (s : IntraBlockState) : Bool × IntraBlockState :=
  let (obj, s) := getObject db a s
  (match obj.bind Object.current with
    | none => true
    | some account => account.codeHash = kEmptyHash ∧ account.nonce = 0 ∧ account.balance = 0, s)

/-- The incarnation that a new contract follows: that of the present or, if that is missing, of
the initial account; without one, or for 0, the buffer knows the previous one. -/
def followedIncarnation (a : Address) (prev : Option Object) : Uint64 :=
  let prevIncarnation : Option Uint64 := prev.bind fun o => match o.current with
    | some account => some account.incarnation
    | none => o.initial.map Account.incarnation
  match prevIncarnation with
  | some i => if i = 0 then previousIncarnation db a else i
  | none => previousIncarnation db a

def createdObject (a : Address) (prev : Option Object) : Object :=
  ⟨prev.bind Object.initial,
    some { balance := ((prev.bind Object.current).map Account.balance).getD 0
           incarnation := followedIncarnation db a prev + 1 }⟩

def objectDelta (a : Address) : Option Object → Delta
  | some previous => .update a previous
  | none => .create a

def createContract (a : Address) (s : IntraBlockState) : IntraBlockState :=
  let (prev, s) := getObject db a s
  let s := record (objectDelta a prev) s
  let s := { s with objects := s.objects.set a (createdObject db a prev) }
  match s.storage.find a with
  | none => record (.storageCreate a) s
  | some st => { record (.storageWipe a st) s with storage := s.storage.remove a }

def touch (a : Address) (s : IntraBlockState) : IntraBlockState :=
  let inserted := !HashSet.contains s.touched a
  let s := { s with touched := HashSet.insert s.touched a }
  if inserted ∧ a ≠ kRipemdAddress then record (.touch a) s else s

def recordSuicide (a : Address) (s : IntraBlockState) : IntraBlockState :=
  let inserted := !HashSet.contains s.selfDestructs a
  let s := { s with selfDestructs := HashSet.insert s.selfDestructs a }
  if inserted then record (.suicide a) s else s

def destruct (a : Address) (s : IntraBlockState) : IntraBlockState :=
  let s := { s with storage := s.storage.remove a }
  match getObject db a s with
  | (none, s) => s
  | (some obj, s) => { s with objects := s.objects.set a { obj with current := none } }

def destructSuicides (s : IntraBlockState) : IntraBlockState :=
  (HashSet.toList s.selfDestructs).foldl (fun s a => destruct db a s) s

def destructTouchedDead (s : IntraBlockState) : IntraBlockState :=
  (HashSet.toList s.touched).foldl (fun s a =>
    let (dead, s) := isDead db a s
    if dead then destruct db a s else s) s

def getBalance (a : Address) (s : IntraBlockState) : Uint256 × IntraBlockState :=
  let (obj, s) := getObject db a s
  (((obj.bind Object.current).map Account.balance).getD 0, s)

/-- The common part of the setters: the object is created if need be, its present value
goes to the journal, and the account changes. -/
def updateObject (a : Address) (f : Account → Account) (s : IntraBlockState) : IntraBlockState :=
  let (obj, s) := getOrCreateObject db a s
  { record (.update a obj) s with objects := s.objects.set a { obj with current := obj.current.map f } }

def setBalance (a : Address) (value : Uint256) (s : IntraBlockState) : IntraBlockState :=
  touch a (updateObject db a (fun account => { account with balance := value }) s)

def addToBalance (a : Address) (addend : Uint256) (s : IntraBlockState) : IntraBlockState :=
  touch a (updateObject db a (fun account => { account with balance := account.balance + addend }) s)

def subtractFromBalance (a : Address) (subtrahend : Uint256) (s : IntraBlockState) :
    IntraBlockState :=
  touch a (updateObject db a
    (fun account => { account with balance := account.balance - subtrahend }) s)

def getNonce (a : Address) (s : IntraBlockState) : Uint64 × IntraBlockState :=
  let (obj, s) := getObject db a s
  (((obj.bind Object.current).map Account.nonce).getD 0, s)

def setNonce (a : Address) (nonce : Uint64) (s : IntraBlockState) : IntraBlockState :=
  updateObject db a (fun account => { account with nonce }) s

def getCode (a : Address) (s : IntraBlockState) : Bytes × IntraBlockState :=
  let (obj, s) := getObject db a s
  match obj.bind Object.current with
  | none => ([], s)
  | some account =>
    if account.codeHash = kEmptyHash then ([], s)
    else match s.code.find account.codeHash with
      | some code => (code, s)
      | none =>
        let code := readCode db account.codeHash
        (code, { s with code := s.code.set account.codeHash code })

def getCodeHash (a : Address) (s : IntraBlockState) : Bytes32 × IntraBlockState :=
  let (obj, s) := getObject db a s
  (((obj.bind Object.current).map Account.codeHash).getD kEmptyHash, s)

def setCode (keccak : Bytes → Bytes32) (a : Address) (code : Bytes) (s : IntraBlockState) :
    IntraBlockState :=
  let s := updateObject db a (fun account => { account with codeHash := keccak code }) s
  { s with code := s.code.tryEmplace (keccak code) code }

/-- Whether the access is cold. -/
def accessAccount (a : Address) (s : IntraBlockState) : Bool × IntraBlockState :=
  let coldRead := !HashSet.contains s.accessedAddresses a
  let s := { s with accessedAddresses := HashSet.insert s.accessedAddresses a }
  (coldRead, if coldRead then record (.accountAccess a) s else s)

def accessStorage (a : Address) (key : Bytes32) (s : IntraBlockState) : Bool × IntraBlockState :=
  let keys := s.accessedStorageKeys.findD a ∅
  let coldRead := !HashSet.contains keys key
  let s := { s with accessedStorageKeys := s.accessedStorageKeys.set a (HashSet.insert keys key) }
  (coldRead, if coldRead then record (.storageAccess a key) s else s)

def getStorage (a : Address) (key : Bytes32) (original : Bool) (s : IntraBlockState) :
    Bytes32 × IntraBlockState :=
  let (obj, s) := getObject db a s
  match obj with
  | none => (default, s)
  | some obj => match obj.current with
    | none => (default, s)
    | some account =>
      let st := s.storage.findD a {}
      let s := { s with storage := s.storage.set a st }
      match (if original then none else st.current.find key) with
      | some value => (value, s)
      | none => match st.committed.find key with
        | some value => (value.original, s)
        | none =>
          if obj.initial.map Account.incarnation ≠ some account.incarnation then (default, s)
          else
            let value := readStorage db a account.incarnation key
            let st := { st with committed := st.committed.set key ⟨value, value⟩ }
            (value, { s with storage := s.storage.set a st })

def getCurrentStorage (a : Address) (key : Bytes32) (s : IntraBlockState) :
    Bytes32 × IntraBlockState := getStorage db a key false s

def getOriginalStorage (a : Address) (key : Bytes32) (s : IntraBlockState) :
    Bytes32 × IntraBlockState := getStorage db a key true s

def setStorage (a : Address) (key value : Bytes32) (s : IntraBlockState) : IntraBlockState :=
  let (prev, s) := getCurrentStorage db a key s
  if prev = value then s
  else
    let st := s.storage.findD a {}
    record (.storageChange a key prev)
      { s with storage := s.storage.set a { st with current := st.current.set key value } }

end Operations

def takeSnapshot (s : IntraBlockState) : Snapshot := ⟨s.journal.length, s.logs.length, s.refund⟩

def revertToSnapshot (snapshot : Snapshot) (s : IntraBlockState) : IntraBlockState :=
  let n := s.journal.length - snapshot.journalSize
  let s := (s.journal.take n).foldl (fun s d => undo d s) s
  { s with
    journal := s.journal.drop n, logs := s.logs.take snapshot.logSize, refund := snapshot.refund }

def finalizeStorage (st : Storage) : Storage where
  committed := st.current.toList.foldl
    (fun committed e =>
      committed.set e.1 { committed.findD e.1 {} with original := e.2 }) st.committed
  current := ∅

def finalizeTransaction (s : IntraBlockState) : IntraBlockState :=
  { s with storage := s.storage.mapValues fun _ st => finalizeStorage st }

def clearJournalAndSubstate (s : IntraBlockState) : IntraBlockState :=
  { s with
    journal := [], selfDestructs := ∅, logs := [], touched := ∅, refund := 0,
    accessedAddresses := ∅, accessedStorageKeys := ∅ }

def addLog (log : Log) (s : IntraBlockState) : IntraBlockState := { s with logs := s.logs ++ [log] }

def addRefund (addend : Uint64) (s : IntraBlockState) : IntraBlockState :=
  { s with refund := s.refund + addend }

def subtractRefund (subtrahend : Uint64) (s : IntraBlockState) : IntraBlockState :=
  { s with refund := s.refund - subtrahend }

section Writing

variable {B : Type} [StateBuffer B]
open StateBuffer

def writeStorage (s : IntraBlockState) (a : Address) (st : Storage) (db : B) : B :=
  match (s.objects.find a).bind Object.current with
  | none => db
  | some account => st.committed.toList.foldl (fun db e =>
      updateStorage a account.incarnation e.1 e.2.initial e.2.original db) db

/-- A missing code is inserted as empty by the subscript operator. -/
def writeObject (a : Address) (obj : Object) (x : B × IntraBlockState) : B × IntraBlockState :=
  let db := updateAccount a obj.initial obj.current x.1
  match obj.current with
  | none => (db, x.2)
  | some account =>
    if account.codeHash ≠ kEmptyHash ∧
        obj.initial.map Account.incarnation ≠ some account.incarnation then
      let s := { x.2 with code := x.2.code.tryEmplace account.codeHash [] }
      (updateAccountCode a account.incarnation account.codeHash (s.code.findD account.codeHash []) db,
        s)
    else (db, x.2)

def writeToDb (blockNumber : Uint64) (db : B) (s : IntraBlockState) : B × IntraBlockState :=
  let db := beginBlock blockNumber db
  let db := s.storage.toList.foldl (fun db e => writeStorage s e.1 e.2 db) db
  s.objects.toList.foldl (fun x e => writeObject e.1 e.2 x) (db, s)

end Writing

end IntraBlockState
end Silkworm
