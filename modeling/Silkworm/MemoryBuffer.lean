import Silkworm.HashBuilder
import Silkworm.HashMaps
import Silkworm.StateBuffers

/-!
# The buffer in memory

Accounts, code and storage, the blocks with their difficulties, and the change sets from which
a block is unwound. Missing inner maps are inserted as empty ones by the subscript operator,
where nothing can tell them from missing ones.
-/

namespace Silkworm

/-- Address, incarnation, location. -/
abbrev StorageMap := HashMap Address (HashMap Uint64 (HashMap Bytes32 Bytes32))

namespace StorageMap

def locations (m : StorageMap) (a : Address) (incarnation : Uint64) : HashMap Bytes32 Bytes32 :=
  (m.findD a ∅).findD incarnation ∅

def setLocations (m : StorageMap) (a : Address) (incarnation : Uint64)
    (l : HashMap Bytes32 Bytes32) : StorageMap :=
  m.set a ((m.findD a ∅).set incarnation l)

def find (m : StorageMap) (a : Address) (incarnation : Uint64) (location : Bytes32) :
    Option Bytes32 := (m.locations a incarnation).find location

def set (m : StorageMap) (a : Address) (incarnation : Uint64) (location value : Bytes32) :
    StorageMap := m.setLocations a incarnation ((m.locations a incarnation).set location value)

/-- Zeros are not stored. -/
def put (m : StorageMap) (a : Address) (incarnation : Uint64) (location value : Bytes32) :
    StorageMap :=
  if isZero value then
    m.setLocations a incarnation ((m.locations a incarnation).remove location)
  else m.set a incarnation location value

/-- The entries in the order of the three nested loops. -/
def toList (m : StorageMap) : List ((Address × Uint64 × Bytes32) × Bytes32) :=
  (HashMap.toList m).flatMap fun x => x.2.toList.flatMap fun y => y.2.toList.map fun z =>
    ((x.1, y.1, z.1), z.2)

end StorageMap

structure MemoryBuffer where
  accounts : HashMap Address Account := ∅
  code : HashMap Bytes32 Bytes := ∅
  prevIncarnations : HashMap Address Uint64 := ∅
  storage : StorageMap := ∅
  headers : List (HashMap Bytes32 BlockHeader) := []
  bodies : List (HashMap Bytes32 BlockBody) := []
  difficulty : List (HashMap Bytes32 Uint256) := []
  canonicalHashes : List Bytes32 := []
  accountChanges : HashMap Uint64 (HashMap Address (Option Account)) := ∅
  storageChanges : HashMap Uint64 StorageMap := ∅
  blockNumber : Uint64 := 0

namespace MemoryBuffer

section Readers

variable (b : MemoryBuffer)

def readAccount (a : Address) : Option Account := b.accounts.find a

def readCode (codeHash : Bytes32) : Bytes := b.code.findD codeHash []

def readStorage (a : Address) (incarnation : Uint64) (location : Bytes32) : Bytes32 :=
  (b.storage.find a incarnation location).getD default

def previousIncarnation (a : Address) : Uint64 := b.prevIncarnations.findD a 0

/-- An entry of a table by block number and hash. -/
def lookup {V : Type} (table : List (HashMap Bytes32 V)) (n : ℕ) (blockHash : Bytes32) : Option V :=
  (table[n]?).bind fun m => m.find blockHash

def readHeader (blockNumber : Uint64) (blockHash : Bytes32) : Option BlockHeader :=
  lookup b.headers blockNumber.toNat blockHash

def readBody (blockNumber : Uint64) (blockHash : Bytes32) : Option BlockBody :=
  lookup b.bodies blockNumber.toNat blockHash

def totalDifficulty (blockNumber : Uint64) (blockHash : Bytes32) : Option Uint256 :=
  lookup b.difficulty blockNumber.toNat blockHash

def currentCanonicalBlock : Uint64 := BitVec.ofNat 64 b.canonicalHashes.length - 1

def canonicalHash (blockNumber : Uint64) : Option Bytes32 := b.canonicalHashes[blockNumber.toNat]?

end Readers

section Blocks

/-- `resize` of a vector. -/
def resize {α : Type} (l : List α) (n : ℕ) (fill : α) : List α :=
  l.take n ++ List.replicate (n - l.length) fill

/-- Tables grow to hold a block number, which has to be below 2^64 - 1. -/
def grow {V : Type} (table : List (HashMap Bytes32 V)) (n : ℕ) : List (HashMap Bytes32 V) :=
  if table.length ≤ n then resize table (n + 1) ∅ else table

/-- Set an entry of a table. -/
def store {V : Type} (table : List (HashMap Bytes32 V)) (n : ℕ) (blockHash : Bytes32) (value : V) :
    List (HashMap Bytes32 V) :=
  (grow table n).modify n fun m => m.set blockHash value

/-- The difficulty below a block, which the subscript operator inserts if it is missing. -/
def parentDifficulty (table : List (HashMap Bytes32 Uint256)) (header : BlockHeader) :
    Uint256 × List (HashMap Bytes32 Uint256) :=
  if header.number = 0 then (0, table)
  else
    let n := header.number.toNat - 1
    ((lookup table n header.parentHash).getD 0,
      table.modify n fun m => m.tryEmplace header.parentHash 0)

def insertBlock (block : Block) (hash : Bytes32) (b : MemoryBuffer) : MemoryBuffer :=
  let n := block.header.number.toNat
  let (parent, difficulty) := parentDifficulty (grow b.difficulty n) block.header
  { b with
    headers := store b.headers n hash block.header
    bodies := store b.bodies n hash block.toBlockBody
    difficulty := store difficulty n hash (parent + block.header.difficulty) }

def canonizeBlock (blockNumber : Uint64) (blockHash : Bytes32) (b : MemoryBuffer) : MemoryBuffer :=
  let n := blockNumber.toNat
  let hashes := if b.canonicalHashes.length ≤ n then resize b.canonicalHashes (n + 1) default
    else b.canonicalHashes
  { b with canonicalHashes := hashes.set n blockHash }

def decanonizeBlock (blockNumber : Uint64) (b : MemoryBuffer) : MemoryBuffer :=
  { b with canonicalHashes := resize b.canonicalHashes blockNumber.toNat default }

end Blocks

section Changes

def beginBlock (blockNumber : Uint64) (b : MemoryBuffer) : MemoryBuffer :=
  { b with
    blockNumber
    accountChanges := b.accountChanges.remove blockNumber
    storageChanges := b.storageChanges.remove blockNumber }

def updateAccount (a : Address) (initial current : Option Account) (b : MemoryBuffer) :
    MemoryBuffer :=
  let changes := (b.accountChanges.findD b.blockNumber ∅).set a initial
  let b := { b with accountChanges := b.accountChanges.set b.blockNumber changes }
  match current with
  | some account => { b with accounts := b.accounts.set a account }
  | none =>
    let b := { b with accounts := b.accounts.remove a }
    match initial with
    | some account => { b with prevIncarnations := b.prevIncarnations.set a account.incarnation }
    | none => b

def updateAccountCode (_ : Address) (_ : Uint64) (codeHash : Bytes32) (code : Bytes)
    (b : MemoryBuffer) : MemoryBuffer :=
  { b with code := b.code.set codeHash code }

def updateStorage (a : Address) (incarnation : Uint64) (location initial current : Bytes32)
    (b : MemoryBuffer) : MemoryBuffer :=
  { b with
    storageChanges := b.storageChanges.set b.blockNumber
      ((b.storageChanges.findD b.blockNumber ∅).set a incarnation location initial)
    storage := b.storage.put a incarnation location current }

/-- Put an account back to what it was. -/
def restoreAccount (accounts : HashMap Address Account) (e : Address × Option Account) :
    HashMap Address Account :=
  match e.2 with
  | some account => accounts.set e.1 account
  | none => accounts.remove e.1

def restoreStorage (storage : StorageMap) (e : (Address × Uint64 × Bytes32) × Bytes32) :
    StorageMap := storage.put e.1.1 e.1.2.1 e.1.2.2 e.2

def unwindStateChanges (blockNumber : Uint64) (b : MemoryBuffer) : MemoryBuffer :=
  { b with
    accounts := (b.accountChanges.findD blockNumber ∅).toList.foldl restoreAccount b.accounts
    storage := (b.storageChanges.findD blockNumber ∅).toList.foldl restoreStorage b.storage }

end Changes

instance : StateBuffer MemoryBuffer where
  readAccount := readAccount
  readCode := readCode
  readStorage := readStorage
  previousIncarnation := previousIncarnation
  beginBlock := beginBlock
  updateAccount := updateAccount
  updateAccountCode := updateAccountCode
  updateStorage := updateStorage

section Roots

open Rlp Trie

variable (keccak : Bytes → Bytes32)

def zerolessView (b : Bytes32) : Bytes := b.val.dropWhile (· = 0)

/-- The entries of an ordered map, and the root of the trie that is built from them. -/
def orderedRoot (m : HashMap Bytes32 Bytes) : Option Bytes32 := do
  let entries := m.toList.mergeSort fun x y => !decide (y.1.val < x.1.val)
  let hb ← addAll keccak (entries.map fun e => (e.1.val, e.2)) {}
  let (root, _) ← Trie.rootHash keccak hb
  some root

def accountStorageRoot (a : Address) (incarnation : Uint64) (b : MemoryBuffer) : Option Bytes32 :=
  let storage := b.storage.locations a incarnation
  if storage.toList = [] then some kEmptyRoot
  else orderedRoot keccak (storage.toList.foldl (fun m e =>
    m.set (keccak e.1.val) (encodeBytes (zerolessView e.2))) ∅)

end Roots

end MemoryBuffer

def Account.rlp (account : Account) (storageRoot : Bytes32) : Bytes :=
  Rlp.encodeHeader ⟨true, Rlp.lengthUint account.nonce + Rlp.lengthUint account.balance +
      (kHashLength + 1) + (kHashLength + 1)⟩ ++
    (Rlp.encodeUint account.nonce ++ Rlp.encodeUint account.balance ++ Rlp.encodeFixed storageRoot ++
      Rlp.encodeFixed account.codeHash)

namespace MemoryBuffer

def stateRootHash (keccak : Bytes → Bytes32) (b : MemoryBuffer) : Option Bytes32 := do
  if b.accounts.toList = [] then some Trie.kEmptyRoot
  else
    let m ← b.accounts.toList.foldlM (fun (m : HashMap Bytes32 Bytes) e => do
      let storageRoot ← accountStorageRoot keccak e.1 e.2.incarnation b
      some (m.set (keccak e.1.val) (e.2.rlp storageRoot))) ∅
    orderedRoot keccak m

end MemoryBuffer
end Silkworm
