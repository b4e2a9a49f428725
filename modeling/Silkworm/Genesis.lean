import Silkworm.StateRoots
import Silkworm.StateTables
import Silkworm.StoredBlocks
import Silkworm.Validity

/-!
# The genesis of a chain

The description of a genesis block is written into the tables of a new database, partly as raw memory.
What the readers of the tables make of it agrees with the description for some numbers only.
-/

namespace Silkworm.Db
open BigEndian Rlp SortedTables Trie ViewParsers

section Program

/-- A description. Strings are shorter than 2^63 bytes, and no address is allocated twice. -/
structure Genesis where
  difficulty : Uint256
  nonce : Uint64
  gasLimit : Uint64
  timestamp : Uint64
  extraData : { data : Bytes // data.length < 2 ^ 63 }
  mixhash : Option Bytes32
  alloc : Option (HashMap Address Uint256)
  config : Bytes

structure GenesisDatabase where
  state : Tables
  chain : ChainTables
  difficulty : PlainTable
  headHeader : PlainTable
  headerNumbers : PlainTable
  config : PlainTable

def genesisBody : Bytes := [195, 128, 128, 192]

def genesisReceipts : Bytes := [246]

/-- "LastHeader" -/
def kLastHeaderKey : Bytes := [0x4c, 0x61, 0x73, 0x74, 0x48, 0x65, 0x61, 0x64, 0x65, 0x72]

/-- The memory of a number, from the lowest byte on. -/
def asBytes (n : Uint256) : Bytes := (fixedBigEndian 32 n.toNat).reverse

/-- A pointer that is taken for a view reaches to the first zero, here at the latest to the number of
the header, which follows the difficulty. -/
def viewOfPointer (b : Bytes) : Bytes := b.takeWhile fun x => x ≠ 0

/-- A number that is copied as it is in memory. -/
def copyMemory (n : Uint64) : FixedBytes 8 :=
  ⟨(bigU64 n).reverse, by rw [List.length_reverse, length_bigU64]⟩

def allocate (alloc : HashMap Address Uint256) : Buffer :=
  alloc.toList.foldl (fun b e => b.updateAccount e.1 none (some { balance := e.2 }))
    { txn := some {} }

/-- The changes of the first block have to be there, one for each allocation. -/
def writeAllocations (alloc : HashMap Address Uint256) : Option Buffer :=
  let b := allocate alloc
  match b.accountChanges.find 0 with
  | none => none
  | some changes => if changes.toList.length ≠ alloc.toList.length then none else some b.writeToDb

def Genesis.stateBuffer (g : Genesis) : Option Buffer :=
  match g.alloc with
  | some alloc => writeAllocations alloc
  | none => some { txn := some {} }

def Genesis.header (g : Genesis) (stateRoot : Bytes32) : BlockHeader where
  extraData := g.extraData.val
  mixHash := g.mixhash.getD default
  ommersHash := kEmptyListHash
  stateRoot
  transactionsRoot := kEmptyRoot
  receiptsRoot := kEmptyRoot
  difficulty := g.difficulty
  gasLimit := g.gasLimit
  timestamp := g.timestamp
  nonce := copyMemory g.nonce

/-- The tables under the hash of the header, beside those of the state. -/
def Genesis.write (keccak : Bytes → Bytes32) (g : Genesis) (header : BlockHeader) (state : Tables) :
    GenesisDatabase :=
  let blockHash := keccak (encodeBlockHeader header)
  let key := blockHashKey 0 blockHash
  { state := { state with blockReceipts := state.blockReceipts.put (key.take 8) genesisReceipts }
    chain :=
      { headers := PlainTable.put {} key (encodeBlockHeader header)
        canonicalHashes := PlainTable.put {} (blockKey 0) blockHash.val
        blockBodies := PlainTable.put {} key genesisBody }
    difficulty := PlainTable.put {} key (viewOfPointer (asBytes header.difficulty))
    headHeader := PlainTable.put {} kLastHeaderKey blockHash.val
    headerNumbers := PlainTable.put {} blockHash.val (key.take 8)
    config := PlainTable.put {} blockHash.val g.config }

/-- The header and the tables. An exception leaves no database. -/
def initializeWithGenesis (keccak : Bytes → Bytes32) (g : Genesis) :
    Option (BlockHeader × GenesisDatabase) := do
  let stateBuffer ← g.stateBuffer
  let stateRoot ← stateBuffer.stateRootHash keccak
  let header := g.header stateRoot
  let state ← stateBuffer.txn
  some (header, g.write keccak header state)

end Program

section Readers

def readHeader (chain : ChainTables) (blockNumber : Uint64) (hash : Bytes32) :
    Read (Option BlockHeader) :=
  match chain.headers.get (blockHashKey blockNumber hash) with
  | none => pure none
  | some rlp => do
    let header ← decodeStored .decodingError decodeBlockHeader rlp
    pure (some header)

def readTotalDifficulty (difficulty : PlainTable) (blockNumber : Uint64) (hash : Bytes32) :
    Read (Option Uint256) :=
  match difficulty.get (blockHashKey blockNumber hash) with
  | none => pure none
  | some rlp => do
    let td ← decodeStored .decodingError (decodeUint 256) rlp
    pure (some td)

/-- The nonce of a header as the check of the seal takes it. -/
def sealNonce (header : BlockHeader) : Uint64 := BitVec.ofNat 64 (ofBigEndian header.nonce.val)

/-- What is read is what was described. -/
def RoundTrips (keccak : Bytes → Bytes32) (g : Genesis) : Prop :=
  ∃ header db, initializeWithGenesis keccak g = some (header, db) ∧
    readHeader db.chain 0 (keccak (encodeBlockHeader header)) = pure (some header) ∧
    readTotalDifficulty db.difficulty 0 (keccak (encodeBlockHeader header)) =
      pure (some header.difficulty) ∧
    sealNonce header = g.nonce ∧
    ∀ a, readAccount db.state a =
      some ((g.alloc.bind fun alloc => alloc.find a).map fun balance => { balance })

theorem decodeStored_eq_pure {α : Type} {error : ReadError} {decoder : Decoder α} {rlp : Bytes}
    {value : α} :
    decodeStored error decoder rlp = pure value ↔ ∃ r, decoder rlp = .ok value r := by
  rw [decodeStored]
  cases decoder rlp with
  | ok v r =>
    constructor
    · intro h
      cases h
      exact ⟨r, rfl⟩
    · rintro ⟨r', h⟩
      cases h
      rfl
  | _ =>
    refine iff_of_false (fun h => ?_) fun ⟨r, h⟩ => ?_
    · cases h
    · cases h

theorem map_some_eq_pure {α : Type} {x : Read α} {value : α} :
    (do let v ← x; pure (some v)) = (pure (some value) : Read (Option α)) ↔ x = pure value := by
  constructor
  · intro h
    change Option.bind x _ = some _ at h
    obtain ⟨r, hr, h⟩ := Option.bind_eq_some_iff.mp h
    cases r with
    | error err => cases h
    | ok v =>
      cases h
      exact hr
  · rintro rfl
    rfl

variable {chain : ChainTables} {difficulty : PlainTable} {hash : Bytes32} {rlp : Bytes}

theorem readHeader_eq {header : BlockHeader}
    (h : chain.headers.get (blockHashKey 0 hash) = some rlp) :
    readHeader chain 0 hash = pure (some header) ↔ ∃ r, decodeBlockHeader rlp = .ok header r := by
  rw [readHeader, h]
  exact map_some_eq_pure.trans decodeStored_eq_pure

theorem readTotalDifficulty_eq {td : Uint256}
    (h : difficulty.get (blockHashKey 0 hash) = some rlp) :
    readTotalDifficulty difficulty 0 hash = pure (some td) ↔ ∃ r, decodeUint 256 rlp = .ok td r := by
  rw [readTotalDifficulty, h]
  exact map_some_eq_pure.trans decodeStored_eq_pure

end Readers

section Numbers

theorem asBytes_eq (n : Uint256) : asBytes n = (bigEndian n.toNat).reverse ++
    List.replicate (32 - (bigEndian n.toNat).length) 0 := by
  rw [asBytes, fixedBigEndian, List.reverse_append, List.reverse_replicate]

/-- The view is not longer than the number. -/
theorem length_viewOfPointer_le (n : Uint256) :
    (viewOfPointer (asBytes n)).length ≤ (bigEndian n.toNat).length := by
  rw [viewOfPointer, asBytes_eq, List.takeWhile_append]
  split_ifs
  · have hzero (k : ℕ) : (List.replicate k (0 : UInt8)).takeWhile (fun x => x ≠ 0) = [] := by
      cases k <;> rfl
    rw [hzero, List.append_nil, List.length_reverse]
  · exact (List.takeWhile_sublist _).length_le.trans (List.length_reverse).le

theorem viewOfPointer_of_lt {n : Uint256} (h0 : n.toNat ≠ 0) (h : n.toNat < 256) :
    viewOfPointer (asBytes n) = [UInt8.ofNat n.toNat] := by
  have hne : UInt8.ofNat n.toNat ≠ 0 := fun heq => by
    have hnat := congrArg UInt8.toNat heq
    rw [toNat_ofNat h] at hnat
    exact h0 hnat
  rw [viewOfPointer, asBytes_eq, bigEndian_of_lt h0 h]
  simp [hne]

/-- The memory of a number is the code of the number only where that is a single byte. -/
theorem decodeUint_asBytes (n : Uint256) :
    (∃ r, decodeUint 256 (viewOfPointer (asBytes n)) = .ok n r) ↔ 0 < n.toNat ∧ n.toNat < 128 := by
  simp only [codes_uint256.eq_ok, true_and]
  constructor
  · rintro ⟨r, h⟩
    have hlen := congrArg List.length h
    have hle := length_viewOfPointer_le n
    rw [List.length_append, length_encodeUint, lengthUint] at hlen
    split_ifs at hlen with hlt
    · refine ⟨Nat.pos_of_ne_zero fun h0 => ?_, hlt⟩
      rw [h0, bigEndian_zero, List.length_nil] at hle
      omega
    · omega
  · rintro ⟨hpos, hlt⟩
    refine ⟨[], ?_⟩
    rw [viewOfPointer_of_lt hpos.ne' (by omega), encodeUint, if_neg hpos.ne', if_pos hlt]
    rfl

/-- The bytes are copied in the order in which the seal is not checked. -/
theorem sealNonce_header (g : Genesis) (stateRoot : Bytes32) :
    sealNonce (g.header stateRoot) = g.nonce ↔ (bigU64 g.nonce).reverse = bigU64 g.nonce := by
  have hlt : ofBigEndian (bigU64 g.nonce).reverse < 2 ^ 64 := by
    have hlt := ofBigEndian_lt (bigU64 g.nonce).reverse
    rw [List.length_reverse, length_bigU64] at hlt
    exact hlt.trans_eq (by norm_num)
  change BitVec.ofNat 64 (ofBigEndian (bigU64 g.nonce).reverse) = g.nonce ↔ _
  constructor
  · intro h
    have hnat := congrArg BitVec.toNat h
    rw [BitVec.toNat_ofNat, Nat.mod_eq_of_lt hlt] at hnat
    refine eq_of_ofBigEndian List.length_reverse ?_
    rw [hnat, bigU64, ofBigEndian_fixedBigEndian]
  · intro h
    rw [h, bigU64, ofBigEndian_fixedBigEndian, BitVec.ofNat_toNat, BitVec.setWidth_eq]

end Numbers

section Allocations

variable {alloc : HashMap Address Uint256} {b : Buffer}

theorem accountChanges_bumpBatchSize (b : Buffer) (inserted : Bool) (k v : ℕ) :
    (b.bumpBatchSize inserted k v).accountChanges = b.accountChanges ∧
      (b.bumpBatchSize inserted k v).blockNumber = b.blockNumber := by
  rw [Buffer.bumpBatchSize]
  split_ifs <;> exact ⟨rfl, rfl⟩

/-- A new account is recorded as one that was not there. -/
theorem accountChanges_updateAccount (b : Buffer) (a : Address) (account : Account) :
    (b.updateAccount a none (some account)).accountChanges =
        b.accountChanges.set b.blockNumber ((b.accountChanges.findD b.blockNumber ∅).set a []) ∧
      (b.updateAccount a none (some account)).blockNumber = b.blockNumber := by
  have hne : ¬some account = none := Option.some_ne_none account
  rw [Buffer.updateAccount, if_neg fun h => hne h.1]
  dsimp only
  rw [if_neg hne]
  obtain ⟨h₁, h₂⟩ := accountChanges_bumpBatchSize
    { b.recordAccount a [] with accounts := (b.recordAccount a []).accounts.set a (some account) }
    ((b.recordAccount a []).accounts.find a).isNone kAddressLength account.encodingLengthForStorage
  obtain ⟨h₃, h₄⟩ := accountChanges_bumpBatchSize
    { b with accountChanges :=
        b.accountChanges.set b.blockNumber ((b.accountChanges.findD b.blockNumber ∅).set a []) }
    ((b.accountChanges.findD b.blockNumber ∅).find a).isNone 8 (kAddressLength + [].length)
  exact ⟨h₁.trans h₃, h₂.trans h₄⟩

theorem blockNumber_foldl (l : List (Address × Uint256)) (b : Buffer) :
    (l.foldl (fun b e => b.updateAccount e.1 none (some { balance := e.2 })) b).blockNumber =
      b.blockNumber := by
  induction l generalizing b with
  | nil => rfl
  | cons e l ih => exact (ih _).trans (accountChanges_updateAccount b e.1 _).2

/-- The changes that are recorded so far. -/
def recorded (b : Buffer) (a : Address) : Option Bytes :=
  (b.accountChanges.findD b.blockNumber ∅).find a

theorem recorded_updateAccount (b : Buffer) (a : Address) (balance : Uint256) (a' : Address) :
    recorded (b.updateAccount a none (some { balance })) a' =
      if a' = a then some [] else recorded b a' := by
  obtain ⟨hchanges, hnumber⟩ := accountChanges_updateAccount b a { balance }
  rw [recorded, hchanges, hnumber, HashMap.findD_set, if_pos rfl, HashMap.find_set, recorded]

theorem accounts_updateAccount (b : Buffer) (a : Address) (balance : Uint256) (a' : Address) :
    (b.updateAccount a none (some { balance })).maps.accounts.find a' =
      if a' = a then some (some { balance }) else b.maps.accounts.find a' := by
  rw [Buffer.maps_updateAccount, if_neg (Option.some_ne_none _)]
  exact HashMap.find_set ..

theorem recorded_allocate (alloc : HashMap Address Uint256) (a : Address) :
    recorded (allocate alloc) a = (alloc.find a).map fun _ => [] := by
  have hloop := HashMap.read_foldl_toList
    (f := fun (b : Buffer) e => b.updateAccount e.1 none (some { balance := e.2 }))
    recorded (fun _ _ _ => some []) recorded_updateAccount alloc { txn := some {} } a
  rw [allocate, hloop]
  cases alloc.find a <;> rfl

theorem accounts_allocate (alloc : HashMap Address Uint256) (a : Address) :
    (allocate alloc).maps.accounts.find a = (alloc.find a).map fun balance => some { balance } := by
  have hloop := HashMap.read_foldl_toList
    (f := fun (b : Buffer) e => b.updateAccount e.1 none (some { balance := e.2 }))
    (fun b a => b.maps.accounts.find a) (fun _ balance _ => some (some { balance }))
    accounts_updateAccount alloc { txn := some {} } a
  rw [allocate, hloop]
  cases alloc.find a <;> rfl

theorem txn_allocate (alloc : HashMap Address Uint256) : (allocate alloc).maps.txn = some {} := by
  rw [allocate]
  generalize hb : ({ txn := some {} } : Buffer) = b
  have hstart : b.maps.txn = some {} := hb ▸ rfl
  clear hb
  induction alloc.toList generalizing b with
  | nil => exact hstart
  | cons e l ih =>
    refine ih _ ?_
    rw [Buffer.maps_updateAccount]
    exact hstart

theorem toList_eq_nil {V : Type} {m : HashMap Address V} : m.toList = [] ↔ m = ∅ := by
  constructor
  · intro h
    exact AList.ext (List.map_eq_nil_iff.mp h)
  · rintro rfl
    rfl

/-- Without an allocation there is no entry of the first block. -/
theorem writeAllocations_empty : writeAllocations ∅ = none := rfl

theorem writeAllocations_eq (h : alloc ≠ ∅) :
    writeAllocations alloc = some (allocate alloc).writeToDb := by
  have hnumber : (allocate alloc).blockNumber = 0 := blockNumber_foldl alloc.toList _
  have hrecorded := recorded_allocate alloc
  rw [writeAllocations]
  cases hchanges : (allocate alloc).accountChanges.find 0 with
  | none =>
    refine absurd (toList_eq_nil.mp (List.eq_nil_iff_forall_not_mem.mpr fun e he => ?_)) h
    have hnone := hrecorded e.1
    rw [recorded, hnumber, HashMap.findD, hchanges, HashMap.mem_toList.mp he] at hnone
    cases hnone
  | some changes =>
    have hsame (a : Address) : changes.find a = (alloc.find a).map fun _ => [] := by
      rw [← hrecorded, recorded, hnumber, HashMap.findD, hchanges]
      rfl
    have hperm : (changes.toList.map Prod.fst).Perm (alloc.toList.map Prod.fst) := by
      refine (List.perm_ext_iff_of_nodup changes.keys_toList_nodup alloc.keys_toList_nodup).mpr
        fun a => ?_
      have hmem {V : Type} (m : HashMap Address V) :
          a ∈ m.toList.map Prod.fst ↔ (m.find a).isSome := by
        rw [List.mem_map, Option.isSome_iff_exists]
        constructor
        · rintro ⟨⟨a', v⟩, he, rfl⟩
          exact ⟨v, HashMap.mem_toList.mp he⟩
        · rintro ⟨v, hv⟩
          exact ⟨(a, v), HashMap.mem_toList.mpr hv, rfl⟩
      rw [hmem, hmem, hsame, Option.isSome_map]
    have hlen := hperm.length_eq
    rw [List.length_map, List.length_map] at hlen
    exact if_neg (not_not.mpr hlen)

/-- What was allocated is read, and nothing else. -/
theorem readAccount_allocate (alloc : HashMap Address Uint256) {tables : Tables}
    (htables : tables.plainState = ((allocate alloc).flush {}).plainState) (a : Address) :
    readAccount tables a = some ((alloc.find a).map fun balance => { balance }) := by
  have hstores : Stores ((allocate alloc).overlay noWorld) tables.plainState := by
    rw [htables]
    exact (allocate alloc).stores_writeToStateTable stores_empty
  rw [hstores.readAccount]
  have haccount : ((allocate alloc).overlay noWorld).account a =
      (alloc.find a).map fun balance => { balance } := by
    change ((allocate alloc).maps.accounts.find a).getD none = _
    rw [accounts_allocate]
    cases alloc.find a <;> rfl
  rw [haccount]
  cases alloc.find a <;> rfl

end Allocations

section Roots

/-- The builder of the root does not fail for the buffer of the database, either. -/
theorem Buffer.exists_stateRootHash (keccak : Bytes → Bytes32) (b : Buffer) :
    ∃ root, b.stateRootHash keccak = some root := by
  have hstorage (a : Address) (i : Uint64) : ∃ root, b.accountStorageRoot keccak a i = some root := by
    rw [accountStorageRoot]
    split_ifs
    · exact ⟨_, rfl⟩
    · exact ⟨_, MemoryBuffer.orderedRoot_eq keccak _⟩
  rw [stateRootHash]
  split_ifs
  · exact ⟨_, rfl⟩
  · refine MemoryBuffer.exists_bind (MemoryBuffer.exists_foldlM (fun m e => ?_) _ _) fun m =>
      ⟨_, MemoryBuffer.orderedRoot_eq keccak m⟩
    obtain ⟨a, account⟩ := e
    cases account with
    | none => exact ⟨m, rfl⟩
    | some account => exact MemoryBuffer.exists_bind (hstorage a account.incarnation) fun root => ⟨_, rfl⟩

end Roots

section RoundTrips

variable {keccak : Bytes → Bytes32} {g : Genesis}

theorem lengthUint_le {w : ℕ} (hw : w ≤ 256) (n : BitVec w) : lengthUint n ≤ 33 := by
  have hlt : n.toNat < 256 ^ 32 :=
    n.isLt.trans_le ((Nat.pow_le_pow_right (by norm_num) hw).trans (by norm_num))
  have hle := length_bigEndian_le.mpr hlt
  rw [lengthUint]
  split_ifs <;> omega

theorem lengthOfLength_le {n : ℕ} (h : n < 2 ^ 63) : lengthOfLength n ≤ 9 := by
  have hle : (bigEndian n).length ≤ 8 := length_bigEndian_le.mpr (h.trans (by norm_num))
  rw [lengthOfLength]
  split_ifs <;> omega

/-- The header is below the limit of the decoder. -/
theorem length_header_lt (g : Genesis) (stateRoot : Bytes32) :
    (encodeBlockHeaderFields (g.header stateRoot) false).length < 2 ^ 64 := by
  have hextra : lengthBytes g.extraData.val ≤ g.extraData.val.length + 9 := by
    rw [lengthBytes]
    split_ifs
    · omega
    · exact Nat.add_le_add_left (lengthOfLength_le g.extraData.property) _
  have hlt := g.extraData.property
  have h₁ := lengthUint_le le_rfl g.difficulty
  have h₂ := lengthUint_le (by norm_num) (0 : Uint64)
  have h₃ := lengthUint_le (by norm_num) g.gasLimit
  have h₄ := lengthUint_le (by norm_num) g.timestamp
  have h₅ := lengthOfLength_le (show kBloomByteLength < 2 ^ 63 by norm_num)
  rw [length_encodeBlockHeaderFields]
  simp only [rlpHeaderBlockHeader, Genesis.header, Bool.false_eq_true, if_false, kHashLength,
    kAddressLength, kBloomByteLength] at h₅ ⊢
  omega

theorem decodeBlockHeader_header (g : Genesis) (stateRoot : Bytes32) :
    ∃ r, decodeBlockHeader (encodeBlockHeader (g.header stateRoot)) = .ok (g.header stateRoot) r :=
  ⟨[], codes_blockHeader.eq_ok.mpr ⟨length_header_lt g stateRoot, (List.append_nil _).symm⟩⟩

/-- The block is written beside the state. -/
theorem initializeWithGenesis_eq {b : Buffer} {state : Tables} (hbuffer : g.stateBuffer = some b)
    (hstate : b.txn = some state) : ∃ stateRoot, initializeWithGenesis keccak g =
      some (g.header stateRoot, g.write keccak (g.header stateRoot) state) := by
  obtain ⟨stateRoot, hroot⟩ := b.exists_stateRootHash keccak
  refine ⟨stateRoot, ?_⟩
  rw [initializeWithGenesis, hbuffer]
  change (b.stateRootHash keccak).bind _ = _
  rw [hroot, Option.bind_some, hstate]
  rfl

/-- Where the state is read as described, the numbers decide. -/
theorem roundTrips_of_stateBuffer {b : Buffer} {state : Tables} (hbuffer : g.stateBuffer = some b)
    (hstate : b.txn = some state)
    (hread : ∀ tables : Tables, tables.plainState = state.plainState → ∀ a, readAccount tables a =
      some ((g.alloc.bind fun alloc => alloc.find a).map fun balance => { balance })) :
    RoundTrips keccak g ↔ (0 < g.difficulty.toNat ∧ g.difficulty.toNat < 128) ∧
      (bigU64 g.nonce).reverse = bigU64 g.nonce := by
  obtain ⟨stateRoot, hinit⟩ := initializeWithGenesis_eq hbuffer hstate
  have hget (data : Bytes) : (PlainTable.put {} (blockHashKey 0
      (keccak (encodeBlockHeader (g.header stateRoot)))) data).get
        (blockHashKey 0 (keccak (encodeBlockHeader (g.header stateRoot)))) = some data := by
    rw [PlainTable.get_put, if_pos rfl]
  have htd := (readTotalDifficulty_eq (hget (viewOfPointer (asBytes g.difficulty)))).trans
    (decodeUint_asBytes g.difficulty)
  rw [← htd, ← sealNonce_header g stateRoot]
  constructor
  · rintro ⟨header, db, hinit', -, htd', hnonce, -⟩
    cases hinit.symm.trans hinit'
    exact ⟨htd', hnonce⟩
  · rintro ⟨htd', hnonce⟩
    exact ⟨_, _, hinit, (readHeader_eq (hget _)).mpr (decodeBlockHeader_header g stateRoot), htd',
      hnonce, hread _ rfl⟩

theorem roundTrips_of_alloc_none (halloc : g.alloc = none) :
    RoundTrips keccak g ↔ (0 < g.difficulty.toNat ∧ g.difficulty.toNat < 128) ∧
      (bigU64 g.nonce).reverse = bigU64 g.nonce := by
  have hbuffer : g.stateBuffer = some { txn := some {} } := by rw [Genesis.stateBuffer, halloc]
  refine roundTrips_of_stateBuffer hbuffer rfl fun tables htables a => ?_
  have hstores : Stores noWorld tables.plainState := by
    rw [htables]
    exact stores_empty
  rw [hstores.readAccount, halloc]
  rfl

/-- The tables hold what was described exactly if the difficulty is a single byte of RLP, the nonce
reads the same in both directions, and the allocation is not an empty one. -/
theorem roundTrips_iff (keccak : Bytes → Bytes32) (g : Genesis) :
    RoundTrips keccak g ↔ (0 < g.difficulty.toNat ∧ g.difficulty.toNat < 128) ∧
      (bigU64 g.nonce).reverse = bigU64 g.nonce ∧ g.alloc ≠ some ∅ := by
  cases halloc : g.alloc with
  | none =>
    rw [roundTrips_of_alloc_none halloc]
    simp
  | some alloc =>
    by_cases hempty : alloc = ∅
    · refine iff_of_false ?_ fun h => h.2.2 (congrArg some hempty)
      rintro ⟨header, db, hinit, -⟩
      have hnone : g.stateBuffer = none := by
        rw [Genesis.stateBuffer, halloc, hempty]
        exact writeAllocations_empty
      rw [initializeWithGenesis, hnone] at hinit
      cases hinit
    · have hbuffer : g.stateBuffer = some (allocate alloc).writeToDb := by
        rw [Genesis.stateBuffer, halloc]
        exact writeAllocations_eq hempty
      have htxn : (allocate alloc).writeToDb.txn = some ((allocate alloc).flush {}) := by
        have htxn : (allocate alloc).txn = some {} := txn_allocate alloc
        rw [Buffer.writeToDb, htxn]
        rfl
      rw [roundTrips_of_stateBuffer hbuffer htxn fun tables htables a => ?_]
      · simp [hempty]
      · rw [readAccount_allocate alloc htables, halloc]
        rfl

/-- The numbers of the main chain. The lowest byte of the difficulty is zero, so that nothing of it is
stored. -/
def mainGenesis : Genesis :=
  ⟨0x400000000, 0x42, 5000, 0, ⟨[], by norm_num⟩, none, none, []⟩

theorem not_roundTrips : ¬∃ keccak : Bytes → Bytes32, ∀ g, RoundTrips keccak g := by
  rintro ⟨keccak, h⟩
  have hnumbers := (roundTrips_of_alloc_none rfl).mp (h mainGenesis)
  exact absurd hnumbers.1.2 (by decide)

end RoundTrips

end Silkworm.Db
