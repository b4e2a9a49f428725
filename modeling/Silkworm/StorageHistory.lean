import Silkworm.HistoryRounds

/-!
# The history of slots

A slot is indexed under its address and location up to the first zero, while it is read under all of
them. So no slot that was changed is found under its key, and the history of slots is correct just
for blocks that change none.
-/

namespace Silkworm.Db
open BigEndian SortedTables Etl MemoryBuffer

/-- Blocks are executed in batches, and the index of slots is built from scratch. -/
def storageHistory (r : Roaring) (full : Bool) (tables : Tables)
    (batches : List (List ExecutedBlock)) : Option Database :=
  let tables := executeBatches tables batches
  (historyIndex r true full (fun _ => false) tables.plainStorageChangeSet {}).map (Database.mk tables)

/-- The index has every slot that was changed under its address and location, and slots are read as
they were at the beginning of a block. -/
structure StorageHistoryCorrect (r : Roaring) (w : World) (blocks : List ExecutedBlock)
    (x : Database) : Prop where
  keys : ∀ (n : Uint64) (a : Address) (i : Uint64) (location : Bytes32) (bytes : Bytes),
    (storageChangeKey n a i, location.val ++ bytes) ∈ x.tables.plainStorageChangeSet.entries →
    ∃ e ∈ x.history.index.entries, ∃ suffix, e.1 = chunkIndex (a.val ++ location.val) suffix
  reads : ∀ (a : Address) (n : Uint64) (location : Bytes32) (account : Account),
    (worldAt w blocks n.toNat).account a = some account →
    readStorageAt r x.tables x.history.index a account.incarnation location n =
      some ((worldAt w blocks n.toNat).storage a account.incarnation location)

def ChangesNoSlot (block : ExecutedBlock) : Prop :=
  ∀ a i location initial current, .storage a i location initial current ∈ block.2.updates →
    current = initial

section Keys

/-- A key of the index for slots has less than an address and a location. -/
theorem length_compositeKey_lt {e : Entry} {key : Bytes} (h : compositeKey true e = some key) :
    key.length < kAddressLength + kHashLength := by
  rw [compositeKey, if_pos rfl] at h
  dsimp only at h
  generalize hl : (e.1.drop 8).take kAddressLength ++ e.2.take kHashLength = l at h
  have hlen : l.length ≤ kAddressLength + kHashLength := by
    rw [← hl, List.length_append, List.length_take, List.length_take]
    omega
  split_ifs at h
  rename_i hzero
  cases h
  refine lt_of_lt_of_le (lt_of_le_of_ne (List.takeWhile_prefix _).length_le fun heq => ?_) hlen
  -- nothing is left behind only if there is no zero
  have hall := (List.takeWhile_prefix (p := fun x : UInt8 => decide (x ≠ 0)) (l := l)).eq_of_length heq
  rw [List.takeWhile_eq_self_iff] at hall
  simpa using hall 0 hzero

variable {r : Roaring} {P : Bytes → Prop}

/-- The keys that are in the buffer or were collected. -/
structure KeysSatisfy (P : Bytes → Prop) (x : Extraction) : Prop where
  bitmaps : ∀ key s, x.bitmaps.find key = some s → P key
  collected : ∀ e ∈ x.collected, P e.1

theorem KeysSatisfy.collect {x : Extraction} (h : KeysSatisfy P x) : KeysSatisfy P (x.collect r) := by
  refine ⟨fun key s hf => ?_, fun e he => ?_⟩
  · cases hf
  · rcases List.mem_append.mp he with he | he
    · exact h.collected e he
    · obtain ⟨⟨key, s⟩, hm, rfl⟩ := List.mem_map.mp he
      exact h.bitmaps key s (HashMap.mem_toList.mp hm)

theorem KeysSatisfy.extractChange {storage : Bool}
    (hP : ∀ e key, compositeKey storage e = some key → P key) {overflows : Extraction → Bool}
    {x x' : Extraction} (h : KeysSatisfy P x) {e : Entry}
    (hstep : extractChange r storage overflows x e = some x') : KeysSatisfy P x' := by
  obtain ⟨key, hkey, hstep⟩ := Option.bind_eq_some_iff.mp hstep
  have hadded : KeysSatisfy P
      { x with
        bitmaps := x.bitmaps.set key (insert (ofBigEndian (e.1.take 8)) (x.bitmaps.findD key ∅))
        allocatedSpace := x.allocatedSpace + 8
        blockNumber := ofBigEndian (e.1.take 8) } := by
    refine ⟨fun key' s hf => ?_, h.collected⟩
    dsimp only at hf
    rw [HashMap.find_set] at hf
    split_ifs at hf with hk
    · rw [hk]
      exact hP e key hkey
    · exact h.bitmaps key' s hf
  dsimp only at hstep
  split_ifs at hstep
  · cases hstep
    exact hadded.collect
  · cases hstep
    exact hadded

theorem keysSatisfy_extract {storage : Bool}
    (hP : ∀ e key, compositeKey storage e = some key → P key) {overflows : Extraction → Bool}
    {l : List Entry} {x : Extraction} (h : extract r storage overflows l = some x) :
    KeysSatisfy P x := by
  have hfold {l : List Entry} {x x' : Extraction} (hx : KeysSatisfy P x)
      (h : l.foldlM (extractChange r storage overflows) x = some x') : KeysSatisfy P x' := by
    induction l generalizing x with
    | nil =>
      cases h
      exact hx
    | cons e l ih =>
      rw [List.foldlM_cons] at h
      obtain ⟨x₁, hstep, hrest⟩ := Option.bind_eq_some_iff.mp h
      exact ih (hx.extractChange hP hstep) hrest
  obtain ⟨x', hrun, rfl⟩ := Option.map_eq_some_iff.mp h
  refine (hfold ⟨fun key s hf => ?_, fun e he => ?_⟩ hrun).collect
  · cases hf
  · cases he

/-- Only chunks of keys that satisfy a property are put into the index. -/
def ChunksOf (P : Bytes → Prop) (t : PlainTable) : Prop :=
  ∀ e ∈ t.entries, ∃ key suffix, P key ∧ e.1 = chunkIndex key suffix

theorem ChunksOf.putChunks {append : Bool} {key : Bytes} (hkey : P key) {cuts : ℕ} {bm : Finset ℕ}
    {t t' : PlainTable} (ht : ChunksOf P t) (h : putChunks r append key cuts bm t = some t') :
    ChunksOf P t' := by
  induction cuts generalizing bm t with
  | zero =>
    rw [Db.putChunks] at h
    split_ifs at h
    cases h
    exact ht
  | succ cuts ih =>
    rw [Db.putChunks] at h
    split_ifs at h with hempty
    · cases h
      exact ht
    · obtain ⟨t₁, hput, hrest⟩ := Option.bind_eq_some_iff.mp h
      refine ih (fun e he => ?_) hrest
      have hentries : ∀ suffix data, t₁ = t.put (chunkIndex key suffix) data →
          ∃ key suffix, P key ∧ e.1 = chunkIndex key suffix := by
        rintro suffix data rfl
        rcases (PlainTable.mem_put t).mp he with rfl | ⟨he, -⟩
        · exact ⟨key, suffix, hkey, rfl⟩
        · exact ht e he
      cases append with
      | false => exact hentries _ _ (Option.some.inj hput).symm
      | true =>
        rw [putChunk, if_pos rfl, putAppend] at hput
        split_ifs at hput <;> exact hentries _ _ (Option.some.inj hput).symm

theorem ChunksOf.loadBitmap {append : Bool} {e : Entry} (he : P e.1) {t t' : PlainTable}
    (ht : ChunksOf P t) (h : loadBitmap r append t e = some t') : ChunksOf P t' := by
  obtain ⟨bm, -, h⟩ := Option.bind_eq_some_iff.mp h
  cases hlast : t.get (chunkIndex e.1 kLastChunk) with
  | none =>
    rw [hlast] at h
    exact ht.putChunks he h
  | some bytes =>
    rw [hlast] at h
    obtain ⟨previous, -, h⟩ := Option.bind_eq_some_iff.mp h
    exact ht.putChunks he h

theorem ChunksOf.foldlM {append : Bool} {l : List Entry} (hl : ∀ e ∈ l, P e.1) {t t' : PlainTable}
    (ht : ChunksOf P t) (h : l.foldlM (Db.loadBitmap r append) t = some t') : ChunksOf P t' := by
  induction l generalizing t with
  | nil =>
    cases h
    exact ht
  | cons e l ih =>
    obtain ⟨he, hl⟩ := List.forall_mem_cons.mp hl
    rw [List.foldlM_cons] at h
    obtain ⟨t₁, hstep, hrest⟩ := Option.bind_eq_some_iff.mp h
    exact ih hl (ht.loadBitmap he hstep) hrest

/-- The keys of an index that is built from scratch. -/
theorem chunksOf_historyIndex {storage full : Bool}
    (hP : ∀ e key, compositeKey storage e = some key → P key) {overflows : Extraction → Bool}
    {changeset : Table} {h' : History}
    (h : historyIndex r storage full overflows changeset {} = some h') : ChunksOf P h'.index := by
  have hnone : ChunksOf P {} := fun e he => absurd he List.not_mem_nil
  obtain ⟨x, hextract, h⟩ := Option.bind_eq_some_iff.mp h
  by_cases hempty : x.collected = []
  · rw [if_pos hempty] at h
    cases h
    exact hnone
  · rw [if_neg hempty] at h
    obtain ⟨index, hload, h⟩ := Option.bind_eq_some_iff.mp h
    cases h
    have hkeys := (keysSatisfy_extract hP hextract).collected
    refine ChunksOf.foldlM (fun e he => ?_) ?_ hload
    · rw [(sortedEntries_perm _).mem_iff] at he
      exact hkeys e he
    · cases full <;> exact hnone

end Keys

section Worlds

variable {w : World}

theorem storage_foldl_of_unchanged {us : List Update}
    {storage : Address → Uint64 → Bytes32 → Bytes32} (hw : w.storage = storage)
    (h : ∀ a i location initial current, .storage a i location initial current ∈ us →
      current = storage a i location) : (us.foldl Update.onWorld w).storage = storage := by
  induction us generalizing w with
  | nil => exact hw
  | cons u us ih =>
    refine ih ?_ fun a i location initial current hm => h a i location initial current
      (List.mem_cons_of_mem _ hm)
    cases u with
    | account a initial current => exact hw
    | code a i codeHash bytes => exact hw
    | storage a i location initial current =>
      funext a' i' location'
      rw [Update.onWorld]
      dsimp only
      split_ifs with heq
      · cases heq
        exact h a i location initial current List.mem_cons_self
      · rw [hw]

/-- No block leaves another value in a slot than the first one found. -/
theorem storage_eq_of_unchanged {blocks : List ExecutedBlock} (hf : Faithful w blocks)
    (h : ∀ block ∈ blocks, ChangesNoSlot block) : ∀ block ∈ blocks,
    ∀ a i location initial current, .storage a i location initial current ∈ block.2.updates →
      current = w.storage a i location := by
  induction blocks generalizing w with
  | nil => exact fun block hb => absurd hb List.not_mem_nil
  | cons block blocks ih =>
    obtain ⟨hblock, hblocks⟩ := List.forall_mem_cons.mp h
    have hsame : ∀ a i location initial current,
        .storage a i location initial current ∈ block.2.updates →
        current = w.storage a i location := by
      intro a i location initial current hm
      have hinitial : initial = w.storage a i location := hf.1 _ hm
      exact (hblock a i location initial current hm).trans hinitial
    have hstorage : (afterBlock w block).storage = w.storage := storage_foldl_of_unchanged rfl hsame
    have hrest := ih hf.2 hblocks
    rw [hstorage] at hrest
    exact List.forall_mem_cons.mpr ⟨hsame, hrest⟩

theorem storage_afterBlocks {blocks : List ExecutedBlock}
    {storage : Address → Uint64 → Bytes32 → Bytes32} (hw : w.storage = storage)
    (h : ∀ block ∈ blocks, ∀ a i location initial current,
      .storage a i location initial current ∈ block.2.updates → current = storage a i location) :
    (afterBlocks w blocks).storage = storage := by
  induction blocks generalizing w with
  | nil => exact hw
  | cons block blocks ih =>
    obtain ⟨hblock, hblocks⟩ := List.forall_mem_cons.mp h
    exact ih (storage_foldl_of_unchanged hw hblock) hblocks

end Worlds

section Changes

variable {n : Uint64} {a : Address} {i : Uint64} {location : Bytes32}

theorem Records.slot_update {records : Records} {u : Update}
    (hu : ∀ a i location initial current, u = .storage a i location initial current →
      current = initial) :
    (records.update u).change n (.slot a i location) = records.change n (.slot a i location) := by
  cases u with
  | account a' initial current =>
    rw [Records.update]
    split_ifs
    · rfl
    · exact if_neg fun heq => by cases heq.2
  | code a' i' codeHash bytes => rfl
  | storage a' i' location' initial current =>
    rw [Records.update, if_pos (hu a' i' location' initial current rfl)]

theorem Buffer.slot_execute {b : Buffer} {blocks : List ExecutedBlock}
    (h : ∀ block ∈ blocks, ChangesNoSlot block) :
    (b.execute blocks).records.change n (.slot a i location) =
      b.records.change n (.slot a i location) := by
  have hfold {us : List Update} {records : Records}
      (hus : ∀ a i location initial current, .storage a i location initial current ∈ us →
        current = initial) :
      (us.foldl Records.update records).change n (.slot a i location) =
        records.change n (.slot a i location) := by
    induction us generalizing records with
    | nil => rfl
    | cons u us ih =>
      refine (ih fun a i location initial current hm => hus a i location initial current
        (List.mem_cons_of_mem _ hm)).trans (Records.slot_update ?_)
      rintro a i location initial current rfl
      exact hus a i location initial current List.mem_cons_self
  induction blocks generalizing b with
  | nil => rfl
  | cons block blocks ih =>
    obtain ⟨hblock, hblocks⟩ := List.forall_mem_cons.mp h
    refine (ih hblocks).trans ?_
    rw [records_writeToDb]
    exact hfold hblock

/-- No change of a slot is recorded. -/
theorem plainStorageChangeSet_executeBatches {tables : Tables}
    (hempty : tables.plainStorageChangeSet.entries = []) {batches : List (List ExecutedBlock)}
    (h : ∀ block ∈ batches.flatten, ChangesNoSlot block) :
    (executeBatches tables batches).plainStorageChangeSet.entries = [] := by
  induction batches generalizing tables with
  | nil => exact hempty
  | cons batch batches ih =>
    rw [List.flatten_cons] at h
    refine ih ?_ fun block hb => h block (List.mem_append_right _ hb)
    rw [List.eq_nil_iff_forall_not_mem]
    intro e he
    rcases (mem_storageChanges_flush ..).mp he with hold | ⟨n, k, bytes, hk, hentry⟩
    · rw [hempty] at hold
      cases hold
    · cases k with
      | account a => cases hentry
      | slot a i location =>
        rw [Buffer.slot_execute fun block hb => h block (List.mem_append_left _ hb)] at hk
        cases hk

end Changes

section Stage

variable {r : Roaring} {tables : Tables} {w : World} (hstores : Stores w tables.plainState)
  (hempty : tables.plainStorageChangeSet.entries = []) {batches : List (List ExecutedBlock)}
  (hf : Faithful w batches.flatten)

include hstores hempty hf

/-- The history of slots is correct for the blocks that change no slot. -/
theorem storageHistory_correct_iff (full : Bool) :
    (∃ x, storageHistory r full tables batches = some x ∧
      StorageHistoryCorrect r w batches.flatten x) ↔
    ∀ block ∈ batches.flatten, ChangesNoSlot block := by
  constructor
  · rintro ⟨x, hrun, hx⟩ block hb a i location initial current hm
    by_contra hne
    obtain ⟨h', hindex, rfl⟩ := Option.map_eq_some_iff.mp hrun
    obtain ⟨bytes, hbytes⟩ : ∃ bytes, ∀ e,
        storageChangeEntry block.1 (.slot a i location) bytes = some e →
        e ∈ (executeBatches tables batches).plainStorageChangeSet.entries :=
      exists_mem_of_changes mem_storageChanges_flush hb hm hne rfl
    obtain ⟨e, he, suffix, hkey⟩ := hx.keys block.1 a i location bytes (hbytes _ rfl)
    -- the keys of the index are too short
    obtain ⟨key, suffix', hshort, hkey'⟩ := chunksOf_historyIndex
      (fun e key hk => length_compositeKey_lt hk) hindex e he
    have hlen := congrArg List.length (hkey.symm.trans hkey')
    rw [chunkIndex, chunkIndex, List.length_append, List.length_append, List.length_append,
      length_bigU64, length_bigU64, a.property, location.property] at hlen
    omega
  · intro h
    have hnone := plainStorageChangeSet_executeBatches hempty h
    have hsame := storage_eq_of_unchanged hf h
    refine ⟨⟨executeBatches tables batches, {}⟩, ?_, ⟨fun n a i location bytes hm => ?_, ?_⟩⟩
    · rw [storageHistory, historyIndex]
      rw [hnone]
      rfl
    · dsimp only at hm
      rw [hnone] at hm
      cases hm
    · intro a n location account _
      have hread : readStorageAt r (executeBatches tables batches) {} a account.incarnation location n =
          readStorage (executeBatches tables batches) a account.incarnation location := rfl
      have hat : (worldAt w batches.flatten n.toNat).storage = w.storage :=
        storage_afterBlocks rfl fun block hb => hsame block (List.mem_filter.mp hb).1
      dsimp only
      rw [hread, (hstores.executeBatches hf).readStorage, hat, storage_afterBlocks rfl hsame]

end Stage

section Examples

/-- The hash of the code `PUSH1 0 CALLDATALOAD PUSH1 0 SSTORE`. -/
def storeHash : Bytes32 :=
  ⟨[0x7a, 0x34, 0xa6, 0xba, 0xbe, 0x71, 0xe4, 0x8a, 0xa6, 0xf3, 0x3a, 0x15, 0x95, 0x1a, 0xe9, 0x4f,
    0x5f, 0xc8, 0x29, 0x6c, 0x7d, 0x50, 0x79, 0x38, 0x09, 0xef, 0xd8, 0x0c, 0xd0, 0x13, 0x8a, 0x98], rfl⟩

def storeAddress : Address := FixedBytes.replicate 20 1

def storeAccount : Account := { nonce := 1, incarnation := 1, codeHash := storeHash }

def word (b : UInt8) : Bytes32 := FixedBytes.ofByte 31 b

def storeCreated : IntraBlockState where
  objects := HashMap.set ∅ storeAddress { initial := none, current := some storeAccount }
  code := HashMap.set ∅ storeHash [0x60, 0x00, 0x35, 0x60, 0x00, 0x55]

/-- A block that changes the first slot of the contract. -/
def slotChanged (initial current : UInt8) : IntraBlockState where
  objects := HashMap.set ∅ storeAddress
    { initial := some storeAccount, current := some storeAccount }
  storage := HashMap.set ∅ storeAddress
    { committed := HashMap.set ∅ default { initial := word initial, original := word current } }

/-- The first slot is changed in two blocks. -/
def slotBlocks : List ExecutedBlock :=
  [(1, storeCreated), (2, slotChanged 0 1), (3, slotChanged 1 2)]

theorem faithful_slotBlocks : Faithful noWorld slotBlocks := by
  have hcreated : storeCreated.updates = [.account storeAddress none (some storeAccount),
      .code storeAddress 1 storeHash [0x60, 0x00, 0x35, 0x60, 0x00, 0x55]] := by
    rfl
  have hchanged (initial current : UInt8) : (slotChanged initial current).updates =
      [.storage storeAddress 1 default (word initial) (word current),
        .account storeAddress (some storeAccount) (some storeAccount)] := by
    rfl
  refine ⟨fun u hu => ?_, fun u hu => ?_, fun u hu => ?_, trivial⟩
  · rw [hcreated] at hu
    rcases List.mem_cons.mp hu with rfl | hu
    · rfl
    · cases List.mem_singleton.mp hu
      trivial
  · rw [hchanged] at hu
    rcases List.mem_cons.mp hu with rfl | hu
    · rfl
    · cases List.mem_singleton.mp hu
      rfl
  · rw [hchanged] at hu
    rcases List.mem_cons.mp hu with rfl | hu
    · rfl
    · cases List.mem_singleton.mp hu
      rfl

def slotExtraction : Extraction where
  blockNumber := 3
  collected := [(storeAddress.val, arrayBytes [2, 3])]

/-- The slot is indexed under its address alone. -/
def slotIndex : PlainTable :=
  ({} : PlainTable).put (chunkIndex storeAddress.val kLastChunk) (arrayBytes [2, 3])

theorem storageHistory_slotBlocks : storageHistory (arrayBitmaps [2, 3]) false {} [slotBlocks] =
    some ⟨executeBatches {} [slotBlocks], slotIndex, 3⟩ := by
  have hindex {changeset : Table}
      (h : changeset = (executeBatches {} [slotBlocks]).plainStorageChangeSet) :
      historyIndex (arrayBitmaps [2, 3]) true false (fun _ => false) changeset {} =
        some ⟨slotIndex, 3⟩ := by
    have hextract : extract (arrayBitmaps [2, 3]) true (fun _ => false)
        (changeset.entries.dropWhile fun e =>
          e.1 < bigU64 (BitVec.ofNat 64 (startOf false {}).progress)) = some slotExtraction := by
      rw [h]
      rfl
    refine historyIndex_eq_some hextract (List.cons_ne_nil _ _) ?_
    rw [slotExtraction, sortedEntries, List.mergeSort_singleton]
    rfl
  exact congrArg (Option.map _) (hindex rfl)

/-- At the beginning of the third block the slot was one, and two is read. -/
theorem not_storageHistory_correct :
    Stores noWorld ({} : Tables).plainState ∧
    ({} : Tables).plainStorageChangeSet.entries = [] ∧
    Faithful noWorld [slotBlocks].flatten ∧
    ∃ x, storageHistory (arrayBitmaps [2, 3]) false {} [slotBlocks] = some x ∧
      (worldAt noWorld slotBlocks 3).account storeAddress = some storeAccount ∧
      (worldAt noWorld slotBlocks 3).storage storeAddress 1 default = word 1 ∧
      readStorageAt (arrayBitmaps [2, 3]) x.tables x.history.index storeAddress 1 default 3 =
        some (word 2) ∧
      ¬StorageHistoryCorrect (arrayBitmaps [2, 3]) noWorld slotBlocks x := by
  have haccount : (worldAt noWorld slotBlocks 3).account storeAddress = some storeAccount := by
    rfl
  have hslot : (worldAt noWorld slotBlocks 3).storage storeAddress 1 default = word 1 := by
    rfl
  have hread : readStorageAt (arrayBitmaps [2, 3]) (executeBatches {} [slotBlocks]) slotIndex
      storeAddress 1 default 3 = some (word 2) := by
    have hcurrent : (afterBlocks noWorld [slotBlocks].flatten).storage storeAddress 1 default =
        word 2 := by
      rfl
    have hstores : Stores noWorld ({} : Tables).plainState := stores_empty
    have hf : Faithful noWorld [slotBlocks].flatten := faithful_slotBlocks
    have hhistory : historicalStorage (arrayBitmaps [2, 3]) (executeBatches {} [slotBlocks]) slotIndex
        storeAddress 1 default 3 = some none := by
      rfl
    rw [readStorageAt, hhistory, Option.bind_eq_bind, Option.bind_some, ← hcurrent]
    exact (hstores.executeBatches hf).readStorage storeAddress 1 default
  refine ⟨stores_empty, rfl, faithful_slotBlocks, _, storageHistory_slotBlocks, haccount, hslot, hread,
    fun h => ?_⟩
  have hcorrect := h.reads storeAddress 3 default storeAccount haccount
  have hthree : (3 : Uint64).toNat = 3 := rfl
  have hone : storeAccount.incarnation = 1 := rfl
  rw [hthree, hone, hslot, hread] at hcorrect
  exact absurd hcorrect (by decide)

/-- Blocks that only create the contract. -/
theorem storageHistory_correct_created :
    (∃ x, storageHistory (arrayBitmaps [2, 3]) false {} [[(1, storeCreated)]] = some x ∧
      StorageHistoryCorrect (arrayBitmaps [2, 3]) noWorld [[((1 : Uint64), storeCreated)]].flatten x) := by
  have hupdates : storeCreated.updates = [.account storeAddress none (some storeAccount),
      .code storeAddress 1 storeHash [0x60, 0x00, 0x35, 0x60, 0x00, 0x55]] := by
    rfl
  have hf : Faithful noWorld [[((1 : Uint64), storeCreated)]].flatten :=
    ⟨faithful_slotBlocks.1, trivial⟩
  refine (storageHistory_correct_iff stores_empty rfl hf false).mpr ?_
  intro block hb a i location initial current hm
  cases List.mem_singleton.mp hb
  rw [hupdates] at hm
  rcases List.mem_cons.mp hm with h | hm
  · cases h
  · cases List.mem_singleton.mp hm

end Examples

end Silkworm.Db
