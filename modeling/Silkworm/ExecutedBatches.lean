import Silkworm.RecordedChanges

/-!
# Batches of blocks

Blocks are executed in batches, each of which is flushed into the tables before the next. A
change set has an entry for every change, and the entries are the values that the blocks found.
-/

namespace Silkworm.Db
open SortedTables MemoryBuffer

/-- A batch of blocks is written to a new buffer, which is flushed into the tables. -/
def executeBatch (tables : Tables) (batch : List ExecutedBlock) : Tables :=
  (({ txn := some tables } : Buffer).execute batch).flush tables

def executeBatches (tables : Tables) (batches : List (List ExecutedBlock)) : Tables :=
  batches.foldl executeBatch tables

section Batches

variable {tables : Tables} {batches : List (List ExecutedBlock)} {e : Entry}

section Sets

variable {set : Tables → Table} {entry : Uint64 → ChangeKey → Bytes → Option Entry}
  (hflush : ∀ (b : Buffer) tables e, e ∈ (set (b.flush tables)).entries ↔
    e ∈ (set tables).entries ∨ ∃ n k bytes,
      b.records.change n k = some bytes ∧ entry n k bytes = some e)

include hflush

/-- A value in a change set was reported by an update of the block. -/
theorem exists_update_of_mem (h : e ∈ (set (executeBatches tables batches)).entries) :
    e ∈ (set tables).entries ∨ ∃ block ∈ batches.flatten, ∃ u ∈ block.2.updates, ∃ k bytes,
      u.change = some (k, bytes) ∧ entry block.1 k bytes = some e := by
  induction batches generalizing tables with
  | nil => exact .inl h
  | cons batch batches ih =>
    rcases ih h with h | ⟨block, hb, h⟩
    · rcases (hflush ..).mp h with h | ⟨n, k, bytes, hc, he⟩
      · exact .inl h
      · rcases Buffer.change_execute hc with hc | ⟨block, hb, rfl, u, hu, hc⟩
        · cases k <;> cases hc
        · exact .inr ⟨block, List.mem_append_left _ hb, u, hu, k, bytes, hc, he⟩
    · exact .inr ⟨block, List.mem_append_right _ hb, h⟩

theorem mem_executeBatches (h : e ∈ (set tables).entries) (batches : List (List ExecutedBlock)) :
    e ∈ (set (executeBatches tables batches)).entries := by
  induction batches generalizing tables with
  | nil => exact h
  | cons batch batches ih => exact ih ((hflush ..).mpr (.inl h))

/-- There is a value for every change. -/
theorem exists_mem_of_changes {block : ExecutedBlock} (hb : block ∈ batches.flatten) {u : Update}
    (hm : u ∈ block.2.updates) (hc : u.Changes) {k : ChangeKey} {bytes : Bytes}
    (hu : u.change = some (k, bytes)) :
    ∃ bytes, ∀ e, entry block.1 k bytes = some e →
      e ∈ (set (executeBatches tables batches)).entries := by
  induction batches generalizing tables with
  | nil => cases hb
  | cons batch batches ih =>
    rcases List.mem_append.mp hb with hb | hb
    · obtain ⟨bytes, hrec⟩ := Option.ne_none_iff_exists'.mp (Buffer.change_execute_of_changes
        (b := { txn := some tables }) hb hm hc hu)
      exact ⟨bytes, fun e he => mem_executeBatches hflush
        ((hflush ..).mpr (.inr ⟨_, k, bytes, hrec, he⟩)) batches⟩
    · exact ih hb

end Sets

def accountChangeEntry (n : Uint64) : ChangeKey → Bytes → Option Entry
  | .account a, bytes => some (blockKey n, a.val ++ bytes)
  | .slot .., _ => none

def storageChangeEntry (n : Uint64) : ChangeKey → Bytes → Option Entry
  | .account _, _ => none
  | .slot a i location, bytes => some (storageChangeKey n a i, location.val ++ bytes)

theorem mem_accountChanges_flush (b : Buffer) (tables : Tables) (e : Entry) :
    e ∈ (b.flush tables).plainAccountChangeSet.entries ↔
      e ∈ tables.plainAccountChangeSet.entries ∨ ∃ n k bytes,
        b.records.change n k = some bytes ∧ accountChangeEntry n k bytes = some e := by
  rw [mem_plainAccountChangeSet_flush]
  refine or_congr_right ⟨?_, ?_⟩
  · rintro ⟨n, a, bytes, h, rfl⟩
    exact ⟨n, .account a, bytes, h, rfl⟩
  · rintro ⟨n, k, bytes, h, he⟩
    cases k with
    | account a => exact ⟨n, a, bytes, h, (Option.some.inj he).symm⟩
    | slot a i location => cases he

theorem mem_storageChanges_flush (b : Buffer) (tables : Tables) (e : Entry) :
    e ∈ (b.flush tables).plainStorageChangeSet.entries ↔
      e ∈ tables.plainStorageChangeSet.entries ∨ ∃ n k bytes,
        b.records.change n k = some bytes ∧ storageChangeEntry n k bytes = some e := by
  rw [mem_plainStorageChangeSet_flush]
  refine or_congr_right ⟨?_, ?_⟩
  · rintro ⟨n, a, i, location, bytes, h, rfl⟩
    exact ⟨n, .slot a i location, bytes, h, rfl⟩
  · rintro ⟨n, k, bytes, h, he⟩
    cases k with
    | account a => cases he
    | slot a i location => exact ⟨n, a, i, location, bytes, h, (Option.some.inj he).symm⟩

end Batches

/-- The tables have the formats in which a buffer writes. -/
structure WellFormed (tables : Tables) : Prop where
  state : ∃ w, Stores w tables.plainState
  code : ∀ e ∈ tables.plainContractCode.entries, ∃ (a : Address) (i : Uint64) (codeHash : Bytes32),
    e = (storagePrefix a.val i, codeHash.val)
  accountChanges : ∀ e ∈ tables.plainAccountChangeSet.entries,
    ∃ (n : Uint64) (a : Address) (bytes : Bytes), e = (blockKey n, a.val ++ bytes)
  storageChanges : ∀ e ∈ tables.plainStorageChangeSet.entries,
    ∃ (n : Uint64) (a : Address) (i : Uint64) (location : Bytes32) (bytes : Bytes),
      e = (storageChangeKey n a i, location.val ++ bytes)

theorem wellFormed_empty : WellFormed {} := by
  refine ⟨⟨noWorld, stores_empty⟩, ?_, ?_, ?_⟩ <;> exact fun e he => by cases he

section States

variable {tables : Tables}

theorem exists_code_of_find {batch : List ExecutedBlock} {key : Bytes} {codeHash : Bytes32}
    (h : (({ txn := some tables } : Buffer).execute batch).maps.storagePrefixToCodeHash.find key =
      some codeHash) :
    ∃ block ∈ batch, ∃ a i codeHash bytes,
      .code a i codeHash bytes ∈ block.2.updates ∧ key = storagePrefix a.val i := by
  apply Buffer.exists_code_change
  rw [h]
  exact Option.some_ne_none _

theorem WellFormed.executeBatch (h : WellFormed tables) (batch : List ExecutedBlock) :
    WellFormed (executeBatch tables batch) where
  state := by
    obtain ⟨w, hw⟩ := h.state
    exact ⟨_, Buffer.stores_writeToStateTable _ hw⟩
  code e he := by
    rw [← PlainTable.get_eq_some, Db.executeBatch, get_plainContractCode_flush, Option.or_eq_some_iff,
      Option.map_eq_some_iff] at he
    rcases he with ⟨codeHash, hf, hv⟩ | ⟨-, hold⟩
    · obtain ⟨block, -, a, i, -, -, -, hkey⟩ := exists_code_of_find hf
      exact ⟨a, i, codeHash, Prod.ext hkey hv.symm⟩
    · exact h.code e (PlainTable.get_eq_some.mp hold)
  accountChanges e he := by
    rcases mem_plainAccountChangeSet_flush.mp he with hold | ⟨n, a, bytes, -, he⟩
    · exact h.accountChanges e hold
    · exact ⟨n, a, bytes, he⟩
  storageChanges e he := by
    rcases mem_plainStorageChangeSet_flush.mp he with hold | ⟨n, a, i, location, bytes, -, he⟩
    · exact h.storageChanges e hold
    · exact ⟨n, a, i, location, bytes, he⟩

theorem WellFormed.executeBatches (h : WellFormed tables) (batches : List (List ExecutedBlock)) :
    WellFormed (executeBatches tables batches) := by
  induction batches generalizing tables with
  | nil => exact h
  | cons batch batches ih => exact ih (h.executeBatch batch)

/-- An account whose entry is another one was changed. -/
theorem WellFormed.exists_account_change (h : WellFormed tables)
    {batches : List (List ExecutedBlock)} {a : Address}
    (hne : (Db.executeBatches tables batches).plainState.get a.val ≠ tables.plainState.get a.val) :
    ∃ block ∈ batches.flatten, ∃ initial current,
      .account a initial current ∈ block.2.updates ∧ current ≠ initial := by
  induction batches generalizing tables with
  | nil => exact absurd rfl hne
  | cons batch batches ih =>
    by_cases hbatch : (Db.executeBatch tables batch).plainState.get a.val = tables.plainState.get a.val
    · rw [← hbatch] at hne
      obtain ⟨block, hb, hchange⟩ := ih (h.executeBatch batch) hne
      exact ⟨block, List.mem_append_right _ hb, hchange⟩
    · obtain ⟨w, hw⟩ := h.state
      have hfind : (({ txn := some tables } : Buffer).execute batch).maps.accounts.find a ≠ none := by
        intro hnone
        apply hbatch
        rw [Db.executeBatch, hw.get]
        refine (Stores.get (Buffer.stores_writeToStateTable _ hw) a).trans ?_
        exact congrArg _ (congrArg (fun x => x.getD (w.account a)) hnone)
      obtain ⟨block, hb, hchange⟩ := Buffer.exists_account_change hfind
      exact ⟨block, List.mem_append_left _ hb, hchange⟩

/-- A code hash that is another one was set. -/
theorem exists_code_change {batches : List (List ExecutedBlock)} {key : Bytes}
    (hne : (executeBatches tables batches).plainContractCode.get key ≠
      tables.plainContractCode.get key) :
    ∃ block ∈ batches.flatten, ∃ a i codeHash bytes,
      .code a i codeHash bytes ∈ block.2.updates ∧ key = storagePrefix a.val i := by
  induction batches generalizing tables with
  | nil => exact absurd rfl hne
  | cons batch batches ih =>
    by_cases hbatch : (executeBatch tables batch).plainContractCode.get key =
        tables.plainContractCode.get key
    · rw [← hbatch] at hne
      obtain ⟨block, hb, hchange⟩ := ih hne
      exact ⟨block, List.mem_append_right _ hb, hchange⟩
    · rw [executeBatch, get_plainContractCode_flush] at hbatch
      cases hf : (({ txn := some tables } : Buffer).execute batch).maps.storagePrefixToCodeHash.find
          key with
      | none =>
        rw [hf] at hbatch
        exact absurd rfl hbatch
      | some codeHash =>
        obtain ⟨block, hb, hchange⟩ := exists_code_of_find hf
        exact ⟨block, List.mem_append_left _ hb, hchange⟩

/-- What was put into a plain table stays there under its key. -/
theorem plainContractCode_ne_none {key : Bytes} (h : tables.plainContractCode.get key ≠ none)
    (batches : List (List ExecutedBlock)) :
    (executeBatches tables batches).plainContractCode.get key ≠ none := by
  induction batches generalizing tables with
  | nil => exact h
  | cons batch batches ih =>
    refine ih ?_
    rw [executeBatch, get_plainContractCode_flush, ne_eq, Option.or_eq_none_iff]
    exact fun hnone => h hnone.2

end States

section Worlds

/-- The world after a block. -/
def afterBlock (w : World) (block : ExecutedBlock) : World :=
  block.2.updates.foldl Update.onWorld w

def afterBlocks (w : World) (blocks : List ExecutedBlock) : World := blocks.foldl afterBlock w

/-- Every block starts with the accounts and the slots that are there. -/
def Faithful : World → List ExecutedBlock → Prop
  | _, [] => True
  | w, block :: blocks => (∀ u ∈ block.2.updates, u.Reports w) ∧ Faithful (afterBlock w block) blocks

theorem afterBlocks_append (w : World) (blocks blocks' : List ExecutedBlock) :
    afterBlocks w (blocks ++ blocks') = afterBlocks (afterBlocks w blocks) blocks' :=
  List.foldl_append

theorem faithful_append {w : World} {blocks blocks' : List ExecutedBlock} :
    Faithful w (blocks ++ blocks') ↔ Faithful w blocks ∧ Faithful (afterBlocks w blocks) blocks' := by
  induction blocks generalizing w with
  | nil => simp [Faithful, afterBlocks]
  | cons block blocks ih =>
    rw [List.cons_append, Faithful, Faithful, ih, and_assoc]
    rfl

theorem overlay_execute {b : Buffer} {w : World} {blocks : List ExecutedBlock}
    (h : Faithful (b.overlay w) blocks) :
    (b.execute blocks).overlay w = afterBlocks (b.overlay w) blocks := by
  induction blocks generalizing b with
  | nil => rfl
  | cons block blocks ih =>
    have hblock : (block.2.writeToDb block.1 b).1.overlay w = afterBlock (b.overlay w) block := by
      rw [block.2.writeToDb_fst]
      exact overlay_foldl (b := b.beginBlock block.1) (block.2.current_updates h.1)
    refine (ih ?_).trans ?_
    · rw [hblock]
      exact h.2
    · rw [hblock]
      rfl

variable {tables : Tables} {w : World}

theorem Stores.executeBatches (h : Stores w tables.plainState) {batches : List (List ExecutedBlock)}
    (hf : Faithful w batches.flatten) :
    Stores (afterBlocks w batches.flatten) (Db.executeBatches tables batches).plainState := by
  induction batches generalizing tables w with
  | nil => exact h
  | cons batch batches ih =>
    obtain ⟨hbatch, hrest⟩ := faithful_append.mp hf
    have hover : (({ txn := some tables } : Buffer).execute batch).overlay w = afterBlocks w batch :=
      overlay_execute (b := { txn := some tables }) hbatch
    have hstores := Buffer.stores_writeToStateTable
      (({ txn := some tables } : Buffer).execute batch) h
    rw [hover] at hstores
    rw [List.flatten_cons, afterBlocks_append]
    exact ih hstores hrest

end Worlds

end Silkworm.Db
