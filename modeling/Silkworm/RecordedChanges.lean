import Silkworm.BatchFlushes

/-!
# The changes that a buffer records

Of every block the buffer keeps the accounts and the slots as they were at the beginning of the
block. What was changed is among them, and all of them were reported by an update of the block.
-/

namespace Silkworm

/-- An account or a slot. -/
inductive ChangeKey
  | account (a : Address)
  | slot (a : Address) (incarnation : Uint64) (location : Bytes32)
  deriving DecidableEq

def encodedInitial (initial current : Option Account) : Bytes :=
  (initial.map fun account => account.encodeForStorage current.isSome).getD []

namespace Update

/-- What is recorded when the update is. -/
def change : Update → Option (ChangeKey × Bytes)
  | .account a initial current => some (.account a, encodedInitial initial current)
  | .code .. => none
  | .storage a incarnation location initial _ =>
    some (.slot a incarnation location, MemoryBuffer.zerolessView initial)

def Changes : Update → Prop
  | .account _ initial current => current ≠ initial
  | .code .. => False
  | .storage _ _ _ initial current => current ≠ initial

end Update

namespace Db
open SortedTables MemoryBuffer

/-- What has been recorded, and what decides whether an account is. -/
@[ext] structure Records where
  blockNumber : Uint64
  change : Uint64 → ChangeKey → Option Bytes
  changedStorage : Address → Bool

namespace Records

variable (r : Records)

def record (k : ChangeKey) (bytes : Bytes) : Records :=
  { r with change := fun n k' => if n = r.blockNumber ∧ k' = k then some bytes else r.change n k' }

/-- The effect of an update. An account is recorded, too, when a slot of it was changed. -/
def update : Update → Records
  | .account a initial current =>
    if current = initial ∧ current ≠ none ∧ r.changedStorage a = false then r
    else r.record (.account a) (encodedInitial initial current)
  | .code .. => r
  | .storage a i location initial current =>
    if current = initial then r
    else { r.record (.slot a i location) (zerolessView initial) with
      changedStorage := fun a' => decide (a' = a) || r.changedStorage a' }

section Steps

variable {r} {n : Uint64} {k : ChangeKey} {bytes : Bytes} {u : Update}

theorem blockNumber_update (u : Update) : (r.update u).blockNumber = r.blockNumber := by
  cases u with
  | account a initial current =>
    rw [update]
    split_ifs <;> rfl
  | code a i codeHash bytes => rfl
  | storage a i location initial current =>
    rw [update]
    split_ifs <;> rfl

/-- Either nothing is recorded, or what the update reports. -/
theorem change_update_cases (r : Records) (u : Update) :
    (¬u.Changes ∧ (r.update u).change = r.change) ∨
      ∃ k bytes, u.change = some (k, bytes) ∧ (r.update u).change = (r.record k bytes).change := by
  cases u with
  | account a initial current =>
    rw [update]
    split_ifs with h
    · exact .inl ⟨not_not.mpr h.1, rfl⟩
    · exact .inr ⟨_, _, rfl, rfl⟩
  | code a i codeHash bytes => exact .inl ⟨id, rfl⟩
  | storage a i location initial current =>
    rw [update]
    split_ifs with h
    · exact .inl ⟨not_not.mpr h, rfl⟩
    · exact .inr ⟨_, _, rfl, rfl⟩

theorem change_update (h : (r.update u).change n k = some bytes) :
    r.change n k = some bytes ∨ n = r.blockNumber ∧ u.change = some (k, bytes) := by
  rcases r.change_update_cases u with ⟨-, heq⟩ | ⟨k', bytes', hu, heq⟩
  · rw [heq] at h
    exact .inl h
  · rw [heq] at h
    simp only [record] at h
    split_ifs at h with hk
    · cases h
      exact .inr ⟨hk.1, hk.2 ▸ hu⟩
    · exact .inl h

theorem change_update_ne_none (h : r.change n k ≠ none) (u : Update) :
    (r.update u).change n k ≠ none := by
  rcases r.change_update_cases u with ⟨-, heq⟩ | ⟨k', bytes', -, heq⟩
  · rwa [heq]
  · rw [heq]
    simp only [record]
    split_ifs
    · simp
    · exact h

theorem change_update_of_changes (hc : u.Changes) (hu : u.change = some (k, bytes)) :
    (r.update u).change r.blockNumber k ≠ none := by
  rcases r.change_update_cases u with ⟨hn, -⟩ | ⟨k', bytes', hu', heq⟩
  · exact absurd hc hn
  · cases hu.symm.trans hu'
    rw [heq]
    simp [record]

end Steps

section Folds

variable {r} {n : Uint64} {k : ChangeKey} {bytes : Bytes} {us : List Update}

theorem blockNumber_foldl (us : List Update) : (us.foldl update r).blockNumber = r.blockNumber := by
  induction us generalizing r with
  | nil => rfl
  | cons u us ih => rw [List.foldl_cons, ih, blockNumber_update]

theorem change_foldl (h : (us.foldl update r).change n k = some bytes) :
    r.change n k = some bytes ∨ n = r.blockNumber ∧ ∃ u ∈ us, u.change = some (k, bytes) := by
  induction us generalizing r with
  | nil => exact .inl h
  | cons u us ih =>
    rcases ih h with h | ⟨hn, v, hv, hc⟩
    · rcases change_update h with h | ⟨hn, hu⟩
      · exact .inl h
      · exact .inr ⟨hn, u, List.mem_cons_self, hu⟩
    · exact .inr ⟨hn.trans (blockNumber_update u), v, List.mem_cons_of_mem _ hv, hc⟩

theorem change_foldl_ne_none (h : r.change n k ≠ none) (us : List Update) :
    (us.foldl update r).change n k ≠ none := by
  induction us generalizing r with
  | nil => exact h
  | cons u us ih => exact ih (change_update_ne_none h u)

theorem change_foldl_of_changes {u : Update} (hm : u ∈ us) (hc : u.Changes)
    (hu : u.change = some (k, bytes)) : (us.foldl update r).change r.blockNumber k ≠ none := by
  induction us generalizing r with
  | nil => cases hm
  | cons v us ih =>
    rcases List.mem_cons.mp hm with rfl | hm
    · exact change_foldl_ne_none (change_update_of_changes hc hu) us
    · rw [List.foldl_cons, ← blockNumber_update v]
      exact ih hm

end Folds

end Records

namespace Buffer

variable (b : Buffer)

def records : Records where
  blockNumber := b.blockNumber
  change n
    | .account a => (b.accountChanges.findD n ∅).find a
    | .slot a i location => (((b.storageChanges.findD n ∅).findD a ∅).findD i ∅).find location
  changedStorage a := b.changedStorage.contains a

@[simp] theorem records_bumpBatchSize (inserted : Bool) (keyLen valueLen : ℕ) :
    (b.bumpBatchSize inserted keyLen valueLen).records = b.records := by
  rw [bumpBatchSize]
  split_ifs <;> rfl

theorem records_recordAccount (a : Address) (bytes : Bytes) :
    (b.recordAccount a bytes).records = b.records.record (.account a) bytes := by
  rw [recordAccount, records_bumpBatchSize]
  ext1
  · rfl
  · funext n k
    simp only [Records.record, records]
    cases k with
    | account a' =>
      by_cases hn : n = b.blockNumber
      · subst hn
        simp only [HashMap.findD_set, HashMap.find_set, true_and, ChangeKey.account.injEq, ↓reduceIte]
      · simp only [HashMap.findD_set, hn, false_and, ↓reduceIte]
    | slot a' i location => simp
  · rfl

theorem records_recordStorage (a : Address) (i : Uint64) (location : Bytes32) (bytes : Bytes) :
    (b.recordStorage a i location bytes).records = b.records.record (.slot a i location) bytes := by
  rw [recordStorage, records_bumpBatchSize]
  ext1
  · rfl
  · funext n k
    simp only [Records.record, records]
    cases k with
    | account a' => simp
    | slot a' i' location' =>
      by_cases hk : n = b.blockNumber ∧ a' = a ∧ i' = i
      · obtain ⟨rfl, rfl, rfl⟩ := hk
        simp only [HashMap.findD_set, HashMap.find_set, true_and, ChangeKey.slot.injEq, ↓reduceIte]
      · have hne : ¬(n = b.blockNumber ∧ ChangeKey.slot a' i' location' = .slot a i location) := by
          rintro ⟨hn, heq⟩
          cases heq
          exact hk ⟨hn, rfl, rfl⟩
        refine Eq.trans ?_ (if_neg hne).symm
        by_cases hn : n = b.blockNumber
        · subst hn
          by_cases ha : a' = a
          · subst ha
            have hi : i' ≠ i := fun hi => hk ⟨rfl, rfl, hi⟩
            simp only [HashMap.findD_set, hi, ↓reduceIte]
          · simp only [HashMap.findD_set, ha, ↓reduceIte]
        · simp only [HashMap.findD_set, hn, ↓reduceIte]
  · rfl

theorem records_updateAccount (a : Address) (initial current : Option Account) :
    (b.updateAccount a initial current).records = b.records.update (.account a initial current) := by
  have hset (b : Buffer) : (b.setAccount a current).records = b.records :=
    records_bumpBatchSize ..
  have hinc (b : Buffer) (i : Uint64) : (b.setIncarnation a i).records = b.records :=
    records_bumpBatchSize ..
  have hrec := b.records_recordAccount a (encodedInitial initial current)
  rw [updateAccount, Records.update]
  by_cases hskip : current = initial ∧ current ≠ none ∧ b.changedStorage.contains a = false
  · exact (congrArg records (if_pos hskip)).trans (if_pos hskip).symm
  · refine (congrArg records (if_neg hskip)).trans (Eq.trans ?_ (if_neg hskip).symm)
    dsimp only
    by_cases heq : current = initial
    · rw [if_pos heq]
      exact hrec
    · rw [if_neg heq]
      cases current with
      | some account => exact (hset _).trans hrec
      | none =>
        cases initial with
        | none => exact (hset _).trans hrec
        | some account =>
          dsimp only
          split_ifs
          · exact (hinc _ _).trans ((hset _).trans hrec)
          · exact (hset _).trans hrec

theorem records_updateStorage (a : Address) (i : Uint64) (location initial current : Bytes32) :
    (b.updateStorage a i location initial current).records =
      b.records.update (.storage a i location initial current) := by
  rw [updateStorage, Records.update]
  split_ifs with heq
  · rfl
  · dsimp only
    rw [setStorage, records_bumpBatchSize]
    refine (records_recordStorage { b with changedStorage := b.changedStorage.insert a } a i location
      (zerolessView initial)).trans ?_
    ext1
    · rfl
    · rfl
    · funext a'
      exact HashSet.contains_insert b.changedStorage a a'

theorem records_updateAccountCode (a : Address) (i : Uint64) (codeHash : Bytes32) (bytes : Bytes) :
    (b.updateAccountCode a i codeHash bytes).records = b.records := by
  rw [updateAccountCode, records_bumpBatchSize]
  exact records_bumpBatchSize { b with hashToCode := b.hashToCode.set codeHash bytes } ..

theorem records_issue (u : Update) : (u.issue b).records = b.records.update u := by
  cases u with
  | account a initial current => exact b.records_updateAccount a initial current
  | code a i codeHash bytes => exact b.records_updateAccountCode a i codeHash bytes
  | storage a i location initial current => exact b.records_updateStorage a i location initial current

theorem records_foldl (us : List Update) :
    (us.foldl Update.issue b).records = us.foldl Records.update b.records := by
  induction us generalizing b with
  | nil => rfl
  | cons u us ih => rw [List.foldl_cons, List.foldl_cons, ih, records_issue]

end Buffer

/-- The number of a block and the state in which its execution ends. -/
abbrev ExecutedBlock := Uint64 × IntraBlockState

namespace Buffer

/-- The blocks are written to the buffer one after the other. -/
def execute (b : Buffer) (blocks : List ExecutedBlock) : Buffer :=
  blocks.foldl (fun b block => (block.2.writeToDb block.1 b).1) b

section Execution

variable {b : Buffer} {n : Uint64} {k : ChangeKey} {bytes : Bytes}

theorem records_writeToDb (s : IntraBlockState) (m : Uint64) (b : Buffer) :
    (s.writeToDb m b).1.records = s.updates.foldl Records.update (b.beginBlock m).records := by
  rw [s.writeToDb_fst, ← records_foldl]
  rfl

theorem change_execute {blocks : List ExecutedBlock}
    (h : (b.execute blocks).records.change n k = some bytes) :
    b.records.change n k = some bytes ∨
      ∃ block ∈ blocks, block.1 = n ∧ ∃ u ∈ block.2.updates, u.change = some (k, bytes) := by
  induction blocks generalizing b with
  | nil => exact .inl h
  | cons block blocks ih =>
    rcases ih h with h | ⟨block', hb, h⟩
    · rw [records_writeToDb] at h
      rcases Records.change_foldl h with h | ⟨hn, h⟩
      · exact .inl h
      · exact .inr ⟨block, List.mem_cons_self, hn.symm, h⟩
    · exact .inr ⟨block', List.mem_cons_of_mem _ hb, h⟩

theorem change_execute_ne_none (h : b.records.change n k ≠ none) (blocks : List ExecutedBlock) :
    (b.execute blocks).records.change n k ≠ none := by
  induction blocks generalizing b with
  | nil => exact h
  | cons block blocks ih =>
    have hbegin : (b.beginBlock block.1).records.change n k ≠ none := h
    refine ih ?_
    rw [records_writeToDb]
    exact Records.change_foldl_ne_none hbegin _

theorem change_execute_of_changes {blocks : List ExecutedBlock} {block : ExecutedBlock}
    (hb : block ∈ blocks) {u : Update} (hm : u ∈ block.2.updates) (hc : u.Changes)
    (hu : u.change = some (k, bytes)) : (b.execute blocks).records.change block.1 k ≠ none := by
  induction blocks generalizing b with
  | nil => cases hb
  | cons block' blocks ih =>
    rcases List.mem_cons.mp hb with rfl | hb
    · refine change_execute_ne_none ?_ blocks
      rw [records_writeToDb]
      exact Records.change_foldl_of_changes (r := (b.beginBlock block.1).records) hm hc hu
    · exact ih hb

end Execution

section Maps

variable {b : Buffer} {blocks : List ExecutedBlock}

/-- What a reader of the maps returns is left by every update but some. -/
theorem read_execute {X : Type} (read : Maps → X) {P : Update → Prop}
    (hstep : ∀ (b : Buffer) u, ¬P u → read (u.issue b).maps = read b.maps)
    (hne : read (b.execute blocks).maps ≠ read b.maps) :
    ∃ block ∈ blocks, ∃ u ∈ block.2.updates, P u := by
  by_contra hall
  push Not at hall
  have hfold (us : List Update) (hus : ∀ u ∈ us, ¬P u) (b : Buffer) :
      read (us.foldl Update.issue b).maps = read b.maps := by
    induction us generalizing b with
    | nil => rfl
    | cons u us ih =>
      obtain ⟨hu, hus⟩ := List.forall_mem_cons.mp hus
      rw [List.foldl_cons, ih hus, hstep b u hu]
  apply hne
  clear hne
  induction blocks generalizing b with
  | nil => rfl
  | cons block blocks ih =>
    obtain ⟨hblock, hrest⟩ := List.forall_mem_cons.mp hall
    refine (ih hrest).trans ?_
    refine (congrArg (fun b : Buffer => read b.maps) (block.2.writeToDb_fst block.1 b)).trans ?_
    exact hfold _ hblock (b.beginBlock block.1)

/-- An account that is held by the maps was changed. -/
theorem exists_account_change {a : Address}
    (hne : (b.execute blocks).maps.accounts.find a ≠ b.maps.accounts.find a) :
    ∃ block ∈ blocks, ∃ initial current,
      .account a initial current ∈ block.2.updates ∧ current ≠ initial := by
  have hstep (b : Buffer) (u : Update)
      (hu : ¬∃ initial current, u = .account a initial current ∧ current ≠ initial) :
      (u.issue b).maps.accounts.find a = b.maps.accounts.find a := by
    cases u with
    | account a' initial current =>
      refine (congrArg (fun m => m.accounts.find a) (b.maps_updateAccount a' initial current)).trans ?_
      dsimp only
      split_ifs with heq
      · rfl
      · refine HashMap.find_set_ne (fun ha => ?_) ..
        subst ha
        exact hu ⟨initial, current, rfl, heq⟩
    | code a' i codeHash bytes =>
      exact congrArg (fun m => m.accounts.find a) (b.maps_updateAccountCode a' i codeHash bytes)
    | storage a' i location initial current =>
      refine (congrArg (fun m => m.accounts.find a)
        (b.maps_updateStorage a' i location initial current)).trans ?_
      split_ifs <;> rfl
  obtain ⟨block, hb, u, hu, initial, current, rfl, hc⟩ :=
    read_execute (fun m => m.accounts.find a) hstep hne
  exact ⟨block, hb, initial, current, hu, hc⟩

/-- A code hash that is held by the maps was set together with an account. -/
theorem exists_code_change {key : Bytes}
    (hne : (b.execute blocks).maps.storagePrefixToCodeHash.find key ≠
      b.maps.storagePrefixToCodeHash.find key) :
    ∃ block ∈ blocks, ∃ a i codeHash bytes,
      .code a i codeHash bytes ∈ block.2.updates ∧ key = storagePrefix a.val i := by
  have hstep (b : Buffer) (u : Update)
      (hu : ¬∃ a i codeHash bytes, u = .code a i codeHash bytes ∧ key = storagePrefix a.val i) :
      (u.issue b).maps.storagePrefixToCodeHash.find key =
        b.maps.storagePrefixToCodeHash.find key := by
    cases u with
    | account a initial current =>
      exact congrArg (fun m => m.storagePrefixToCodeHash.find key)
        (b.maps_updateAccount a initial current)
    | code a i codeHash bytes =>
      refine (congrArg (fun m => m.storagePrefixToCodeHash.find key)
        (b.maps_updateAccountCode a i codeHash bytes)).trans ?_
      exact HashMap.find_set_ne (fun hk => hu ⟨a, i, codeHash, bytes, rfl, hk⟩) ..
    | storage a i location initial current =>
      refine (congrArg (fun m => m.storagePrefixToCodeHash.find key)
        (b.maps_updateStorage a i location initial current)).trans ?_
      split_ifs <;> rfl
  obtain ⟨block, hb, u, hu, a, i, codeHash, bytes, rfl, hk⟩ :=
    read_execute (fun m => m.storagePrefixToCodeHash.find key) hstep hne
  exact ⟨block, hb, a, i, codeHash, bytes, hu, hk⟩

end Maps

end Buffer

section ChangeSets

variable {b : Buffer} {tables : Tables} {e : Entry}

theorem mem_entries_foldl {X : Type} {f : Table → X → Table} {P : X → Prop}
    (hf : ∀ t x, e ∈ (f t x).entries ↔ e ∈ t.entries ∨ P x) (l : List X) (t : Table) :
    e ∈ (l.foldl f t).entries ↔ e ∈ t.entries ∨ ∃ x ∈ l, P x := by
  induction l generalizing t with
  | nil => simp
  | cons x l ih =>
    rw [List.foldl_cons, ih, hf]
    simp [or_assoc]

private theorem mem_putDup_iff (key data : Bytes) (t : Table) :
    e ∈ (t.putDup key data).entries ↔ e ∈ t.entries ∨ e = (key, data) := by
  rw [Table.mem_putDup, or_comm]

/-- The entries of a map of maps. -/
private theorem mem_toList_findD {K K' V : Type} [DecidableEq K] [DecidableEq K']
    {m : HashMap K (HashMap K' V)} {k : K} {x : K' × V} :
    x ∈ (m.findD k ∅).toList ↔ ∃ y ∈ m.toList, y.1 = k ∧ x ∈ y.2.toList := by
  rw [HashMap.findD]
  constructor
  · intro h
    cases hk : m.find k with
    | none =>
      rw [hk] at h
      cases h
    | some y =>
      rw [hk] at h
      exact ⟨(k, y), HashMap.mem_toList.mpr hk, rfl, h⟩
  · rintro ⟨⟨k, y⟩, hy, rfl, h⟩
    rw [HashMap.mem_toList.mp hy]
    exact h

theorem mem_plainAccountChangeSet_flush :
    e ∈ (b.flush tables).plainAccountChangeSet.entries ↔
      e ∈ tables.plainAccountChangeSet.entries ∨ ∃ n a bytes,
        b.records.change n (.account a) = some bytes ∧ e = (blockKey n, a.val ++ bytes) := by
  have hblock (t : Table) (block : Uint64 × HashMap Address Bytes) :=
    mem_entries_foldl (fun t (x : Address × Bytes) =>
      mem_putDup_iff (e := e) (blockKey block.1) (x.1.val ++ x.2) t) block.2.toList t
  refine (mem_entries_foldl hblock _ _).trans (or_congr_right ?_)
  have hfind (n : Uint64) (a : Address) (bytes : Bytes) :
      b.records.change n (.account a) = some bytes ↔
        (a, bytes) ∈ (b.accountChanges.findD n ∅).toList := HashMap.mem_toList.symm
  constructor
  · rintro ⟨block, hb, x, hx, rfl⟩
    exact ⟨block.1, x.1, x.2, (hfind ..).mpr (mem_toList_findD.mpr ⟨block, hb, rfl, hx⟩), rfl⟩
  · rintro ⟨n, a, bytes, h, rfl⟩
    obtain ⟨block, hb, rfl, hx⟩ := mem_toList_findD.mp ((hfind ..).mp h)
    exact ⟨block, hb, (a, bytes), hx, rfl⟩

theorem mem_plainStorageChangeSet_flush :
    e ∈ (b.flush tables).plainStorageChangeSet.entries ↔
      e ∈ tables.plainStorageChangeSet.entries ∨ ∃ n a i location bytes,
        b.records.change n (.slot a i location) = some bytes ∧
          e = (storageChangeKey n a i, location.val ++ bytes) := by
  have hcontract (n : Uint64) (a : Address) (t : Table)
      (contract : Uint64 × HashMap Bytes32 Bytes) :=
    mem_entries_foldl (fun t (x : Bytes32 × Bytes) =>
      mem_putDup_iff (e := e) (storageChangeKey n a contract.1) (x.1.val ++ x.2) t)
      contract.2.toList t
  have haddress (n : Uint64) (t : Table)
      (address : Address × HashMap Uint64 (HashMap Bytes32 Bytes)) :=
    mem_entries_foldl (hcontract n address.1) address.2.toList t
  have hblock (t : Table)
      (block : Uint64 × HashMap Address (HashMap Uint64 (HashMap Bytes32 Bytes))) :=
    mem_entries_foldl (haddress block.1) block.2.toList t
  refine (mem_entries_foldl hblock _ _).trans (or_congr_right ?_)
  have hfind (n : Uint64) (a : Address) (i : Uint64) (location : Bytes32) (bytes : Bytes) :
      b.records.change n (.slot a i location) = some bytes ↔
        (location, bytes) ∈ (((b.storageChanges.findD n ∅).findD a ∅).findD i ∅).toList :=
    HashMap.mem_toList.symm
  constructor
  · rintro ⟨block, hb, address, ha, contract, hc, x, hx, rfl⟩
    refine ⟨block.1, address.1, contract.1, x.1, x.2, (hfind ..).mpr ?_, rfl⟩
    have haddress := mem_toList_findD.mpr ⟨block, hb, rfl, ha⟩
    have hcontract := mem_toList_findD.mpr ⟨address, haddress, rfl, hc⟩
    exact mem_toList_findD.mpr ⟨contract, hcontract, rfl, hx⟩
  · rintro ⟨n, a, i, location, bytes, h, rfl⟩
    obtain ⟨contract, hc, rfl, hx⟩ := mem_toList_findD.mp ((hfind ..).mp h)
    obtain ⟨address, ha, rfl, hc'⟩ := mem_toList_findD.mp hc
    obtain ⟨block, hb, rfl, ha'⟩ := mem_toList_findD.mp ha
    exact ⟨block, hb, address, ha', contract, hc', (location, bytes), hx, rfl⟩

end ChangeSets

end Db
end Silkworm
