import Silkworm.ExecutedBatches

/-!
# Reading the change sets

The changes of a block are read back from the tables as the maps of the buffer that was flushed.
Both are maps of bytes; those of the storage are nested, and hold no empty maps.
-/

namespace Silkworm

/-- An update of an address that is changed, or that is written as deleted. -/
def Update.Touches (a : Address) : Update → Prop
  | .account a' initial current => a' = a ∧ (current ≠ initial ∨ current = none)
  | .code .. => False
  | .storage a' _ _ initial current => a' = a ∧ current ≠ initial

namespace Db
open BigEndian SortedTables

/-- From an address to the stored account at the beginning of the block. -/
abbrev AccountChangeMap := HashMap Address Bytes

/-- From an address, an incarnation and a location to the value at the beginning of the block. -/
abbrev StorageChangeMap := HashMap Address (HashMap Uint64 (HashMap Bytes32 Bytes))

abbrev SlotKey := Address × Uint64 × Bytes32

namespace StorageChangeMap

def value (changes : StorageChangeMap) (k : SlotKey) : Option Bytes :=
  ((changes.findD k.1 ∅).findD k.2.1 ∅).find k.2.2

/-- `changes[address][incarnation][location] = value`. -/
def setValue (changes : StorageChangeMap) (k : SlotKey) (value : Bytes) : StorageChangeMap :=
  let contract := changes.findD k.1 ∅
  let slots := contract.findD k.2.1 ∅
  HashMap.set changes k.1 (contract.set k.2.1 (slots.set k.2.2 value))

/-- No address is without an incarnation, and no incarnation without a location. -/
structure Filled (changes : StorageChangeMap) : Prop where
  contracts : ∀ a contract, changes.find a = some contract → ∃ i, contract.find i ≠ none
  slots : ∀ a contract, changes.find a = some contract → ∀ i slots, contract.find i = some slots →
    ∃ location, slots.find location ≠ none

theorem filled_empty : Filled ∅ where
  contracts a contract h := by cases h
  slots a contract h := by cases h

section Values

variable {changes changes' : StorageChangeMap}

theorem value_setValue (changes : StorageChangeMap) (k : SlotKey) (v : Bytes) (k' : SlotKey) :
    (changes.setValue k v).value k' = if k' = k then some v else changes.value k' := by
  obtain ⟨a, i, location⟩ := k
  obtain ⟨a', i', location'⟩ := k'
  simp only [value, setValue, HashMap.findD, HashMap.find_set]
  by_cases ha : a' = a
  · by_cases hi : i' = i
    · by_cases hl : location' = location <;> simp [ha, hi, hl, HashMap.find_set]
    · simp [ha, hi, HashMap.find_set]
  · simp [ha]

theorem Filled.slots_findD (h : changes.Filled) {a : Address} {i : Uint64}
    {slots : HashMap Bytes32 Bytes} (hs : (changes.findD a ∅).find i = some slots) :
    ∃ location, slots.find location ≠ none := by
  rw [HashMap.findD] at hs
  cases hc : changes.find a with
  | none =>
    rw [hc] at hs
    cases hs
  | some contract =>
    rw [hc] at hs
    exact h.slots a contract hc i slots hs

theorem Filled.setValue (h : changes.Filled) (k : SlotKey) (v : Bytes) :
    (changes.setValue k v).Filled where
  contracts a contract hc := by
    rw [StorageChangeMap.setValue, HashMap.find_set] at hc
    split_ifs at hc with ha
    · cases hc
      exact ⟨k.2.1, by simp⟩
    · exact h.contracts a contract hc
  slots a contract hc i slots hs := by
    rw [StorageChangeMap.setValue, HashMap.find_set] at hc
    split_ifs at hc with ha
    · cases hc
      rw [HashMap.find_set] at hs
      split_ifs at hs with hi
      · cases hs
        exact ⟨k.2.2, by simp⟩
      · exact h.slots_findD hs
    · exact h.slots a contract hc i slots hs

/-- Equality of the maps, at each of the three levels. -/
def Same (changes changes' : StorageChangeMap) : Prop :=
  ∀ a, Option.Rel (fun contract contract' : HashMap Uint64 (HashMap Bytes32 Bytes) =>
    ∀ i, Option.Rel (fun slots slots' : HashMap Bytes32 Bytes =>
      ∀ location, slots.find location = slots'.find location)
      (contract.find i) (contract'.find i)) (changes.find a) (changes'.find a)

private theorem eq_none_iff_of_rel {X : Type} {R : X → X → Prop} {x y : Option X}
    (h : Option.Rel R x y) : x = none ↔ y = none := by
  cases h with
  | none => rfl
  | some _ => exact iff_of_false (Option.some_ne_none _) (Option.some_ne_none _)

/-- Maps that are not empty are there or not together if their entries are. -/
private theorem rel_of_getD {K V : Type} [DecidableEq K] {R : HashMap K V → HashMap K V → Prop}
    {x y : Option (HashMap K V)} (hx : ∀ m, x = some m → ∃ k, m.find k ≠ none)
    (hy : ∀ m, y = some m → ∃ k, m.find k ≠ none)
    (hkeys : ∀ k, (x.getD ∅).find k = none ↔ (y.getD ∅).find k = none)
    (h : R (x.getD ∅) (y.getD ∅)) : Option.Rel R x y := by
  cases x with
  | none =>
    cases y with
    | none => exact .none
    | some m =>
      obtain ⟨k, hk⟩ := hy m rfl
      exact absurd ((hkeys k).mp (HashMap.find_empty k)) hk
  | some m =>
    cases y with
    | none =>
      obtain ⟨k, hk⟩ := hx m rfl
      exact absurd ((hkeys k).mpr (HashMap.find_empty k)) hk
    | some m' => exact .some h

/-- Filled maps with the same values are the same. -/
theorem Filled.same (h : changes.Filled) (h' : changes'.Filled)
    (hv : ∀ k, changes.value k = changes'.value k) : changes.Same changes' := by
  intro a
  have hslots (i : Uint64) : Option.Rel (fun slots slots' : HashMap Bytes32 Bytes =>
      ∀ location, slots.find location = slots'.find location)
      ((changes.findD a ∅).find i) ((changes'.findD a ∅).find i) := by
    have hfind (location : Bytes32) := hv (a, i, location)
    apply rel_of_getD (fun _ => h.slots_findD) (fun _ => h'.slots_findD)
    · exact fun location => iff_of_eq (congrArg (fun x => x = none) (hfind location))
    · exact hfind
  apply rel_of_getD (h.contracts a) (h'.contracts a) (fun i => ?_) hslots
  exact eq_none_iff_of_rel (hslots i)

end Values

end StorageChangeMap

section Readers

def readAccountChange (data : Bytes) : Option (Address × Bytes) :=
  if h : kAddressLength ≤ data.length then
    some (⟨data.take kAddressLength, List.length_take_of_le h⟩, data.drop kAddressLength)
  else none

/-- The first entry of the block, and the further ones under the same key. -/
def readAccountChanges (tables : Tables) (blockNumber : Uint64) : Option AccountChangeMap :=
  let key := blockKey blockNumber
  ((tables.plainAccountChangeSet.seekExact key).takeWhile fun e => e.1 = key).foldlM
    (fun changes e => (readAccountChange e.2).map fun x => HashMap.set changes x.1 x.2) ∅

def readStorageChange (key data : Bytes) : Option (SlotKey × Bytes) :=
  if h : key.length = kStoragePrefixLength ∧ kHashLength ≤ data.length then
    some ((⟨key.take kAddressLength, List.length_take_of_le (h.1.symm ▸ Nat.le_add_right ..)⟩,
      BitVec.ofNat 64 (ofBigEndian (key.drop kAddressLength)),
      ⟨data.take kHashLength, List.length_take_of_le h.2⟩), data.drop kHashLength)
  else none

/-- The entries from the first key of the block on, as long as a key begins with the block. -/
def readStorageChanges (tables : Tables) (blockNumber : Uint64) : Option StorageChangeMap :=
  let pre := blockKey blockNumber
  ((tables.plainStorageChangeSet.seek pre).takeWhile fun e => pre.isPrefixOf e.1).foldlM
    (fun changes e => (readStorageChange (e.1.drop pre.length) e.2).map fun x =>
      StorageChangeMap.setValue changes x.1 x.2) ∅

end Readers

section Decoding

variable {n m : Uint64} {a : Address} {i : Uint64} {location : Bytes32} {bytes : Bytes}

theorem readAccountChange_append : readAccountChange (a.val ++ bytes) = some (a, bytes) := by
  have hle : kAddressLength ≤ (a.val ++ bytes).length := by
    rw [List.length_append, a.property]
    exact Nat.le_add_right _ _
  have ha : (a.val ++ bytes).take kAddressLength = a.val := List.take_left' a.property
  have hbytes : (a.val ++ bytes).drop kAddressLength = bytes := List.drop_left' a.property
  rw [readAccountChange, dif_pos hle]
  simp only [ha, hbytes, Subtype.coe_eta]

theorem readStorageChange_append :
    readStorageChange (storagePrefix a.val i) (location.val ++ bytes) =
      some ((a, i, location), bytes) := by
  have hle : kHashLength ≤ (location.val ++ bytes).length := by
    rw [List.length_append, location.property]
    exact Nat.le_add_right _ _
  have ha : (storagePrefix a.val i).take kAddressLength = a.val := List.take_left' a.property
  have hi : (storagePrefix a.val i).drop kAddressLength = bigU64 i := List.drop_left' a.property
  have hlocation : (location.val ++ bytes).take kHashLength = location.val :=
    List.take_left' location.property
  have hbytes : (location.val ++ bytes).drop kHashLength = bytes :=
    List.drop_left' location.property
  have hnat : BitVec.ofNat 64 (ofBigEndian (bigU64 i)) = i := by
    rw [bigU64, ofBigEndian_fixedBigEndian, BitVec.ofNat_toNat, BitVec.setWidth_eq]
  rw [readStorageChange, dif_pos ⟨length_storagePrefix a i, hle⟩]
  simp only [ha, hi, hlocation, hbytes, hnat, Subtype.coe_eta]

/-- The keys of the slots of a block are those that begin with its number. -/
theorem isPrefixOf_storageChangeKey :
    (blockKey n).isPrefixOf (storageChangeKey m a i) = true ↔ n = m := by
  rw [List.isPrefixOf_iff_prefix, storageChangeKey, blockKey]
  constructor
  · intro h
    have hle : (bigU64 n).length = (bigU64 m).length := by rw [length_bigU64, length_bigU64]
    have hpre : bigU64 n <+: bigU64 m :=
      List.prefix_of_prefix_length_le h (List.prefix_append _ _) hle.le
    exact bigU64_injective (hpre.eq_of_length hle)
  · rintro rfl
    exact List.prefix_append _ _

theorem drop_storageChangeKey :
    (storageChangeKey n a i).drop (blockKey n).length = storagePrefix a.val i :=
  List.drop_left' rfl

end Decoding

section Loops

variable {M K V E : Type} [DecidableEq K] {read : M → K → Option V} {put : M → K → V → M}
  (decode : E → Option (K × V)) {P : M → Prop} (f : K → Option V)

/-- A loop over entries sets what the entries say. -/
theorem foldlM_put (hput : ∀ m k v k', read (put m k v) k' = if k' = k then some v else read m k')
    (hP : ∀ m k v, P m → P (put m k v)) {l : List E}
    (hl : ∀ e ∈ l, ∃ k v, decode e = some (k, v) ∧ f k = some v) {m : M} (hm : P m)
    (hread : ∀ k, read m k = f k ∨ ∃ e ∈ l, ∃ v, decode e = some (k, v)) :
    ∃ m', l.foldlM (fun m e => (decode e).map fun x => put m x.1 x.2) m = some m' ∧ P m' ∧
      ∀ k, read m' k = f k := by
  induction l generalizing m with
  | nil => exact ⟨m, rfl, hm, fun k => (hread k).resolve_right (by simp)⟩
  | cons e l ih =>
    obtain ⟨⟨k, v, hd, hf⟩, hl⟩ := List.forall_mem_cons.mp hl
    have hnext (k' : K) : read (put m k v) k' = f k' ∨ ∃ e ∈ l, ∃ v, decode e = some (k', v) := by
      rw [hput]
      by_cases hk : k' = k
      · rw [if_pos hk, hk]
        exact .inl hf.symm
      · rw [if_neg hk]
        apply (hread k').imp_right
        rintro ⟨e', he', v', hd'⟩
        rcases List.mem_cons.mp he' with rfl | he'
        · cases hd.symm.trans hd'
          exact absurd rfl hk
        · exact ⟨e', he', v', hd'⟩
    obtain ⟨m', hm', hP', hread'⟩ := ih hl (hP m k v hm) hnext
    refine ⟨m', ?_, hP', hread'⟩
    rw [List.foldlM_cons, hd]
    exact hm'

end Loops

namespace Buffer

section Maps

variable {b : Buffer} {n : Uint64}

@[simp] theorem storageChanges_bumpBatchSize (inserted : Bool) (keyLen valueLen : ℕ) :
    (b.bumpBatchSize inserted keyLen valueLen).storageChanges = b.storageChanges := by
  rw [bumpBatchSize]
  split_ifs <;> rfl

theorem storageChanges_updateAccount (a : Address) (initial current : Option Account) :
    (b.updateAccount a initial current).storageChanges = b.storageChanges := by
  have hset (b : Buffer) : (b.setAccount a current).storageChanges = b.storageChanges :=
    storageChanges_bumpBatchSize ..
  have hinc (b : Buffer) (i : Uint64) : (b.setIncarnation a i).storageChanges = b.storageChanges :=
    storageChanges_bumpBatchSize ..
  have hrec (bytes : Bytes) : (b.recordAccount a bytes).storageChanges = b.storageChanges :=
    storageChanges_bumpBatchSize ..
  rw [updateAccount]
  split_ifs
  · rfl
  · exact hrec _
  · dsimp only
    split
    · split_ifs
      · exact (hinc _ _).trans ((hset _).trans (hrec _))
      · exact (hset _).trans (hrec _)
    · exact (hset _).trans (hrec _)

/-- The storage changes of a block are left, or one of them is set. -/
theorem storageChanges_issue (u : Update) (n : Uint64) :
    (u.issue b).storageChanges.findD n ∅ = b.storageChanges.findD n ∅ ∨
      ∃ k v, (u.issue b).storageChanges.findD n ∅ =
        StorageChangeMap.setValue (b.storageChanges.findD n ∅) k v := by
  cases u with
  | account a initial current =>
    exact .inl (congrArg (fun m => HashMap.findD m n ∅) (b.storageChanges_updateAccount a initial current))
  | code a i codeHash bytes =>
    have hcode : (b.updateAccountCode a i codeHash bytes).storageChanges = b.storageChanges :=
      (storageChanges_bumpBatchSize ..).trans (storageChanges_bumpBatchSize ..)
    exact .inl (congrArg (fun m => HashMap.findD m n ∅) hcode)
  | storage a i location initial current =>
    by_cases heq : current = initial
    · exact .inl (congrArg (fun b : Buffer => b.storageChanges.findD n ∅) (if_pos heq))
    · have hset : (b.updateStorage a i location initial current).storageChanges =
          b.storageChanges.set b.blockNumber (StorageChangeMap.setValue
            (b.storageChanges.findD b.blockNumber ∅) (a, i, location)
            (MemoryBuffer.zerolessView initial)) := by
        rw [updateStorage, if_neg heq]
        exact (storageChanges_bumpBatchSize ..).trans (storageChanges_bumpBatchSize ..)
      have hfind := congrArg (fun m => HashMap.findD m n ∅) hset
      rw [HashMap.findD_set] at hfind
      split_ifs at hfind with hn
      · subst hn
        exact .inr ⟨_, _, hfind⟩
      · exact .inl hfind

theorem filled_foldl (us : List Update) (h : StorageChangeMap.Filled (b.storageChanges.findD n ∅)) :
    StorageChangeMap.Filled ((us.foldl Update.issue b).storageChanges.findD n ∅) := by
  induction us generalizing b with
  | nil => exact h
  | cons u us ih =>
    apply ih
    rcases storageChanges_issue (b := b) u n with heq | ⟨k, v, heq⟩
    · rwa [heq]
    · rw [heq]
      exact h.setValue k v

theorem filled_execute (blocks : List ExecutedBlock)
    (h : StorageChangeMap.Filled (b.storageChanges.findD n ∅)) :
    StorageChangeMap.Filled ((b.execute blocks).storageChanges.findD n ∅) := by
  induction blocks generalizing b with
  | nil => exact h
  | cons block blocks ih =>
    apply ih
    have hblock : (block.2.writeToDb block.1 b).1 =
        block.2.updates.foldl Update.issue (b.beginBlock block.1) := block.2.writeToDb_fst block.1 b
    dsimp only
    rw [hblock]
    exact filled_foldl _ h

end Maps

end Buffer

namespace Records

variable {r : Records} {n : Uint64} {a : Address} {us : List Update}

/-- An account is recorded if its update says so, or if a slot of it was changed before. -/
theorem change_account_ne_none {initial current : Option Account}
    (h : current ≠ initial ∨ current = none ∨ r.changedStorage a = true) :
    (r.update (.account a initial current)).change r.blockNumber (.account a) ≠ none := by
  have hrec : ¬(current = initial ∧ current ≠ none ∧ r.changedStorage a = false) := by
    rintro ⟨heq, hsome, hno⟩
    rcases h with h | h | h
    · exact h heq
    · exact hsome h
    · rw [hno] at h
      cases h
  rw [update, if_neg hrec]
  simp [record]

theorem changedStorage_update (h : r.changedStorage a = true) (u : Update) :
    (r.update u).changedStorage a = true := by
  cases u with
  | account a' initial current =>
    rw [update]
    split_ifs <;> exact h
  | code a' i codeHash bytes => exact h
  | storage a' i location initial current =>
    rw [update]
    split_ifs
    · exact h
    · simp [h]

theorem changedStorage_foldl (h : r.changedStorage a = true) (us : List Update) :
    (us.foldl update r).changedStorage a = true := by
  induction us generalizing r with
  | nil => exact h
  | cons u us ih => exact ih (changedStorage_update h u)

theorem changedStorage_foldl_of_mem {i : Uint64} {location initial current : Bytes32}
    (hm : .storage a i location initial current ∈ us) (hc : current ≠ initial) :
    (us.foldl update r).changedStorage a = true := by
  induction us generalizing r with
  | nil => cases hm
  | cons u us ih =>
    rcases List.mem_cons.mp hm with rfl | hm
    · apply changedStorage_foldl (r := r.update (.storage a i location initial current))
      rw [update, if_neg hc]
      simp
    · exact ih hm

theorem change_foldl_account_ne_none {initial current : Option Account}
    (hm : .account a initial current ∈ us)
    (h : current ≠ initial ∨ current = none ∨ r.changedStorage a = true) :
    (us.foldl update r).change r.blockNumber (.account a) ≠ none := by
  induction us generalizing r with
  | nil => cases hm
  | cons u us ih =>
    rcases List.mem_cons.mp hm with rfl | hm
    · exact change_foldl_ne_none (change_account_ne_none h) us
    · rw [List.foldl_cons, ← blockNumber_update u]
      exact ih hm (h.imp_right (Or.imp_right fun h => changedStorage_update h u))

theorem change_update_account {u : Update} (h : (r.update u).change n (.account a) ≠ none) :
    r.change n (.account a) ≠ none ∨
      n = r.blockNumber ∧ (r.changedStorage a = true ∨ u.Touches a) := by
  cases u with
  | account a' initial current =>
    by_cases hskip : current = initial ∧ current ≠ none ∧ r.changedStorage a' = false
    · rw [update, if_pos hskip] at h
      exact .inl h
    · rw [update, if_neg hskip] at h
      simp only [record] at h
      split_ifs at h with hk
      · obtain ⟨hn, hk⟩ := hk
        cases hk
        refine .inr ⟨hn, ?_⟩
        by_cases hs : r.changedStorage a = true
        · exact .inl hs
        · rw [not_and, not_and] at hskip
          refine .inr ⟨rfl, ?_⟩
          by_cases heq : current = initial
          · refine .inr (not_not.mp fun hsome => hskip heq hsome ?_)
            exact Bool.eq_false_of_not_eq_true hs
          · exact .inl heq
      · exact .inl h
  | code a' i codeHash bytes => exact .inl h
  | storage a' i location initial current =>
    rw [update] at h
    split_ifs at h
    · exact .inl h
    · exact .inl (by simpa [record] using h)

theorem changedStorage_of_update {u : Update} (h : (r.update u).changedStorage a = true) :
    r.changedStorage a = true ∨ u.Touches a := by
  cases u with
  | account a' initial current =>
    rw [update] at h
    split_ifs at h <;> exact .inl h
  | code a' i codeHash bytes => exact .inl h
  | storage a' i location initial current =>
    rw [update] at h
    split_ifs at h with hc
    · exact .inl h
    · rcases (Bool.or_eq_true _ _).mp h with ha | h
      · exact .inr ⟨(of_decide_eq_true ha).symm, hc⟩
      · exact .inl h

/-- An account that is recorded was recorded before, or it is touched. -/
theorem change_foldl_account (h : (us.foldl update r).change n (.account a) ≠ none) :
    r.change n (.account a) ≠ none ∨
      n = r.blockNumber ∧ (r.changedStorage a = true ∨ ∃ u ∈ us, u.Touches a) := by
  induction us generalizing r with
  | nil => exact .inl h
  | cons u us ih =>
    have hcons (hu : u.Touches a) : ∃ v ∈ u :: us, v.Touches a := ⟨u, List.mem_cons_self, hu⟩
    rcases ih h with h | ⟨hn, h⟩
    · exact (change_update_account h).imp_right (And.imp_right (Or.imp_right hcons))
    · refine .inr ⟨hn.trans (blockNumber_update u), ?_⟩
      rcases h with h | ⟨v, hv, ht⟩
      · exact (changedStorage_of_update h).imp_right hcons
      · exact .inr ⟨v, List.mem_cons_of_mem _ hv, ht⟩

/-- The slots of an address are written before its account. -/
theorem change_updates_account {s : IntraBlockState} (h : ∃ u ∈ s.updates, u.Touches a) :
    (s.updates.foldl update r).change r.blockNumber (.account a) ≠ none := by
  obtain ⟨u, hu, ht⟩ := h
  cases u with
  | account a' initial current =>
    obtain ⟨rfl, ht⟩ := ht
    exact change_foldl_account_ne_none hu (ht.imp_right .inl)
  | code a' i codeHash bytes => exact absurd ht id
  | storage a' i location initial current =>
    obtain ⟨rfl, ht⟩ := ht
    have hstorage : .storage a' i location initial current ∈ s.storageUpdates := by
      refine (List.mem_append.mp hu).resolve_right fun hobj => ?_
      obtain ⟨e, -, he⟩ := List.mem_flatMap.mp hobj
      rcases List.mem_cons.mp he with he | he
      · cases he
      · obtain ⟨_, _, _, hcode⟩ := s.codeUpdates_eq he
        cases hcode
    obtain ⟨obj, hobj⟩ : ∃ obj : Object,
        Update.account a' obj.initial obj.current ∈ s.objectUpdates := by
      obtain ⟨e, -, he⟩ := List.mem_flatMap.mp hstorage
      cases hfind : s.objects.find e.1 with
      | none =>
        rw [hfind] at he
        cases he
      | some obj =>
        rw [hfind, Option.bind_some] at he
        cases hcur : obj.current with
        | none =>
          rw [hcur] at he
          cases he
        | some account =>
          rw [hcur] at he
          obtain ⟨x, -, hx⟩ := List.mem_map.mp he
          cases hx
          exact ⟨obj, List.mem_flatMap.mpr
            ⟨(e.1, obj), HashMap.mem_toList.mpr hfind, List.mem_cons_self⟩⟩
    rw [IntraBlockState.updates, List.foldl_append, ← blockNumber_foldl s.storageUpdates]
    exact change_foldl_account_ne_none hobj (.inr (.inr (changedStorage_foldl_of_mem hstorage ht)))

end Records

/-- The recorded accounts are those that were touched. -/
theorem Buffer.change_execute_account {b : Buffer} {blocks : List ExecutedBlock} {n : Uint64}
    {a : Address} : (b.execute blocks).records.change n (.account a) ≠ none ↔
      b.records.change n (.account a) ≠ none ∨
        ∃ block ∈ blocks, block.1 = n ∧ ∃ u ∈ block.2.updates, u.Touches a := by
  induction blocks generalizing b with
  | nil => simp [Buffer.execute]
  | cons block blocks ih =>
    have hblock : (block.2.writeToDb block.1 b).1.records.change n (.account a) ≠ none ↔
        b.records.change n (.account a) ≠ none ∨
          block.1 = n ∧ ∃ u ∈ block.2.updates, u.Touches a := by
      rw [records_writeToDb]
      constructor
      · intro h
        refine (Records.change_foldl_account h).imp_right fun ⟨hn, h⟩ => ⟨hn.symm, ?_⟩
        exact h.resolve_left Bool.false_ne_true
      · rintro (h | ⟨rfl, h⟩)
        · have hbegin : (b.beginBlock block.1).records.change n (.account a) ≠ none := h
          exact Records.change_foldl_ne_none hbegin _
        · exact Records.change_updates_account (r := (b.beginBlock block.1).records) h
    refine (ih (b := (block.2.writeToDb block.1 b).1)).trans ?_
    rw [hblock]
    simp only [List.mem_cons, exists_eq_or_imp, or_assoc]

section Flushed

variable {b : Buffer} {tables : Tables} {n : Uint64}

/-- The change sets have no entry for a block. -/
structure NoChanges (tables : Tables) (n : Uint64) : Prop where
  accounts : ∀ e ∈ tables.plainAccountChangeSet.entries, e.1 ≠ blockKey n
  storage : ∀ e ∈ tables.plainStorageChangeSet.entries, ¬(blockKey n).isPrefixOf e.1 = true

theorem readAccountChanges_flush (h : NoChanges tables n) :
    ∃ changes, readAccountChanges (b.flush tables) n = some changes ∧
      ∀ a, changes.find a = (b.accountChanges.findD n ∅).find a := by
  have hmem (e : Entry) : e ∈ ((b.flush tables).plainAccountChangeSet.entries.filter fun e =>
      e.1 = blockKey n) ↔ ∃ a bytes, (b.accountChanges.findD n ∅).find a = some bytes ∧
        e = (blockKey n, a.val ++ bytes) := by
    rw [List.mem_filter, mem_plainAccountChangeSet_flush, decide_eq_true_eq]
    constructor
    · rintro ⟨hold | ⟨m, a, bytes, hc, rfl⟩, hkey⟩
      · exact absurd hkey (h.accounts e hold)
      · cases bigU64_injective hkey
        exact ⟨a, bytes, hc, rfl⟩
    · rintro ⟨a, bytes, hc, rfl⟩
      exact ⟨.inr ⟨n, a, bytes, hc, rfl⟩, rfl⟩
  obtain ⟨changes, hchanges, -, hread⟩ := foldlM_put (fun e : Entry => readAccountChange e.2)
    (b.accountChanges.findD n ∅).find (P := fun _ => True) (m := (∅ : AccountChangeMap))
    (fun m k v k' => HashMap.find_set m k k' v) (fun _ _ _ _ => trivial)
    (fun e he => by
      obtain ⟨a, bytes, hc, rfl⟩ := (hmem e).mp he
      exact ⟨a, bytes, readAccountChange_append, hc⟩) trivial
    (fun a => by
      cases hc : (b.accountChanges.findD n ∅).find a with
      | none => exact .inl (HashMap.find_empty a)
      | some bytes =>
        exact .inr ⟨_, (hmem _).mpr ⟨a, bytes, hc, rfl⟩, bytes, readAccountChange_append⟩)
  refine ⟨changes, ?_, hread⟩
  rw [readAccountChanges, Table.takeWhile_seekExact]
  exact hchanges

theorem readStorageChanges_flush (h : NoChanges tables n)
    (hfilled : StorageChangeMap.Filled (b.storageChanges.findD n ∅)) :
    ∃ changes, readStorageChanges (b.flush tables) n = some changes ∧
      StorageChangeMap.Same changes (b.storageChanges.findD n ∅) := by
  have hmem (e : Entry) : e ∈ ((b.flush tables).plainStorageChangeSet.entries.filter fun e =>
      (blockKey n).isPrefixOf e.1) ↔ ∃ k bytes,
        StorageChangeMap.value (b.storageChanges.findD n ∅) k = some bytes ∧
          e = (storageChangeKey n k.1 k.2.1, k.2.2.val ++ bytes) := by
    rw [List.mem_filter, mem_plainStorageChangeSet_flush]
    constructor
    · rintro ⟨hold | ⟨m, a, i, location, bytes, hc, rfl⟩, hkey⟩
      · exact absurd hkey (h.storage e hold)
      · cases isPrefixOf_storageChangeKey.mp hkey
        exact ⟨(a, i, location), bytes, hc, rfl⟩
    · rintro ⟨⟨a, i, location⟩, bytes, hc, rfl⟩
      exact ⟨.inr ⟨n, a, i, location, bytes, hc, rfl⟩, isPrefixOf_storageChangeKey.mpr rfl⟩
  have hdecode (k : SlotKey) (bytes : Bytes) :
      readStorageChange ((storageChangeKey n k.1 k.2.1).drop (blockKey n).length)
        (k.2.2.val ++ bytes) = some (k, bytes) := by
    rw [drop_storageChangeKey]
    exact readStorageChange_append
  obtain ⟨changes, hchanges, hfilled', hread⟩ := foldlM_put
    (fun e : Entry => readStorageChange (e.1.drop (blockKey n).length) e.2)
    (StorageChangeMap.value (b.storageChanges.findD n ∅)) (P := StorageChangeMap.Filled)
    StorageChangeMap.value_setValue
    (fun m k v hm => hm.setValue k v)
    (fun e he => by
      obtain ⟨k, bytes, hc, rfl⟩ := (hmem e).mp he
      exact ⟨k, bytes, hdecode k bytes, hc⟩) StorageChangeMap.filled_empty
    (fun k => by
      cases hc : StorageChangeMap.value (b.storageChanges.findD n ∅) k with
      | none => exact .inl rfl
      | some bytes => exact .inr ⟨_, (hmem _).mpr ⟨k, bytes, hc, rfl⟩, bytes, hdecode k bytes⟩)
  refine ⟨changes, ?_, hfilled'.same hfilled hread⟩
  rw [readStorageChanges, Table.takeWhile_seek]
  exact hchanges

/-- The change sets of every block are read back as they were collected, and the accounts in
them are those that were touched in the block. -/
theorem readChanges_executeBatch (tables : Tables) (blocks : List ExecutedBlock) (n : Uint64)
    (h : NoChanges tables n) :
    let b := ({ txn := some tables } : Buffer).execute blocks
    (∃ changes, readAccountChanges (executeBatch tables blocks) n = some changes ∧
      ∀ a, changes.find a = (b.accountChanges.findD n ∅).find a) ∧
    (∃ changes, readStorageChanges (executeBatch tables blocks) n = some changes ∧
      StorageChangeMap.Same changes (b.storageChanges.findD n ∅)) ∧
    ∀ a, (b.accountChanges.findD n ∅).find a ≠ none ↔
      ∃ block ∈ blocks, block.1 = n ∧ ∃ u ∈ block.2.updates, u.Touches a := by
  refine ⟨readAccountChanges_flush h, readStorageChanges_flush h ?_, fun a => ?_⟩
  · exact Buffer.filled_execute blocks StorageChangeMap.filled_empty
  · refine Buffer.change_execute_account.trans (or_iff_right ?_)
    exact not_not.mpr rfl

/-- A block in which a slot of an account is set to one. -/
def slotChange : ExecutedBlock :=
  (7, {
    objects := HashMap.set ∅ kRipemdAddress
      { initial := some { incarnation := 1 }, current := some { incarnation := 1 } }
    storage := HashMap.set ∅ kRipemdAddress
      { committed := HashMap.set ∅ default
          { original := FixedBytes.ofByte 31 1 } } })

theorem readChanges_executeBatch_slotChange :
    ∃ changes, readAccountChanges (executeBatch {} [slotChange]) 7 = some changes ∧
      changes.find kRipemdAddress ≠ none := by
  obtain ⟨⟨changes, hread, hfind⟩, -, htouched⟩ := readChanges_executeBatch {} [slotChange] 7
    ⟨fun e he => absurd he List.not_mem_nil, fun e he => absurd he List.not_mem_nil⟩
  refine ⟨changes, hread, ?_⟩
  rw [hfind]
  apply (htouched kRipemdAddress).mpr
  exact ⟨slotChange, List.mem_singleton_self _, rfl,
    .storage kRipemdAddress 1 default default (FixedBytes.ofByte 31 1),
    List.mem_append_left _ List.mem_cons_self, rfl,
    by decide⟩

end Flushed

end Db
end Silkworm
