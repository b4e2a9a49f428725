import Silkworm.Blockchain
import Silkworm.MemoryBufferUpdates

/-!
# Change sets

A block records what the state was where it changes it, and unwinding puts that back. The
accounts and the storage of a buffer are its world.
-/

namespace Silkworm

namespace StorageMap

theorem mem_toList {m : StorageMap} {a : Address} {i : Uint64} {location value : Bytes32} :
    ((a, i, location), value) ∈ m.toList ↔ m.find a i location = some value := by
  have hinner {m : HashMap Uint64 (HashMap Bytes32 Bytes32)} :
      ((m.findD i ∅).find location = some value) ↔
        ∃ l, m.find i = some l ∧ l.find location = some value := by
    rw [HashMap.findD]
    cases m.find i <;> simp
  have houter : (HashMap.findD m a ∅).findD i ∅ = m.locations a i := rfl
  simp only [toList, List.mem_flatMap, List.mem_map, Prod.exists, Prod.mk.injEq]
  constructor
  · rintro ⟨a', m', hm, i', l, hl, location', value', hv, ⟨rfl, rfl, rfl⟩, rfl⟩
    rw [find, ← houter, hinner]
    rw [HashMap.mem_toList] at hm hl hv
    exact ⟨l, by rw [HashMap.findD, hm]; exact hl, hv⟩
  · intro h
    rw [find, ← houter, hinner] at h
    obtain ⟨l, hl, hv⟩ := h
    cases hm : HashMap.find m a with
    | none =>
      rw [HashMap.findD, hm] at hl
      cases hl
    | some m' =>
      rw [HashMap.findD, hm] at hl
      exact ⟨a, m', HashMap.mem_toList.mpr hm, i, l, HashMap.mem_toList.mpr hl, location, value,
        HashMap.mem_toList.mpr hv, ⟨rfl, rfl, rfl⟩, rfl⟩

theorem nodup_keys_toList (m : StorageMap) : (m.toList.map Prod.fst).Nodup := by
  have h := HashMap.nodup_flatMap_keys (HashMap.keys_toList_nodup m)
    (f := fun x => x.2.toList.flatMap fun y => (y.2.toList.map Prod.fst).map (Prod.mk y.1))
    fun x _ => HashMap.nodup_flatMap_keys x.2.keys_toList_nodup fun y _ => y.2.keys_toList_nodup
  rw [toList, List.map_flatMap]
  simpa only [List.map_flatMap, List.map_map, Function.comp_def] using h

theorem find_set (m : StorageMap) (a a' : Address) (i i' : Uint64)
    (location location' value : Bytes32) :
    (m.set a i location value).find a' i' location' =
      if (a', i', location') = (a, i, location) then some value else m.find a' i' location' := by
  rw [find, find, set, locations_setLocations]
  by_cases hk : a' = a ∧ i' = i
  · obtain ⟨rfl, rfl⟩ := hk
    rw [if_pos ⟨rfl, rfl⟩, HashMap.find_set]
    simp
  · rw [if_neg hk, if_neg]
    rintro ⟨⟩
    exact hk ⟨rfl, rfl⟩

end StorageMap

namespace MemoryBuffer

/-- What a buffer holds for those that read the state. -/
@[ext] structure World where
  account : Address → Option Account
  storage : Address → Uint64 → Bytes32 → Bytes32

variable (b : MemoryBuffer)

def world : World := ⟨b.readAccount, b.readStorage⟩

/-- The account that a block has recorded. -/
def accountChange (n : Uint64) (a : Address) : Option (Option Account) :=
  (b.accountChanges.findD n ∅).find a

/-- The value that a block has recorded. -/
def storageChange (n : Uint64) (a : Address) (incarnation : Uint64) (location : Bytes32) :
    Option Bytes32 := StorageMap.find (b.storageChanges.findD n ∅) a incarnation location

/-- Put back what a block has recorded. -/
def undo (n : Uint64) (w : World) : World where
  account a := (b.accountChange n a).getD (w.account a)
  storage a i location := (b.storageChange n a i location).getD (w.storage a i location)

@[simp] theorem undo_account (n : Uint64) (w : World) (a : Address) :
    (b.undo n w).account a = (b.accountChange n a).getD (w.account a) := rfl

@[simp] theorem undo_storage (n : Uint64) (w : World) (a : Address) (i : Uint64)
    (location : Bytes32) : (b.undo n w).storage a i location =
      (b.storageChange n a i location).getD (w.storage a i location) := rfl

theorem world_unwindStateChanges (n : Uint64) :
    (b.unwindStateChanges n).world = b.undo n b.world := by
  have hread (m : StorageMap) : ∀ k, StorageMap.read
      (m.toList.foldl restoreStorage b.storage) k = (m.find k.1 k.2.1 k.2.2).getD (b.storage.read k) := by
    rintro ⟨a, i, location⟩
    have hstep (st : StorageMap) (k : Address × Uint64 × Bytes32) (v : Bytes32)
        (k' : Address × Uint64 × Bytes32) :
        (restoreStorage st (k, v)).read k' = if k' = k then v else st.read k' :=
      StorageMap.read_put st k.1 k.2.1 k.2.2 v k'
    cases hf : m.find a i location with
    | some value =>
      exact HashMap.read_foldl_of_mem StorageMap.read (fun _ v _ => v) hstep m.nodup_keys_toList
        (StorageMap.mem_toList.mpr hf) b.storage
    | none =>
      refine HashMap.read_foldl_of_not_mem StorageMap.read (fun _ v _ => v) hstep (fun hk => ?_)
        b.storage
      obtain ⟨⟨⟨a', i', location'⟩, value⟩, hm, hk⟩ := List.mem_map.mp hk
      cases hk
      rw [StorageMap.mem_toList.mp hm] at hf
      cases hf
  ext1
  · funext a
    have hstep (m : HashMap Address Account) (a : Address) (v : Option Account) (a' : Address) :
        (restoreAccount m (a, v)).find a' = if a' = a then v else m.find a' := by
      cases v with
      | some account => exact HashMap.find_set m a a' account
      | none => exact HashMap.find_remove m a a'
    refine (HashMap.read_foldl_toList HashMap.find (fun _ v _ => v) hstep
      (b.accountChanges.findD n ∅) b.accounts a).trans ?_
    show _ = ((b.accountChanges.findD n ∅).find a).getD (b.readAccount a)
    cases (b.accountChanges.findD n ∅).find a <;> rfl
  · funext a i location
    exact hread (b.storageChanges.findD n ∅) (a, i, location)

section Recording

theorem findD_findD_set {K K' V : Type} [DecidableEq K] [DecidableEq K']
    (m : HashMap K (HashMap K' V)) (k k' : K) (l : HashMap K' V) :
    (m.set k l).findD k' ∅ = if k' = k then l else m.findD k' ∅ := by
  rw [HashMap.findD, HashMap.findD, HashMap.find_set]
  split_ifs <;> rfl

theorem accountChange_updateAccount (a a' : Address) (initial current : Option Account)
    (n : Uint64) :
    (b.updateAccount a initial current).accountChange n a' =
      if n = b.blockNumber ∧ a' = a then some initial else b.accountChange n a' := by
  have hset : (b.updateAccount a initial current).accountChanges =
      b.accountChanges.set b.blockNumber
        ((b.accountChanges.findD b.blockNumber ∅).set a initial) := by
    unfold updateAccount
    cases current with
    | some account => rfl
    | none => cases initial <;> rfl
  rw [accountChange, hset, findD_findD_set]
  by_cases hn : n = b.blockNumber
  · subst hn
    rw [if_pos rfl, HashMap.find_set]
    simp [accountChange]
  · simp [hn, accountChange]

theorem storageChange_updateAccount (a : Address) (initial current : Option Account) :
    (b.updateAccount a initial current).storageChange = b.storageChange := by
  unfold updateAccount
  cases current with
  | some account => rfl
  | none => cases initial <;> rfl

theorem blockNumber_updateAccount (a : Address) (initial current : Option Account) :
    (b.updateAccount a initial current).blockNumber = b.blockNumber := by
  unfold updateAccount
  cases current with
  | some account => rfl
  | none => cases initial <;> rfl

theorem storageChange_updateStorage (a a' : Address) (i i' : Uint64)
    (location initial current location' : Bytes32) (n : Uint64) :
    (b.updateStorage a i location initial current).storageChange n a' i' location' =
      if n = b.blockNumber ∧ (a', i', location') = (a, i, location) then some initial
      else b.storageChange n a' i' location' := by
  have hfind : (b.updateStorage a i location initial current).storageChanges.findD n ∅ =
      if n = b.blockNumber then
        (b.storageChanges.findD b.blockNumber ∅).set a i location initial
      else b.storageChanges.findD n ∅ := by
    unfold updateStorage
    exact findD_findD_set b.storageChanges b.blockNumber n _
  rw [storageChange, hfind]
  by_cases hn : n = b.blockNumber
  · subst hn
    rw [if_pos rfl, StorageMap.find_set]
    simp [storageChange]
  · simp [hn, storageChange]

end Recording

end MemoryBuffer

namespace Update
open MemoryBuffer

/-- The value that an update reports is the one of the world. -/
def Reports (w : World) : Update → Prop
  | .account a initial _ => initial = w.account a
  | .code .. => True
  | .storage a incarnation location initial _ => initial = w.storage a incarnation location

/-- The effect of an update on the world. -/
def onWorld (w : World) : Update → World
  | .account a _ current =>
    { w with account := fun a' => if a' = a then current else w.account a' }
  | .code .. => w
  | .storage a incarnation location _ current =>
    { w with storage := fun a' i' location' =>
        if (a', i', location') = (a, incarnation, location) then current
        else w.storage a' i' location' }

theorem world_apply (u : Update) (b : MemoryBuffer) : (u.apply b).world = u.onWorld b.world := by
  cases u with
  | account a initial current =>
    ext1
    · funext a'
      exact b.readAccount_updateAccount a a' initial current
    · exact b.readStorage_updateAccount a initial current
  | code a incarnation codeHash bytes => rfl
  | storage a incarnation location initial current =>
    ext1
    · rfl
    · funext a' i' location'
      exact b.readStorage_updateStorage a a' incarnation i' location initial current location'

theorem blockNumber_apply (u : Update) (b : MemoryBuffer) :
    (u.apply b).blockNumber = b.blockNumber := by
  cases u with
  | account a initial current => exact b.blockNumber_updateAccount a initial current
  | code a incarnation codeHash bytes => rfl
  | storage a incarnation location initial current => rfl

/-- Other change sets stay as they are. -/
theorem undo_apply_of_ne (u : Update) {b : MemoryBuffer} {n : Uint64} (hn : n ≠ b.blockNumber) :
    (u.apply b).undo n = b.undo n := by
  funext w
  cases u with
  | account a initial current =>
    ext1
    · funext a'
      rw [apply, undo_account, undo_account, accountChange_updateAccount, if_neg fun h => hn h.1]
    · funext a' i' location'
      rw [apply, undo_storage, undo_storage, storageChange_updateAccount]
  | code a incarnation codeHash bytes => rfl
  | storage a incarnation location initial current =>
    ext1
    · rfl
    · funext a' i' location'
      rw [apply, undo_storage, undo_storage, storageChange_updateStorage, if_neg fun h => hn h.1]

/-- An update that reports the value of a world can be undone to that world. -/
theorem undo_apply (u : Update) {b : MemoryBuffer} {w : World} (hu : u.Reports w)
    (h : b.undo b.blockNumber b.world = w) :
    (u.apply b).undo b.blockNumber (u.apply b).world = w := by
  have hacc := congrArg World.account h
  have hst := congrArg World.storage h
  cases u with
  | account a initial current =>
    ext1
    · funext a'
      rw [undo_account, world_apply, apply, accountChange_updateAccount]
      by_cases ha : a' = a
      · rw [if_pos ⟨rfl, ha⟩, ha]
        exact hu
      · rw [if_neg fun h => ha h.2, ← congrFun hacc a', undo_account]
        simp only [onWorld, if_neg ha]
    · funext a' i' location'
      rw [undo_storage, world_apply, apply, storageChange_updateAccount, ← hst, undo_storage]
      rfl
  | code a incarnation codeHash bytes => exact h
  | storage a incarnation location initial current =>
    ext1
    · exact hacc
    · funext a' i' location'
      rw [undo_storage, world_apply, apply, storageChange_updateStorage]
      by_cases hk : (a', i', location') = (a, incarnation, location)
      · rw [if_pos ⟨rfl, hk⟩]
        cases hk
        exact hu
      · rw [if_neg fun h => hk h.2, ← hst, undo_storage]
        simp only [onWorld, if_neg hk]

end Update

namespace Blockchain
open MemoryBuffer

variable {block : Block} {updates : List Update} {b : MemoryBuffer}

theorem world_foldl (updates : List Update) (b : MemoryBuffer) :
    (updates.foldl Update.apply b).world = updates.foldl Update.onWorld b.world := by
  induction updates generalizing b with
  | nil => rfl
  | cons u updates ih => rw [List.foldl_cons, List.foldl_cons, ih, Update.world_apply]

theorem world_writeBlock (block : Block) (updates : List Update) (b : MemoryBuffer) :
    (writeBlock block updates b).world = updates.foldl Update.onWorld b.world :=
  world_foldl updates _

/-- A buffer in the middle of a block: what the block did up to here can be undone, and the
change sets of other blocks stay as they are. -/
structure Recording (n : Uint64) (b b' : MemoryBuffer) : Prop where
  blockNumber : b'.blockNumber = n
  undo : b'.undo n b'.world = b.world
  others : ∀ m, m ≠ n → b'.undo m = b.undo m

theorem recording_beginBlock (n : Uint64) (b : MemoryBuffer) : Recording n b (b.beginBlock n) := by
  refine ⟨rfl, ?_, fun m hne => ?_⟩
  · ext1
    · funext a
      rw [undo_account, accountChange, beginBlock, HashMap.findD, HashMap.find_remove_self]
      rfl
    · funext a i location
      rw [undo_storage, storageChange, beginBlock, HashMap.findD, HashMap.find_remove_self]
      rfl
  · funext w
    ext1
    · funext a
      rw [undo_account, accountChange, beginBlock, HashMap.findD, HashMap.find_remove_ne hne]
      rfl
    · funext a i location
      rw [undo_storage, storageChange, beginBlock, HashMap.findD, HashMap.find_remove_ne hne]
      rfl

theorem Recording.apply {n : Uint64} {b' : MemoryBuffer} (h : Recording n b b') {u : Update}
    (hu : u.Reports b.world) : Recording n b (u.apply b') := by
  obtain ⟨rfl, hundo, hothers⟩ := h
  refine ⟨u.blockNumber_apply b', u.undo_apply hu hundo, fun m hne => ?_⟩
  rw [u.undo_apply_of_ne hne, hothers m hne]

theorem recording_foldl {n : Uint64} (hu : ∀ u ∈ updates, u.Reports b.world) :
    Recording n b (updates.foldl Update.apply (b.beginBlock n)) := by
  have hfold : ∀ (us : List Update) (b' : MemoryBuffer), (∀ u ∈ us, u.Reports b.world) →
      Recording n b b' → Recording n b (us.foldl Update.apply b') := by
    intro us
    induction us with
    | nil => exact fun _ _ h => h
    | cons u us ih =>
      intro b' hus h
      exact ih (u.apply b') (fun v hv => hus v (List.mem_cons_of_mem _ hv))
        (h.apply (hus u List.mem_cons_self))
  exact hfold updates _ hu (recording_beginBlock n b)

theorem recording_writeBlock (hu : ∀ u ∈ updates, u.Reports b.world) :
    Recording block.header.number b (writeBlock block updates b) := recording_foldl hu

end Blockchain
end Silkworm
