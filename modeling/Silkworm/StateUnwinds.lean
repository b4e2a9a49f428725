import Silkworm.StateRoots

/-!
# Unwinding inverts execution

Any number of blocks is unwound in the reverse order. What can be read of the accounts and of
the storage is then what it was before the first of them, and so are the roots.
-/

namespace Silkworm

namespace StorageMap

/-- A slot holds a value other than zero if it holds one at all. -/
theorem find_put_ne {m : StorageMap} (h : ∀ a i location, m.find a i location ≠ some default)
    (a : Address) (i : Uint64) (location value : Bytes32) (a' : Address) (i' : Uint64)
    (location' : Bytes32) : (m.put a i location value).find a' i' location' ≠ some default := by
  rw [put]
  split_ifs with hz
  · rw [find, locations_setLocations]
    split_ifs with hk
    · rw [HashMap.find_remove]
      split_ifs with hl
      · simp
      · exact h a i location'
    · exact h a' i' location'
  · rw [find_set]
    split_ifs with hk
    · intro hv
      cases hv
      exact hz (decide_eq_true rfl)
    · exact h a' i' location'

end StorageMap

namespace MemoryBuffer

/-- The buffers that the operations of the class build. -/
inductive Built : MemoryBuffer → Prop
  | empty : Built {}
  | insertBlock {b : MemoryBuffer} (h : Built b) (block : Block) (hash : Bytes32) :
      Built (b.insertBlock block hash)
  | canonizeBlock {b : MemoryBuffer} (h : Built b) (n : Uint64) (hash : Bytes32) :
      Built (b.canonizeBlock n hash)
  | decanonizeBlock {b : MemoryBuffer} (h : Built b) (n : Uint64) : Built (b.decanonizeBlock n)
  | beginBlock {b : MemoryBuffer} (h : Built b) (n : Uint64) : Built (b.beginBlock n)
  | update {b : MemoryBuffer} (h : Built b) (u : Update) : Built (u.apply b)
  | unwindStateChanges {b : MemoryBuffer} (h : Built b) (n : Uint64) :
      Built (b.unwindStateChanges n)

theorem NoZeros.apply {b : MemoryBuffer} (h : b.NoZeros) (u : Update) : (u.apply b).NoZeros := by
  cases u with
  | account a initial current =>
    have hst : (b.updateAccount a initial current).storage = b.storage := by
      unfold updateAccount
      cases current with
      | some account => rfl
      | none => cases initial <;> rfl
    rw [NoZeros, Update.apply, hst]
    exact h
  | code a incarnation codeHash bytes => exact h
  | storage a incarnation location initial current =>
    exact StorageMap.find_put_ne h a incarnation location current

theorem NoZeros.unwindStateChanges {b : MemoryBuffer} (h : b.NoZeros) (n : Uint64) :
    (b.unwindStateChanges n).NoZeros := by
  have hfold : ∀ (l : List ((Address × Uint64 × Bytes32) × Bytes32)) (m : StorageMap),
      (∀ a i location, m.find a i location ≠ some default) →
      ∀ a i location, StorageMap.find (l.foldl restoreStorage m) a i location ≠ some default := by
    intro l
    induction l with
    | nil => exact fun _ hm => hm
    | cons e l ih =>
      intro m hm
      exact ih (restoreStorage m e) (StorageMap.find_put_ne hm _ _ _ _)
  exact hfold _ _ h

theorem Built.noZeros {b : MemoryBuffer} (h : Built b) : b.NoZeros := by
  induction h with
  | empty => exact fun a i location h => by cases h
  | insertBlock _ block hash ih => exact ih
  | canonizeBlock _ n hash ih => exact ih
  | decanonizeBlock _ n ih => exact ih
  | beginBlock _ n ih => exact ih
  | update _ u ih => exact ih.apply u
  | unwindStateChanges _ n ih => exact ih.unwindStateChanges n

/-- The updates of the blocks after a number, each after its `begin_block`. -/
def applyBlocks (n : Uint64) : List (List Update) → MemoryBuffer → MemoryBuffer
  | [], b => b
  | updates :: blocks, b =>
    applyBlocks (n + 1) blocks (updates.foldl Update.apply (b.beginBlock (n + 1)))

/-- Every update reports what was read at the `begin_block` of its block. -/
def Reporting (n : Uint64) : List (List Update) → MemoryBuffer → Prop
  | [], _ => True
  | updates :: blocks, b =>
    (∀ u ∈ updates, u.Reports (b.beginBlock (n + 1)).world) ∧
      Reporting (n + 1) blocks (updates.foldl Update.apply (b.beginBlock (n + 1)))

/-- Unwind as many blocks after a number, the last one first. -/
def unwindBlocks (n : Uint64) : ℕ → MemoryBuffer → MemoryBuffer
  | 0, b => b
  | k + 1, b => (unwindBlocks (n + 1) k b).unwindStateChanges (n + 1)

section Unwinding

variable {b : MemoryBuffer} {n : Uint64} {blocks : List (List Update)}

theorem Built.foldl (h : Built b) (updates : List Update) :
    Built (updates.foldl Update.apply b) := by
  induction updates generalizing b with
  | nil => exact h
  | cons u updates ih => exact ih (h.update u)

theorem Built.applyBlocks (h : Built b) : Built (applyBlocks n blocks b) := by
  induction blocks generalizing n b with
  | nil => exact h
  | cons updates blocks ih => exact ih ((h.beginBlock _).foldl updates)

theorem Built.unwindBlocks (h : Built b) (k : ℕ) : Built (unwindBlocks n k b) := by
  induction k generalizing n with
  | zero => exact h
  | succ k ih => exact ih.unwindStateChanges _

theorem undo_unwindBlocks (m : Uint64) (k : ℕ) : (unwindBlocks n k b).undo m = b.undo m := by
  induction k generalizing n with
  | zero => rfl
  | succ k ih =>
    rw [← ih (n := n + 1)]
    rfl

private theorem number_succ (blocks : List (List Update)) (h : n.toNat + (blocks.length + 1) < 2 ^ 64) :
    (n + 1).toNat = n.toNat + 1 := by
  rw [BitVec.toNat_add]
  exact Nat.mod_eq_of_lt (by simpa using (by omega : n.toNat + 1 < 2 ^ 64))

theorem Reporting.recording {updates : List Update} (hr : Reporting n (updates :: blocks) b) :
    Blockchain.Recording (n + 1) b (updates.foldl Update.apply (b.beginBlock (n + 1))) :=
  Blockchain.recording_foldl (b := b) hr.1

/-- The change sets of earlier blocks stay as they are. -/
theorem undo_applyBlocks (hn : n.toNat + blocks.length < 2 ^ 64) (hr : Reporting n blocks b)
    {m : Uint64} (hm : m.toNat ≤ n.toNat) : (applyBlocks n blocks b).undo m = b.undo m := by
  induction blocks generalizing n b with
  | nil => rfl
  | cons updates blocks ih =>
    have hsucc := number_succ blocks hn
    rw [List.length_cons] at hn
    rw [applyBlocks, ih (by omega) hr.2 (by omega)]
    apply hr.recording.others
    intro h
    rw [h] at hm
    omega

theorem world_unwindBlocks (hn : n.toNat + blocks.length < 2 ^ 64) (hr : Reporting n blocks b) :
    (unwindBlocks n blocks.length (applyBlocks n blocks b)).world = b.world := by
  induction blocks generalizing n b with
  | nil => rfl
  | cons updates blocks ih =>
    have hsucc := number_succ blocks hn
    rw [List.length_cons] at hn
    have hlen : (n + 1).toNat + blocks.length < 2 ^ 64 := by omega
    -- the later blocks are gone, and the change set of the first one is still there
    rw [List.length_cons, unwindBlocks, world_unwindStateChanges, applyBlocks, ih hlen hr.2,
      undo_unwindBlocks, undo_applyBlocks hlen hr.2 le_rfl, hr.recording.undo]

/-- The roots depend on what can be read only, unless two keys of a trie are the same. -/
theorem roots_eq {keccak : Bytes → Bytes32} {b' : MemoryBuffer} (hb : Built b) (hb' : Built b')
    (hfree : b.world.CollisionFree keccak) (hw : b'.world = b.world) :
    (∀ a i, accountStorageRoot keccak a i b' = accountStorageRoot keccak a i b) ∧
      stateRootHash keccak b' = stateRootHash keccak b := by
  have hfree' : b'.world.CollisionFree keccak := hw ▸ hfree
  constructor
  · intro a i
    obtain ⟨root, h, hroot⟩ := accountStorageRoot_eq hb.noZeros hfree a i
    obtain ⟨root', h', hroot'⟩ := accountStorageRoot_eq hb'.noZeros hfree' a i
    rw [hw] at hroot'
    rw [h, h', hroot.unique hroot']
  · obtain ⟨root, h, hroot⟩ := stateRootHash_eq hb.noZeros hfree
    obtain ⟨root', h', hroot'⟩ := stateRootHash_eq hb'.noZeros hfree'
    rw [hw] at hroot'
    rw [h, h', hroot.unique hroot']

/-- Unwinding the blocks in the reverse order takes back all that can be read, and the roots. -/
theorem unwindBlocks_applyBlocks {keccak : Bytes → Bytes32} (hn : n.toNat + blocks.length < 2 ^ 64)
    (hr : Reporting n blocks b) :
    (∀ a, (unwindBlocks n blocks.length (applyBlocks n blocks b)).readAccount a =
      b.readAccount a) ∧
    (∀ a i location,
      (unwindBlocks n blocks.length (applyBlocks n blocks b)).readStorage a i location =
        b.readStorage a i location) ∧
    (Built b → b.world.CollisionFree keccak →
      (∀ a i, accountStorageRoot keccak a i
          (unwindBlocks n blocks.length (applyBlocks n blocks b)) =
        accountStorageRoot keccak a i b) ∧
      stateRootHash keccak (unwindBlocks n blocks.length (applyBlocks n blocks b)) =
        stateRootHash keccak b) := by
  have hw := world_unwindBlocks hn hr
  refine ⟨fun a => ?_, fun a i location => ?_, fun hb hfree => ?_⟩
  · exact congrFun (congrArg World.account hw) a
  · exact congrFun (congrFun (congrFun (congrArg World.storage hw) a) i) location
  · exact roots_eq hb (hb.applyBlocks.unwindBlocks blocks.length) hfree hw

end Unwinding

section Examples

open Trie

def slotAccount : Account := { balance := 1, incarnation := 1 }

def oneWord : Bytes32 := FixedBytes.ofByte 31 1

/-- A buffer with an account and a slot. -/
def oneSlot : MemoryBuffer :=
  [Update.account default none (some slotAccount),
    Update.storage default 1 default default oneWord].foldl Update.apply (beginBlock 1 {})

/-- A block that deletes the account and its slot, and one that pays the account twice. -/
def twoBlocks : List (List Update) :=
  [[.storage default 1 default oneWord default, .account default (some slotAccount) none],
    [.account default none (some { balance := 5 }), .account default none (some { balance := 7 })]]

def locationHash : Bytes32 :=
  ⟨[0x29, 0x0d, 0xec, 0xd9, 0x54, 0x8b, 0x62, 0xa8, 0xd6, 0x03, 0x45, 0xa9, 0x88, 0x38, 0x6f, 0xc8,
    0x4b, 0xa6, 0xbc, 0x95, 0x48, 0x40, 0x08, 0xf6, 0x36, 0x2f, 0x93, 0x16, 0x0e, 0xf3, 0xe5, 0x63],
    rfl⟩

def addressHash : Bytes32 :=
  ⟨[0x53, 0x80, 0xc7, 0xb7, 0xae, 0x81, 0xa5, 0x8e, 0xb9, 0x8d, 0x9c, 0x78, 0xde, 0x4a, 0x1f, 0xd7,
    0xfd, 0x95, 0x35, 0xfc, 0x95, 0x3e, 0xd2, 0xbe, 0x60, 0x2d, 0xaa, 0xa4, 0x17, 0x67, 0x31, 0x2a],
    rfl⟩

def oneSlotStorageRoot : Bytes32 :=
  ⟨[0x82, 0x1e, 0x25, 0x56, 0xa2, 0x90, 0xc8, 0x64, 0x05, 0xf8, 0x16, 0x0a, 0x2d, 0x66, 0x20, 0x42,
    0xa4, 0x31, 0xba, 0x45, 0x6b, 0x9d, 0xb2, 0x65, 0xc7, 0x9b, 0xb8, 0x37, 0xc0, 0x4b, 0xe5, 0xf0],
    rfl⟩

def oneSlotStateRoot : Bytes32 :=
  ⟨[0x1d, 0xc8, 0x7a, 0xfb, 0xc7, 0xf1, 0xd0, 0x05, 0x85, 0xa2, 0x8c, 0xa1, 0x9b, 0xbf, 0x12, 0x39,
    0x71, 0xae, 0x55, 0x8d, 0x37, 0xfb, 0x01, 0xca, 0x76, 0xda, 0x77, 0x8d, 0x7e, 0x1e, 0x85, 0x40],
    rfl⟩

/-- The hash function, at the keys and the nodes of the buffer. -/
def oneSlotKeccak (bytes : Bytes) : Bytes32 :=
  if bytes = List.replicate 32 0 then locationHash
  else if bytes = List.replicate 20 0 then addressHash
  else if bytes = leafNode (nibbles locationHash.val) [1] then oneSlotStorageRoot
  else if bytes = leafNode (nibbles addressHash.val) (slotAccount.rlp oneSlotStorageRoot) then
    oneSlotStateRoot
  else default

/-- A single account with a single slot. -/
theorem World.CollisionFree.of_default {keccak : Bytes → Bytes32} {w : World}
    (hacc : ∀ a, w.account a ≠ none → a = default)
    (hst : ∀ a i l, w.storage a i l ≠ default → l = default) : w.CollisionFree keccak :=
  ⟨fun a a' h h' _ => (hacc a h).trans (hacc a' h').symm,
    fun a i l l' h h' _ => (hst a i l h).trans (hst a i l' h').symm⟩

theorem collisionFree_oneSlot : oneSlot.world.CollisionFree oneSlotKeccak := by
  have hw : oneSlot.world = _ := Blockchain.world_foldl _ _
  have hacc (a : Address) (h : oneSlot.world.account a ≠ none) : a = default := by
    by_contra hne
    rw [hw] at h
    simp only [List.foldl_cons, List.foldl_nil, Update.onWorld, if_neg hne] at h
    exact h rfl
  have hst (a : Address) (i : Uint64) (l : Bytes32) (h : oneSlot.world.storage a i l ≠ default) :
      l = default := by
    by_contra hne
    rw [hw] at h
    have hk : ¬(a, i, l) = (default, 1, default) := fun h => hne (by simp_all)
    simp only [List.foldl_cons, List.foldl_nil, Update.onWorld, if_neg hk] at h
    exact h rfl
  exact .of_default hacc hst

/-- The account and the slot are back, and so is the root. -/
theorem unwindBlocks_applyBlocks_oneSlot :
    Built oneSlot ∧ oneSlot.world.CollisionFree oneSlotKeccak ∧ Reporting 1 twoBlocks oneSlot ∧
    oneSlot.readAccount default = some slotAccount ∧
    (applyBlocks 1 twoBlocks oneSlot).readAccount default = some { balance := 7 } ∧
    (unwindBlocks 1 2 (applyBlocks 1 twoBlocks oneSlot)).readAccount default =
      some slotAccount ∧
    stateRootHash oneSlotKeccak (unwindBlocks 1 2 (applyBlocks 1 twoBlocks oneSlot)) =
      stateRootHash oneSlotKeccak oneSlot := by
  have hb : Built oneSlot := (Built.empty.beginBlock 1).foldl _
  have hr : Reporting 1 twoBlocks oneSlot := by
    refine ⟨?_, ?_, trivial⟩
    · intro u hu
      simp only [List.mem_cons, List.not_mem_nil, or_false] at hu
      rcases hu with rfl | rfl <;> rfl
    · intro u hu
      simp only [List.mem_cons, List.not_mem_nil, or_false] at hu
      rcases hu with rfl | rfl <;> rfl
  have h := @unwindBlocks_applyBlocks oneSlot 1 twoBlocks oneSlotKeccak (by decide) hr
  exact ⟨hb, collisionFree_oneSlot, hr, rfl, rfl, h.1 default, (h.2.2 hb collisionFree_oneSlot).2⟩

end Examples

end MemoryBuffer
end Silkworm
