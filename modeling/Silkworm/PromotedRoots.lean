import Silkworm.DbTrieLoader

/-!
# The root of the promoted state

The copy of the state has the slots of a contract under a key that the loader of the state root
does not look for. The root that is computed from the copy is that of the accounts without their
slots, if the tries pass.
-/

namespace Silkworm.Db
open BigEndian Rlp SortedTables MemoryBuffer
open Trie hiding Entry Before

section Roots

variable {keccak : Bytes → Bytes32} {w : World} {t : Table}

/-- The accounts of a world, without any slot. -/
def withoutSlots (w : World) : World where
  account := w.account
  storage _ _ _ := default

theorem withoutSlots_eq (h : ∀ a i location, w.storage a i location = default) :
    withoutSlots w = w := by
  refine World.ext rfl ?_
  funext a i location
  exact (h a i location).symm

theorem collisionFree_withoutSlots (h : w.CollisionFree keccak) :
    (withoutSlots w).CollisionFree keccak :=
  ⟨h.account, fun _ _ _ _ hne => absurd rfl hne⟩

/-- There is no slot under the keys that the loader looks for. -/
theorem holdsState_promoteCleanState (h : Stores w t)
    (hinj : ∀ {a a' : Address}, Occupied w a → Occupied w a' → keccak a.val = keccak a'.val → a = a') :
    ∃ hashed, promoteCleanState keccak t {} = some hashed ∧
      HoldsState keccak (withoutSlots w) hashed := by
  obtain ⟨hashed, hrun, haccounts, hstorage⟩ := exists_promoteCleanState h hinj
  refine ⟨hashed, hrun, haccounts, fun a account _ _ v => ?_⟩
  refine iff_of_false (fun hmem => ?_) fun ⟨location, hne, _⟩ => hne rfl
  obtain ⟨a', i, location, -, heq⟩ := (hstorage _).mp hmem
  have hlen := congrArg List.length (Prod.mk.inj heq).1
  rw [length_hashedSlotKey, storagePrefix, List.length_append, (keccak a.val).property,
    length_bigU64] at hlen
  exact absurd hlen (by decide)

/-- The loader returns the root of the accounts without their slots, or fails because a trie does
not pass. -/
theorem calculateRoot_promoteCleanState_cases (h : Stores w t) (hfree : w.CollisionFree keccak)
    (ho : Owned w) :
    (TriesPass keccak (withoutSlots w) ∧ ∃ root,
        ((promoteCleanState keccak t {}).bind (DbTrieLoader.calculateRoot keccak)).map Prod.fst =
          some root ∧ (withoutSlots w).StateRoot keccak root) ∨
      ¬TriesPass keccak (withoutSlots w) ∧
        ((promoteCleanState keccak t {}).bind (DbTrieLoader.calculateRoot keccak)).map Prod.fst =
          none := by
  obtain ⟨hashed, hrun, hholds⟩ := holdsState_promoteCleanState h (ho.injective hfree)
  rw [hrun, Option.bind_some]
  exact calculateRoot_cases (collisionFree_withoutSlots hfree) (fun _ _ _ _ _ => rfl) hholds

end Roots

/-- A state without slots that was written to the tables has the root that is computed from
them, exactly when its tries pass. -/
theorem calculateRoot_promoteCleanState {keccak : Bytes → Bytes32} {b : Buffer}
    (hfree : (b.overlay noWorld).CollisionFree keccak)
    (hslots : ∀ a i location, (b.overlay noWorld).storage a i location = default) :
    (∃ root, ((promoteCleanState keccak (b.writeToStateTable {}) {}).bind
          (DbTrieLoader.calculateRoot keccak)).map Prod.fst = some root ∧
        (b.overlay noWorld).StateRoot keccak root) ↔
      TriesPass keccak (b.overlay noWorld) := by
  have hstores := b.stores_writeToStateTable stores_empty
  have howned : Owned (b.overlay noWorld) := fun a i location hne =>
    absurd (hslots a i location) hne
  have hcases := calculateRoot_promoteCleanState_cases hstores hfree howned
  rw [withoutSlots_eq hslots] at hcases
  rcases hcases with ⟨hpass, hroot⟩ | ⟨hfail, hnone⟩
  · exact iff_of_true hroot hpass
  · rw [hnone]
    exact iff_of_false (fun ⟨root, hroot, _⟩ => by cases hroot) hfail

section Examples

/-- A buffer with an account, and with a slot unless its value is zero. -/
def slotBuffer (value : Bytes32) : Buffer where
  accounts := HashMap.set ∅ default (some slotAccount)
  storage := StorageMap.set ∅ default 1 default value

/-- The hash function, at the keys and the nodes of the tables and the tries. -/
def promotedKeccak (bytes : Bytes) : Bytes32 :=
  if bytes = [] then kEmptyHash
  else if bytes = leafNode (nibbles addressHash.val) (slotAccount.rlp kEmptyRoot) then
    noSlotStateRoot
  else oneSlotKeccak bytes

theorem promotedKeccak_address : promotedKeccak (default : Address).val = addressHash := by decide

theorem promotedKeccak_location : promotedKeccak (default : Bytes32).val = locationHash := by decide

theorem promotedKeccak_leaf (root : Bytes32) (h : root = kEmptyRoot ∨ root = oneSlotStorageRoot) :
    promotedKeccak (leafNode (nibbles addressHash.val) (slotAccount.rlp root)) =
      if root = kEmptyRoot then noSlotStateRoot else oneSlotStateRoot := by
  rcases h with rfl | rfl <;> decide

theorem account_slotBuffer (value : Bytes32) (a : Address) :
    ((slotBuffer value).overlay noWorld).account a = if a = default then some slotAccount else none := by
  change ((HashMap.set ∅ default (some slotAccount)).find a).getD none = _
  rw [HashMap.find_set]
  split_ifs <;> rfl

theorem storage_slotBuffer (value : Bytes32) (a : Address) (i : Uint64) (location : Bytes32) :
    ((slotBuffer value).overlay noWorld).storage a i location =
      if (a, i, location) = (default, 1, default) then value else default := by
  change ((StorageMap.set ∅ default 1 default value).find a i location).getD default = _
  rw [StorageMap.find_set]
  split_ifs <;> rfl

theorem collisionFree_slotBuffer {keccak : Bytes → Bytes32} (value : Bytes32) :
    ((slotBuffer value).overlay noWorld).CollisionFree keccak := by
  refine .of_default (fun a ha => ?_) fun a i location hs => ?_
  · rw [account_slotBuffer] at ha
    by_contra hne
    exact ha (if_neg hne)
  · rw [storage_slotBuffer] at hs
    by_contra hne
    exact hs (if_neg fun heq => hne (by simp_all))

theorem accounts_slotBuffer (value : Bytes32) :
    ((slotBuffer value).overlay noWorld).Accounts [(default, slotAccount)] := by
  refine ⟨List.nodup_singleton _, fun a account => ?_⟩
  rw [account_slotBuffer, List.mem_singleton, Prod.mk.injEq]
  split_ifs with ha
  · simp [ha, eq_comm]
  · simp [ha]

theorem triesPass_slotBuffer (keccak : Bytes → Bytes32) (value : Bytes32) :
    TriesPass keccak (withoutSlots ((slotBuffer value).overlay noWorld)) := by
  have haccounts : (withoutSlots ((slotBuffer value).overlay noWorld)).Accounts
      [(default, slotAccount)] := accounts_slotBuffer value
  apply triesPass_of_listings haccounts (fun _ _ _ => storageRoot_empty fun _ => rfl)
  · intro a account _
    exact ⟨[], slots_nil fun _ => rfl, nodesPass_nil⟩
  · exact nodesPass_singleton _

/-- The state with one account and without storage has the root that is computed. -/
theorem calculateRoot_promoteCleanState_noSlot :
    ∃ root, ((promoteCleanState promotedKeccak ((slotBuffer default).writeToStateTable {}) {}).bind
        (DbTrieLoader.calculateRoot promotedKeccak)).map Prod.fst = some root ∧
      ((slotBuffer default).overlay noWorld).StateRoot promotedKeccak root := by
  have hslots (a : Address) (i : Uint64) (location : Bytes32) :
      ((slotBuffer default).overlay noWorld).storage a i location = default := by
    rw [storage_slotBuffer, ite_self]
  apply (calculateRoot_promoteCleanState (collisionFree_slotBuffer default) hslots).mpr
  rw [← withoutSlots_eq hslots]
  exact triesPass_slotBuffer promotedKeccak default

theorem owned_slotBuffer (value : Bytes32) : Owned ((slotBuffer value).overlay noWorld) := by
  intro a i location hne
  rw [storage_slotBuffer] at hne
  split_ifs at hne with hk
  · cases hk
    exact ⟨slotAccount, account_slotBuffer value default, rfl⟩
  · exact absurd rfl hne

theorem slots_slotBuffer {value : Bytes32} (h : value ≠ default) :
    ((slotBuffer value).overlay noWorld).Slots default 1 [(default, value)] := by
  refine ⟨List.nodup_singleton _, fun location value' => ?_⟩
  rw [storage_slotBuffer, List.mem_singleton, Prod.mk.injEq]
  split_ifs with hk
  · cases hk
    exact ⟨fun hv => ⟨hv.2.symm, hv.2 ▸ h⟩, fun hv => ⟨rfl, hv.1.symm⟩⟩
  · exact ⟨fun hv => absurd (by rw [hv.1]) hk, fun hv => absurd hv.1.symm hv.2⟩

theorem stateRoot_withoutSlots (value : Bytes32) :
    (withoutSlots ((slotBuffer value).overlay noWorld)).StateRoot promotedKeccak
      noSlotStateRoot := by
  refine ⟨[(default, slotAccount)], fun _ => kEmptyRoot, accounts_slotBuffer value,
    fun _ _ _ => storageRoot_empty fun _ => rfl, ?_⟩
  rw [List.map_singleton, trieRoot_singleton]
  dsimp only
  rw [promotedKeccak_address, promotedKeccak_leaf _ (.inl rfl)]
  rfl

theorem stateRoot_oneSlot :
    ((slotBuffer oneWord).overlay noWorld).StateRoot promotedKeccak oneSlotStateRoot := by
  refine ⟨[(default, slotAccount)], fun _ => oneSlotStorageRoot, accounts_slotBuffer oneWord,
    fun a account ha => ?_, ?_⟩
  · rw [account_slotBuffer] at ha
    split_ifs at ha with hdefault
    cases ha
    rw [hdefault]
    refine ⟨_, slots_slotBuffer (by decide), ?_⟩
    rw [List.map_singleton, trieRoot_singleton]
    dsimp only
    rw [promotedKeccak_location]
    decide
  · rw [List.map_singleton, trieRoot_singleton]
    dsimp only
    rw [promotedKeccak_address, promotedKeccak_leaf _ (.inr rfl)]
    rfl

/-- The root that is computed for a state with a slot is that of the account without it. -/
theorem calculateRoot_promoteCleanState_oneSlot :
    Owned ((slotBuffer oneWord).overlay noWorld) ∧
    ((slotBuffer oneWord).overlay noWorld).CollisionFree promotedKeccak ∧
    ((promoteCleanState promotedKeccak ((slotBuffer oneWord).writeToStateTable {}) {}).bind
      (DbTrieLoader.calculateRoot promotedKeccak)).map Prod.fst = some noSlotStateRoot ∧
    ((slotBuffer oneWord).overlay noWorld).StateRoot promotedKeccak oneSlotStateRoot ∧
    noSlotStateRoot ≠ oneSlotStateRoot := by
  have howned := owned_slotBuffer oneWord
  have hfree : ((slotBuffer oneWord).overlay noWorld).CollisionFree promotedKeccak :=
    collisionFree_slotBuffer oneWord
  refine ⟨howned, hfree, ?_, stateRoot_oneSlot, by decide⟩
  have hstores := Buffer.stores_writeToStateTable (slotBuffer oneWord) stores_empty
  rcases calculateRoot_promoteCleanState_cases hstores hfree howned with
    ⟨-, root, hrun, hroot⟩ | ⟨hfail, -⟩
  · rw [hrun, hroot.unique (stateRoot_withoutSlots oneWord)]
  · exact absurd (triesPass_slotBuffer promotedKeccak oneWord) hfail

end Examples

end Silkworm.Db
