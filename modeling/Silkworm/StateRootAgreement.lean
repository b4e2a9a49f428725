import Silkworm.BufferAgreement
import Silkworm.StateUnwinds

/-!
# The state roots of the two buffers

Both buffers compute the root of the state, as long as no slot that was changed has become
zero: one of them takes zeros out of its map, and the other puts them into the trie.
-/

namespace Silkworm.Db
open MemoryBuffer Rlp Trie

variable {keccak : Bytes → Bytes32} {cs : List Call}

theorem built_foldl (cs : List Call) : Built (cs.foldl Call.make ({} : MemoryBuffer)) := by
  have hfold : ∀ (cs : List Call) (m : MemoryBuffer), Built m → Built (cs.foldl Call.make m) := by
    intro cs
    induction cs with
    | nil => exact fun _ h => h
    | cons c cs ih =>
      intro m h
      refine ih _ ?_
      cases c with
      | beginBlock n => exact h.beginBlock n
      | update u =>
        rw [Call.make, Update.issue_memoryBuffer]
        exact h.update u
  exact hfold cs {} .empty

section Maps

theorem txn_foldl (cs : List Call) : (cs.foldl Call.make ({} : Buffer)).maps.txn = none := by
  induction cs using List.reverseRecOn with
  | nil => rfl
  | append_singleton cs c ih =>
    rw [List.foldl_append, List.foldl_cons, List.foldl_nil]
    generalize cs.foldl Call.make ({} : Buffer) = b at ih
    cases c with
    | beginBlock n => exact ih
    | update u =>
      cases u with
      | account a initial current =>
        exact (congrArg Buffer.Maps.txn (b.maps_updateAccount a initial current)).trans ih
      | code a i codeHash bytes =>
        exact (congrArg Buffer.Maps.txn (b.maps_updateAccountCode a i codeHash bytes)).trans ih
      | storage a i location initial current =>
        refine (congrArg Buffer.Maps.txn
          (b.maps_updateStorage a i location initial current)).trans ?_
        split_ifs <;> exact ih

/-- A slot has been changed. -/
def Changed (cs : List Call) (a : Address) (incarnation : Uint64) (location : Bytes32) : Prop :=
  ∃ initial current, Call.update (.storage a incarnation location initial current) ∈ cs ∧
    current ≠ initial

/-- The slots in the map of the buffer have been changed. -/
theorem changed_of_find {a : Address} {i : Uint64} {location : Bytes32}
    (h : (cs.foldl Call.make ({} : Buffer)).maps.storage.find a i location ≠ none) :
    Changed cs a i location := by
  induction cs using List.reverseRecOn with
  | nil => exact absurd rfl h
  | append_singleton cs c ih =>
    have hkeep (hk : (cs.foldl Call.make ({} : Buffer)).maps.storage.find a i location ≠ none) :
        Changed (cs ++ [c]) a i location := by
      obtain ⟨initial, current, hm, hne⟩ := ih hk
      exact ⟨initial, current, List.mem_append_left _ hm, hne⟩
    rw [List.foldl_append, List.foldl_cons, List.foldl_nil] at h
    generalize cs.foldl Call.make ({} : Buffer) = b at h hkeep
    cases c with
    | beginBlock n => exact hkeep h
    | update u =>
      cases u with
      | account a' initial current =>
        rw [show (Call.update (.account a' initial current)).make b =
          b.updateAccount a' initial current from rfl, b.maps_updateAccount] at h
        exact hkeep h
      | code a' i' codeHash bytes =>
        rw [show (Call.update (.code a' i' codeHash bytes)).make b =
          b.updateAccountCode a' i' codeHash bytes from rfl, b.maps_updateAccountCode] at h
        exact hkeep h
      | storage a' i' location' initial current =>
        rw [show (Call.update (.storage a' i' location' initial current)).make b =
          b.updateStorage a' i' location' initial current from rfl, b.maps_updateStorage] at h
        split_ifs at h with heq
        · exact hkeep h
        · dsimp only at h
          rw [StorageMap.find_set] at h
          split_ifs at h with hk
          · cases hk
            exact ⟨initial, current, List.mem_append_right _ List.mem_cons_self, heq⟩
          · exact hkeep h

end Maps

section Roots

/-- A loop that leaves out the deleted accounts. -/
private theorem foldlM_live {Y : Type} (f : Y → Address × Account → Option Y)
    (l : List (Address × Option Account)) (y : Y) :
    l.foldlM (fun y e => match e.2 with
      | none => some y
      | some account => f y (e.1, account)) y =
    (l.filterMap fun e => e.2.map (Prod.mk e.1)).foldlM f y := by
  induction l generalizing y with
  | nil => rfl
  | cons e l ih =>
    obtain ⟨a, account⟩ := e
    cases account with
    | none => exact ih y
    | some account =>
      have hlive : ((a, some account) :: l).filterMap (fun e => e.2.map (Prod.mk e.1)) =
          (a, account) :: l.filterMap fun e => e.2.map (Prod.mk e.1) := rfl
      rw [hlive, List.foldlM_cons, List.foldlM_cons]
      exact congrArg ((f y (a, account)).bind ·) (funext ih)

variable {m : MemoryBuffer} {b : Buffer}

theorem SameReads.accounts (h : SameReads m b) (ht : b.maps.txn = none) :
    m.world.Accounts (b.accounts.toList.filterMap fun e => e.2.map (Prod.mk e.1)) := by
  have hfind (a : Address) (account : Account) :
      b.maps.accounts.find a = some (some account) ↔ m.readAccount a = some account := by
    have hread := h.account a
    rw [b.readAccount_eq, ht] at hread
    cases hf : b.maps.accounts.find a with
    | none =>
      rw [hf] at hread
      rw [← Option.some.inj hread]
      simp
    | some x =>
      rw [hf] at hread
      rw [← Option.some.inj hread, Option.some.injEq]
  refine ⟨?_, fun a account => ?_⟩
  · refine (HashMap.keys_toList_nodup b.accounts).of_map.filterMap fun x y e hx hy => ?_
    obtain ⟨account, hxa, rfl⟩ := Option.map_eq_some_iff.mp hx
    obtain ⟨account', hya, he⟩ := Option.map_eq_some_iff.mp hy
    obtain ⟨h1, h2⟩ := Prod.mk.inj he
    rw [h2] at hya
    exact Prod.ext h1.symm (hxa.trans hya.symm)
  · rw [List.mem_filterMap]
    refine Iff.trans ?_ (hfind a account)
    constructor
    · rintro ⟨⟨a', x⟩, he, hx⟩
      obtain ⟨account', hxa, hx⟩ := Option.map_eq_some_iff.mp hx
      cases hx
      rw [show x = some account from hxa] at he
      exact HashMap.mem_toList.mp he
    · intro hf
      exact ⟨(a, some account), HashMap.mem_toList.mpr hf, rfl⟩

/-- A buffer whose zeros all belong to other incarnations has the same root. -/
theorem SameReads.stateRootHash (h : SameReads m b) (ht : b.maps.txn = none)
    (hfree : m.world.CollisionFree keccak)
    (hne : ∀ a account, m.readAccount a = some account →
      ∀ location, b.maps.storage.find a account.incarnation location ≠ some default) :
    ∃ root, Buffer.stateRootHash keccak b = some root ∧ m.world.StateRoot keccak root := by
  have hread (a : Address) (i : Uint64) (location : Bytes32) :
      m.readStorage a i location = (b.maps.storage.find a i location).getD default := by
    have hr := h.storage a i location
    rw [b.readStorage_eq, ht] at hr
    cases hf : b.maps.storage.find a i location with
    | none =>
      rw [hf] at hr
      exact (Option.some.inj hr).symm
    | some x =>
      rw [hf] at hr
      exact (Option.some.inj hr).symm
  obtain ⟨root, hrun, hroot⟩ := orderedRoot_accounts (h.accounts ht) hfree
    (fun a i => Buffer.accountStorageRoot keccak a i b)
    fun a account ha => orderedRoot_slots
      (slots_of_find (hread a account.incarnation) (hne a account ha)) hfree
  refine ⟨root, ?_, hroot⟩
  rw [← foldlM_live] at hrun
  rw [Buffer.stateRootHash]
  split_ifs with hnil
  · rw [hnil] at hrun
    exact ((orderedRoot_eq keccak ∅).symm.trans hrun :)
  · exact hrun

/-- No slot that was changed is zero at the incarnation of an account that is there. -/
def NothingCleared (cs : List Call) : Prop :=
  ∀ a account location,
    (cs.foldl Call.make ({} : MemoryBuffer)).readAccount a = some account →
    Changed cs a account.incarnation location →
    (cs.foldl Call.make ({} : MemoryBuffer)).readStorage a account.incarnation location ≠ default

/-- The two roots are the root of the state. -/
theorem stateRoots_agree {blocks : List (Uint64 × IntraBlockState)} (hr : ReportsHeld {} blocks)
    (hcs : cs <+: calls blocks)
    (hfree : (cs.foldl Call.make ({} : MemoryBuffer)).world.CollisionFree keccak)
    (hkept : NothingCleared cs) :
    ∃ root, MemoryBuffer.stateRootHash keccak (cs.foldl Call.make {}) = some root ∧
      Buffer.stateRootHash keccak (cs.foldl Call.make {}) = some root ∧
      (cs.foldl Call.make ({} : MemoryBuffer)).world.StateRoot keccak root := by
  have hsame : SameReads (cs.foldl Call.make {}) (cs.foldl Call.make {}) := by
    obtain ⟨rest, hrest⟩ := hcs
    refine sameReads_foldl ?_ sameReads_empty
    exact currentCalls_of_append rest (by rw [hrest]; exact hr.currentCalls)
  have ht := txn_foldl cs
  obtain ⟨root, hm, hroot⟩ := stateRootHash_eq (built_foldl cs).noZeros hfree
  obtain ⟨root', hb, hroot'⟩ := hsame.stateRootHash ht hfree fun a account ha location hz => by
    have hread := hsame.storage a account.incarnation location
    rw [Buffer.readStorage_eq, hz, ht] at hread
    exact hkept a account location ha (changed_of_find (by rw [hz]; simp))
      (Option.some.inj hread).symm
  rw [← hroot.unique hroot'] at hb
  exact ⟨root, hm, hb, hroot⟩

end Roots

section Examples

/-- An account whose only slot has changed. -/
def slotWritten (initial : Option Account) (value value' : Bytes32) : IntraBlockState where
  objects := HashMap.set ∅ default { initial, current := some slotAccount }
  storage := HashMap.set ∅ default
    { committed := HashMap.set ∅ default { initial := value, original := value' } }

theorem reports_slotWritten {initial : Option Account} {value value' : Bytes32} {w : World}
    (ha : w.account default = initial) (hs : w.storage default 1 default = value) :
    ∀ u ∈ (slotWritten initial value value').updates, u.Reports w := by
  have hupdates : (slotWritten initial value value').updates =
      [.storage default 1 default value value', .account default initial (some slotAccount)] := rfl
  intro u hu
  rw [hupdates, List.mem_pair] at hu
  obtain rfl | rfl := hu
  · exact hs.symm
  · exact ha.symm

/-- A slot is set, and cleared by the next block. -/
def setAndCleared : List (Uint64 × IntraBlockState) :=
  [(1, slotWritten none default oneWord), (2, slotWritten (some slotAccount) oneWord default)]

def zeroSlotStorageRoot : Bytes32 :=
  ⟨[0xb9, 0xd1, 0xa4, 0x01, 0x29, 0x3d, 0x84, 0x97, 0x88, 0x70, 0xa1, 0x6d, 0x07, 0xfb, 0x26, 0x87,
    0xc2, 0xfe, 0x44, 0x6f, 0x94, 0x30, 0x2b, 0x9b, 0x89, 0xd1, 0xfd, 0xfc, 0xc1, 0x7f, 0x72, 0x0e],
    rfl⟩

def zeroSlotStateRoot : Bytes32 :=
  ⟨[0x03, 0x3f, 0x3a, 0xe8, 0x43, 0x63, 0xc5, 0xa4, 0xa3, 0xdd, 0xfc, 0x25, 0xda, 0xc7, 0x8f, 0x25,
    0x07, 0xb9, 0x95, 0x30, 0x37, 0xde, 0x87, 0x31, 0x39, 0xd0, 0x3d, 0x8b, 0x4e, 0x91, 0xac, 0x43],
    rfl⟩

def noSlotStateRoot : Bytes32 :=
  ⟨[0x90, 0x79, 0x0e, 0x0d, 0x48, 0x2b, 0xa0, 0x5b, 0xcc, 0x4a, 0xf9, 0x40, 0x4a, 0x40, 0x6d, 0x6c,
    0x20, 0x01, 0x36, 0xc3, 0xe8, 0x54, 0xcf, 0xbc, 0xd7, 0x3e, 0xed, 0xf9, 0x1a, 0x31, 0x80, 0xf1],
    rfl⟩

/-- The hash function, at the keys and the nodes of the two buffers. -/
def zeroSlotKeccak (bytes : Bytes) : Bytes32 :=
  if bytes = List.replicate 32 0 then locationHash
  else if bytes = List.replicate 20 0 then addressHash
  else if bytes = leafNode (nibbles locationHash.val) [0x80] then zeroSlotStorageRoot
  else if bytes = leafNode (nibbles addressHash.val) (slotAccount.rlp zeroSlotStorageRoot) then
    zeroSlotStateRoot
  else if bytes = leafNode (nibbles addressHash.val) (slotAccount.rlp kEmptyRoot) then
    noSlotStateRoot
  else default

theorem trieRoot_singleton {keccak : Bytes → Bytes32} (e : Bytes × Bytes) :
    trieRoot keccak [e] = keccak (leafNode (nibbles e.1) e.2) := by
  rw [trieRoot, if_neg (List.cons_ne_nil _ _), List.map_cons, List.map_nil, trieNode_singleton]

/-- The two roots of the state after the first block. -/
theorem stateRoots_agree_slotWritten :
    ReportsHeld {} (setAndCleared.take 1) ∧ NothingCleared (calls (setAndCleared.take 1)) ∧
    ∃ root, MemoryBuffer.stateRootHash oneSlotKeccak
        ((calls (setAndCleared.take 1)).foldl Call.make {}) = some root ∧
      Buffer.stateRootHash oneSlotKeccak
        ((calls (setAndCleared.take 1)).foldl Call.make {}) = some root ∧
      World.StateRoot oneSlotKeccak
        ((calls (setAndCleared.take 1)).foldl Call.make ({} : MemoryBuffer)).world root := by
  have hr : ReportsHeld {} (setAndCleared.take 1) := ⟨reports_slotWritten rfl rfl, trivial⟩
  have hw : ((calls (setAndCleared.take 1)).foldl Call.make ({} : MemoryBuffer)).world = _ :=
    Blockchain.world_foldl [.storage default 1 default default oneWord,
      .account default none (some slotAccount)] (beginBlock 1 {})
  have hacc (a : Address) (h : World.account
      ((calls (setAndCleared.take 1)).foldl Call.make ({} : MemoryBuffer)).world a ≠ none) :
      a = default := by
    by_contra hne
    rw [hw] at h
    simp only [List.foldl_cons, List.foldl_nil, Update.onWorld, if_neg hne] at h
    exact h rfl
  have hst (a : Address) (i : Uint64) (l : Bytes32) (h : World.storage
      ((calls (setAndCleared.take 1)).foldl Call.make ({} : MemoryBuffer)).world a i l ≠ default) :
      l = default := by
    by_contra hne
    rw [hw] at h
    have hk : ¬(a, i, l) = (default, 1, default) := fun h => hne (by simp_all)
    simp only [List.foldl_cons, List.foldl_nil, Update.onWorld, if_neg hk] at h
    exact h rfl
  have hkept : NothingCleared (calls (setAndCleared.take 1)) := by
    intro a account location ha hc
    cases hacc a (by rw [show World.account _ a = some account from ha]; simp)
    obtain ⟨initial, current, hm, -⟩ := hc
    have hcalls : calls (setAndCleared.take 1) = [.beginBlock 1,
        .update (.storage default 1 default default oneWord),
        .update (.account default none (some slotAccount))] := rfl
    rw [hcalls] at hm
    simp only [List.mem_cons, reduceCtorEq, Call.update.injEq, Update.storage.injEq, true_and,
      List.not_mem_nil, or_false, false_or] at hm
    rw [hm.1, hm.2.1]
    decide
  exact ⟨hr, hkept,
    stateRoots_agree hr (List.prefix_refl _) (.of_default hacc hst) hkept⟩

/-- The slot that was cleared is in one of the two tries. -/
theorem stateRoots_differ_setAndCleared :
    ReportsHeld {} setAndCleared ∧
    MemoryBuffer.stateRootHash zeroSlotKeccak ((calls setAndCleared).foldl Call.make {}) =
      some noSlotStateRoot ∧
    Buffer.stateRootHash zeroSlotKeccak ((calls setAndCleared).foldl Call.make {}) =
      some zeroSlotStateRoot := by
  refine ⟨?_, ?_, ?_⟩
  · exact ⟨reports_slotWritten rfl rfl, reports_slotWritten rfl rfl, trivial⟩
  · have hrun : MemoryBuffer.stateRootHash zeroSlotKeccak
          ((calls setAndCleared).foldl Call.make {}) =
        orderedRoot zeroSlotKeccak (HashMap.set ∅ addressHash (slotAccount.rlp kEmptyRoot)) := rfl
    rw [hrun, orderedRoot_eq]
    exact congrArg some ((trieRoot_singleton _).trans (by decide))
  · have hslot : Buffer.accountStorageRoot zeroSlotKeccak default 1
        ((calls setAndCleared).foldl Call.make {}) = some zeroSlotStorageRoot := by
      have hrun : Buffer.accountStorageRoot zeroSlotKeccak default 1
          ((calls setAndCleared).foldl Call.make {}) =
        orderedRoot zeroSlotKeccak (HashMap.set ∅ locationHash [0x80]) := rfl
      rw [hrun, orderedRoot_eq]
      exact congrArg some ((trieRoot_singleton _).trans (by decide))
    have hrun : Buffer.stateRootHash zeroSlotKeccak ((calls setAndCleared).foldl Call.make {}) =
        (((Buffer.accountStorageRoot zeroSlotKeccak default 1
          ((calls setAndCleared).foldl Call.make {})).bind fun root =>
            some (HashMap.set ∅ addressHash (slotAccount.rlp root))).bind some).bind
          (orderedRoot zeroSlotKeccak) := rfl
    rw [hrun, hslot]
    refine (orderedRoot_eq _ _).trans ?_
    exact congrArg some ((trieRoot_singleton _).trans (by decide))

end Examples

end Silkworm.Db
