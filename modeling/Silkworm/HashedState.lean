import Silkworm.CollectedEntries
import Silkworm.StateRootAgreement
import Silkworm.StateTables

/-!
# The hashed state

The table of the state is copied into two tables with hashed keys. The copy takes the location of
a slot from the key, where the table of the state does not have it, so that all slots of a contract
are put under one key.
-/

namespace Silkworm.Db
open BigEndian Rlp SortedTables MemoryBuffer
open Trie hiding Entry Before

structure HashedTables where
  hashedAccounts : PlainTable := {}
  hashedStorage : Table := {}
  deriving DecidableEq

section Tables

/-- Put an entry after all others. -/
def putAppend (t : PlainTable) (key data : Bytes) : Option PlainTable :=
  if ∀ e ∈ t.entries, e.1 < key then some (t.put key data) else none

/-- Put a value after all others of its key. -/
def putAppendDup (t : Table) (key data : Bytes) : Option Table :=
  if ∀ e ∈ t.entries, e.1 = key → e.2 < data then some (t.putDup key data) else none

/-- The order in which collected entries are loaded. -/
def etlSorted (entries : List Entry) : List Entry :=
  entries.mergeSort fun x y => !decide (Before y x)

end Tables

section Stages

variable (keccak : Bytes → Bytes32)

/-- The entry of an account or of a slot with a hashed key. -/
def hashedEntry (e : Entry) : Option (Entry ⊕ Entry) :=
  if e.1.length = kAddressLength then some (.inl ((keccak e.1).val, e.2))
  else if e.1.length < kStoragePrefixLength then none
  else
    some (.inr ((keccak (e.1.take kAddressLength)).val ++
      ((e.1.drop kAddressLength).take kIncarnationLength ++
        (keccak (e.1.drop kStoragePrefixLength)).val), e.2))

/-- The key of eight zeros from which the loop seeks is taken from a temporary, which is assumed to
be still there. -/
def promoteCleanState (plainState : Table) (hashed : HashedTables) : Option HashedTables := do
  let entries ← (plainState.entries.dropWhile fun e => e.1 < List.replicate 8 0).mapM
    (hashedEntry keccak)
  let accounts := entries.filterMap Sum.getLeft?
  let storage := entries.filterMap Sum.getRight?
  let hashedAccounts ← (etlSorted accounts).foldlM (fun t e => putAppend t e.1 e.2)
    hashed.hashedAccounts
  let hashedStorage ← (etlSorted storage).foldlM (fun t e => putAppendDup t e.1 e.2)
    hashed.hashedStorage
  some { hashedAccounts, hashedStorage }

end Stages

section Loads

theorem pairwise_etlSorted {l : List Entry} (hl : l.Nodup) : (etlSorted l).Pairwise Before := by
  have hnodup : (Etl.sortedEntries l).Nodup := (Etl.sortedEntries_perm l).nodup_iff.mpr hl
  refine ((Etl.sortedEntries_pairwise l).and hnodup).imp fun {x y} h => ?_
  exact before_of_not_before h.1 (Ne.symm h.2)

theorem mem_etlSorted {l : List Entry} {e : Entry} : e ∈ etlSorted l ↔ e ∈ l := List.mem_mergeSort

theorem mem_putAppend {t t' : PlainTable} {key data : Bytes} (h : putAppend t key data = some t')
    (e : Entry) : e ∈ t'.entries ↔ e = (key, data) ∨ e ∈ t.entries := by
  rw [putAppend] at h
  split_ifs at h with hlast
  cases h
  rw [PlainTable.mem_put]
  refine or_congr_right ⟨And.left, fun he => ⟨he, fun heq => ?_⟩⟩
  exact List.lt_irrefl _ (heq ▸ hlast e he)

/-- Entries with increasing keys are loaded into a plain table. -/
theorem exists_foldlM_putAppend {l : List Entry} (hl : l.Pairwise fun x y => x.1 < y.1)
    {t : PlainTable} (ht : ∀ e ∈ t.entries, ∀ x ∈ l, e.1 < x.1) :
    ∃ t', l.foldlM (fun t e => putAppend t e.1 e.2) t = some t' ∧
      ∀ e, e ∈ t'.entries ↔ e ∈ t.entries ∨ e ∈ l := by
  induction l generalizing t with
  | nil => exact ⟨t, rfl, by simp⟩
  | cons x l ih =>
    obtain ⟨hx, hl⟩ := List.pairwise_cons.mp hl
    have hput : putAppend t x.1 x.2 = some (t.put x.1 x.2) :=
      if_pos fun e he => ht e he x List.mem_cons_self
    have hmem := mem_putAppend hput
    obtain ⟨t', hrun, hmem'⟩ := ih hl (t := t.put x.1 x.2) fun e he y hy => by
      rcases (hmem e).mp he with rfl | he
      · exact hx y hy
      · exact ht e he y (List.mem_cons_of_mem _ hy)
    refine ⟨t', ?_, fun e => ?_⟩
    · rw [List.foldlM_cons, hput]
      exact hrun
    · rw [hmem', hmem, List.mem_cons]
      tauto

/-- Entries in increasing order are loaded into a table with duplicates. -/
theorem exists_foldlM_putAppendDup {l : List Entry} (hl : l.Pairwise Before) {t : Table}
    (ht : ∀ e ∈ t.entries, ∀ x ∈ l, Before e x) :
    ∃ t', l.foldlM (fun t e => putAppendDup t e.1 e.2) t = some t' ∧
      ∀ e, e ∈ t'.entries ↔ e ∈ t.entries ∨ e ∈ l := by
  induction l generalizing t with
  | nil => exact ⟨t, rfl, by simp⟩
  | cons x l ih =>
    obtain ⟨hx, hl⟩ := List.pairwise_cons.mp hl
    have hput : putAppendDup t x.1 x.2 = some (t.putDup x.1 x.2) := by
      refine if_pos fun e he heq => ?_
      rcases ht e he x List.mem_cons_self with h | ⟨-, h⟩
      · rw [heq] at h
        exact absurd h (List.lt_irrefl _)
      · exact h
    obtain ⟨t', hrun, hmem'⟩ := ih hl (t := t.putDup x.1 x.2) fun e he y hy => by
      rcases Table.mem_putDup.mp he with rfl | he
      · exact hx y hy
      · exact ht e he y (List.mem_cons_of_mem _ hy)
    refine ⟨t', ?_, fun e => ?_⟩
    · rw [List.foldlM_cons, hput]
      exact hrun
    · rw [hmem', Table.mem_putDup, List.mem_cons]
      tauto

theorem not_lt_zeros {key : Bytes} {n : ℕ} (h : n ≤ key.length) : ¬key < List.replicate n 0 := by
  induction n generalizing key with
  | zero => exact List.not_lt_nil key
  | succ n ih =>
    cases key with
    | nil => simp at h
    | cons b key =>
      rw [List.replicate_succ, List.cons_lt_cons_iff, not_or]
      refine ⟨UInt8.not_lt.mpr (UInt8.zero_le), fun hlt => ?_⟩
      exact ih (Nat.le_of_succ_le_succ h) hlt.2

/-- The loop over a table starts with its first entry. -/
theorem dropWhile_zeros {l : List Entry} (h : ∀ e ∈ l, 8 ≤ e.1.length) :
    (l.dropWhile fun e => e.1 < List.replicate 8 0) = l := by
  rw [List.dropWhile_eq_self_iff]
  intro hl hlt
  exact not_lt_zeros (h _ (List.getElem_mem hl)) (of_decide_eq_true hlt)

/-- Collected entries with different keys are loaded into an empty table. -/
theorem exists_load {l : List Entry} (hl : l.Nodup) (hkeys : ∀ x ∈ l, ∀ y ∈ l, x.1 = y.1 → x = y) :
    ∃ t, (etlSorted l).foldlM (fun t e => putAppend t e.1 e.2) {} = some t ∧
      ∀ e, e ∈ t.entries ↔ e ∈ l := by
  have hlt : (etlSorted l).Pairwise fun x y => x.1 < y.1 := by
    refine (pairwise_etlSorted hl).imp_of_mem fun {x y} hx hy hb => ?_
    rcases hb with hlt | ⟨heq, hlt⟩
    · exact hlt
    · rw [hkeys x (mem_etlSorted.mp hx) y (mem_etlSorted.mp hy) heq] at hlt
      exact absurd hlt (List.lt_irrefl _)
  obtain ⟨t, hload, hmem⟩ := exists_foldlM_putAppend hlt (t := {}) (by simp)
  refine ⟨t, hload, fun e => ?_⟩
  rw [hmem, mem_etlSorted]
  simp

end Loads

section Promotion

variable {keccak : Bytes → Bytes32} {w : World} {t : Table}

/-- The key under which the slots of a contract are put. -/
def hashedSlotKey (keccak : Bytes → Bytes32) (a : Address) (incarnation : Uint64) : Bytes :=
  (keccak a.val).val ++ (bigU64 incarnation ++ (keccak []).val)

theorem hashedEntry_account (a : Address) (account : Account) :
    hashedEntry keccak (accountEntry a account) =
      some (.inl ((keccak a.val).val, account.encodeForStorage false)) :=
  if_pos a.property

theorem hashedEntry_slot (a : Address) (i : Uint64) (location value : Bytes32) :
    hashedEntry keccak (slotEntry a i location value) =
      some (.inr (hashedSlotKey keccak a i, location.val ++ zerolessView value)) := by
  have hlen := length_storagePrefix a i
  have ha : a.val.length = kAddressLength := a.property
  have htake : (storagePrefix a.val i).take kAddressLength = a.val := List.take_left' ha
  have hdrop : (storagePrefix a.val i).drop kAddressLength = bigU64 i := List.drop_left' ha
  have hrest : (storagePrefix a.val i).drop kStoragePrefixLength = [] :=
    List.drop_eq_nil_of_le hlen.le
  have hinc : (bigU64 i).take kIncarnationLength = bigU64 i :=
    List.take_of_length_le (length_bigU64 i).le
  rw [hashedEntry, slotEntry]
  dsimp only
  rw [if_neg (by rw [hlen]; decide), if_neg (by rw [hlen]; decide), htake, hdrop, hrest, hinc]
  rfl

theorem length_hashedSlotKey (a : Address) (i : Uint64) :
    (hashedSlotKey keccak a i).length = kHashLength + (kIncarnationLength + kHashLength) := by
  rw [hashedSlotKey, List.length_append, List.length_append, (keccak a.val).property,
    (keccak []).property, length_bigU64]

theorem hashedSlotKey_injective {a a' : Address} {i i' : Uint64}
    (h : hashedSlotKey keccak a i = hashedSlotKey keccak a' i') :
    keccak a.val = keccak a'.val ∧ i = i' := by
  obtain ⟨ha, hrest⟩ := List.append_inj h
    ((keccak a.val).property.trans (keccak a'.val).property.symm)
  obtain ⟨hi, -⟩ := List.append_inj hrest ((length_bigU64 i).trans (length_bigU64 i').symm)
  exact ⟨Subtype.ext ha, bigU64_injective hi⟩

theorem mapM_eq_filterMap {X Y : Type} {f : X → Option Y} {l : List X}
    (h : ∀ x ∈ l, ∃ y, f x = some y) : l.mapM f = some (l.filterMap f) := by
  induction l with
  | nil => rfl
  | cons x l ih =>
    obtain ⟨y, hy⟩ := h x List.mem_cons_self
    rw [List.mapM_cons, hy, ih fun x hx => h x (List.mem_cons_of_mem _ hx),
      List.filterMap_cons_some hy]
    rfl

theorem nodup_filterMap {X Y : Type} {f : X → Option Y} {l : List X} (hl : l.Nodup)
    (hinj : ∀ x ∈ l, ∀ y ∈ l, ∀ z, f x = some z → f y = some z → x = y) :
    (l.filterMap f).Nodup := by
  refine List.pairwise_filterMap.mpr (hl.imp_of_mem fun {x y} hx hy hne z hz z' hz' heq => ?_)
  exact hne (hinj x hx y hy z hz (heq ▸ hz'))

/-- Slots belong to the incarnation of an account. -/
def Owned (w : World) : Prop :=
  ∀ a i location, w.storage a i location ≠ default →
    ∃ account, w.account a = some account ∧ account.incarnation = i

/-- There is an account or a slot at an address. -/
def Occupied (w : World) (a : Address) : Prop :=
  w.account a ≠ none ∨ ∃ i location, w.storage a i location ≠ default

theorem Owned.injective (ho : Owned w) (hfree : w.CollisionFree keccak) {a a' : Address}
    (ha : Occupied w a) (ha' : Occupied w a') (heq : keccak a.val = keccak a'.val) : a = a' := by
  have haccount {a : Address} (h : Occupied w a) : w.account a ≠ none := by
    rcases h with h | ⟨i, location, h⟩
    · exact h
    · obtain ⟨account, ha, -⟩ := ho a i location h
      simp [ha]
  exact hfree.account a a' (haccount ha) (haccount ha') heq

def accountPart (keccak : Bytes → Bytes32) (e : Entry) : Option Entry :=
  (hashedEntry keccak e).bind Sum.getLeft?

def storagePart (keccak : Bytes → Bytes32) (e : Entry) : Option Entry :=
  (hashedEntry keccak e).bind Sum.getRight?

theorem mem_accountPart (h : Stores w t) {x : Entry} :
    (∃ e ∈ t.entries, accountPart keccak e = some x) ↔ ∃ a account, w.account a = some account ∧
      x = ((keccak a.val).val, account.encodeForStorage false) := by
  constructor
  · rintro ⟨e, he, hx⟩
    rcases (h e).mp he with ⟨a, account, ha, rfl⟩ | ⟨a, i, location, -, rfl⟩
    · rw [accountPart, hashedEntry_account] at hx
      exact ⟨a, account, ha, (Option.some.inj hx).symm⟩
    · rw [accountPart, hashedEntry_slot] at hx
      cases hx
  · rintro ⟨a, account, ha, rfl⟩
    refine ⟨accountEntry a account, (h _).mpr (.inl ⟨a, account, ha, rfl⟩), ?_⟩
    rw [accountPart, hashedEntry_account]
    rfl

theorem mem_storagePart (h : Stores w t) {x : Entry} :
    (∃ e ∈ t.entries, storagePart keccak e = some x) ↔
      ∃ a i location, w.storage a i location ≠ default ∧
        x = (hashedSlotKey keccak a i, location.val ++ zerolessView (w.storage a i location)) := by
  constructor
  · rintro ⟨e, he, hx⟩
    rcases (h e).mp he with ⟨a, account, -, rfl⟩ | ⟨a, i, location, hne, rfl⟩
    · rw [storagePart, hashedEntry_account] at hx
      cases hx
    · rw [storagePart, hashedEntry_slot] at hx
      exact ⟨a, i, location, hne, (Option.some.inj hx).symm⟩
  · rintro ⟨a, i, location, hne, rfl⟩
    refine ⟨slotEntry a i location _, (h _).mpr (.inr ⟨a, i, location, hne, rfl⟩), ?_⟩
    rw [storagePart, hashedEntry_slot]
    rfl

section Injective

variable (h : Stores w t) (hinj : ∀ {a a' : Address}, Occupied w a → Occupied w a' →
  keccak a.val = keccak a'.val → a = a')

include h hinj

theorem nodup_accountPart :
    (t.entries.filterMap (accountPart keccak)).Nodup := by
  refine nodup_filterMap t.nodup_entries fun e he e' he' x hx hx' => ?_
  rcases (h e).mp he with ⟨a, account, ha, rfl⟩ | ⟨a, i, location, -, rfl⟩
  · rcases (h e').mp he' with ⟨a', account', ha', rfl⟩ | ⟨a', i', location', -, rfl⟩
    · rw [accountPart, hashedEntry_account] at hx hx'
      have heq := (Prod.mk.inj (Option.some.inj (hx.trans hx'.symm))).1
      cases hinj (.inl (by simp [ha])) (.inl (by simp [ha'])) (Subtype.ext heq)
      rw [Option.some.inj (ha.symm.trans ha')]
    · rw [accountPart, hashedEntry_slot] at hx'
      cases hx'
  · rw [accountPart, hashedEntry_slot] at hx
    cases hx

theorem nodup_storagePart :
    (t.entries.filterMap (storagePart keccak)).Nodup := by
  refine nodup_filterMap t.nodup_entries fun e he e' he' x hx hx' => ?_
  rcases (h e).mp he with ⟨a, account, ha, rfl⟩ | ⟨a, i, location, hne, rfl⟩
  · rw [storagePart, hashedEntry_account] at hx
    cases hx
  · rcases (h e').mp he' with ⟨a', account', ha', rfl⟩ | ⟨a', i', location', hne', rfl⟩
    · rw [storagePart, hashedEntry_account] at hx'
      cases hx'
    · rw [storagePart, hashedEntry_slot] at hx hx'
      obtain ⟨hkey, hvalue⟩ := Prod.mk.inj (Option.some.inj (hx.trans hx'.symm))
      obtain ⟨hhash, rfl⟩ := hashedSlotKey_injective hkey
      cases hinj (.inr ⟨i, location, hne⟩) (.inr ⟨i, location', hne'⟩) hhash
      exact Prod.ext rfl hvalue

/-- The entries of the accounts are in one table, and the slots of a contract under a key of their
own in the other. -/
theorem exists_promoteCleanState :
    ∃ hashed, promoteCleanState keccak t {} = some hashed ∧
      (∀ e, e ∈ hashed.hashedAccounts.entries ↔ ∃ a account, w.account a = some account ∧
        e = ((keccak a.val).val, account.encodeForStorage false)) ∧
      ∀ e, e ∈ hashed.hashedStorage.entries ↔ ∃ a i location, w.storage a i location ≠ default ∧
        e = (hashedSlotKey keccak a i, location.val ++ zerolessView (w.storage a i location)) := by
  have hall : (t.entries.dropWhile fun e => e.1 < List.replicate 8 0) = t.entries := by
    refine dropWhile_zeros fun e he => ?_
    rcases (h _).mp he with ⟨a, account, -, he⟩ | ⟨a, i, location, -, he⟩
    · rw [he, accountEntry, a.property]
      decide
    · rw [he, slotEntry, length_storagePrefix]
      decide
  have hsome : ∀ e ∈ t.entries, ∃ x, hashedEntry keccak e = some x := by
    intro e he
    rcases (h e).mp he with ⟨a, account, -, rfl⟩ | ⟨a, i, location, -, rfl⟩
    · exact ⟨_, hashedEntry_account a account⟩
    · exact ⟨_, hashedEntry_slot a i location _⟩
  have haccounts : (t.entries.filterMap (hashedEntry keccak)).filterMap Sum.getLeft? =
      t.entries.filterMap (accountPart keccak) := List.filterMap_filterMap
  have hstorage : (t.entries.filterMap (hashedEntry keccak)).filterMap Sum.getRight? =
      t.entries.filterMap (storagePart keccak) := List.filterMap_filterMap
  have hkeys : ∀ x ∈ t.entries.filterMap (accountPart keccak),
      ∀ y ∈ t.entries.filterMap (accountPart keccak), x.1 = y.1 → x = y := by
    intro x hx y hy heq
    rw [List.mem_filterMap, mem_accountPart h] at hx hy
    obtain ⟨a, account, ha, rfl⟩ := hx
    obtain ⟨a', account', ha', rfl⟩ := hy
    cases hinj (.inl (by simp [ha])) (.inl (by simp [ha'])) (Subtype.ext heq)
    rw [Option.some.inj (ha.symm.trans ha')]
  obtain ⟨ta, hta, hmema⟩ := exists_load (nodup_accountPart h hinj) hkeys
  obtain ⟨ts, hts, hmems⟩ := exists_foldlM_putAppendDup
    (pairwise_etlSorted (nodup_storagePart h hinj)) (t := {}) (by simp)
  refine ⟨⟨ta, ts⟩, ?_, fun e => ?_, fun e => ?_⟩
  · rw [promoteCleanState, hall, mapM_eq_filterMap hsome]
    simp only [Option.bind_eq_bind, Option.bind_some, haccounts, hstorage, hta, hts]
  · rw [hmema, List.mem_filterMap, mem_accountPart h]
  · rw [hmems, mem_etlSorted, List.mem_filterMap, mem_storagePart h]
    simp

end Injective

end Promotion

section Listings

variable {keccak : Bytes → Bytes32} {w : World} {t : Table}

/-- Values that are all of one form are the images of a list. -/
theorem exists_eq_map {X Y : Type} {P : X → Prop} {f : X → Y} {l : List Y}
    (h : ∀ y ∈ l, ∃ x, P x ∧ y = f x) : ∃ J : List X, l = J.map f ∧ ∀ x ∈ J, P x := by
  induction l with
  | nil => exact ⟨[], rfl, by simp⟩
  | cons y l ih =>
    obtain ⟨x, hx, rfl⟩ := h y List.mem_cons_self
    obtain ⟨J, rfl, hJ⟩ := ih fun y hy => h y (List.mem_cons_of_mem _ hy)
    exact ⟨x :: J, rfl, List.forall_mem_cons.mpr ⟨hx, hJ⟩⟩

/-- A table with the hashed accounts lists the accounts of the world. -/
theorem exists_accounts {accounts : PlainTable} (hfree : w.CollisionFree keccak)
    (hmem : ∀ e, e ∈ accounts.entries ↔ ∃ a account, w.account a = some account ∧
      e = ((keccak a.val).val, account.encodeForStorage false)) :
    ∃ J, w.Accounts J ∧
      accounts.entries = J.map fun e => ((keccak e.1.val).val, e.2.encodeForStorage false) := by
  obtain ⟨J, hJ, hP⟩ := exists_eq_map (l := accounts.entries)
    (P := fun e : Address × Account => w.account e.1 = some e.2)
    (f := fun e => ((keccak e.1.val).val, e.2.encodeForStorage false)) fun e he => by
      obtain ⟨a, account, ha, rfl⟩ := (hmem e).mp he
      exact ⟨(a, account), ha, rfl⟩
  have hnodup := accounts.nodup_entries
  rw [hJ] at hnodup
  refine ⟨J, ⟨hnodup.of_map, fun a account => ⟨hP (a, account), fun ha => ?_⟩⟩, hJ⟩
  have he := (hmem _).mpr ⟨a, account, ha, rfl⟩
  rw [hJ] at he
  obtain ⟨x, hx, heq⟩ := List.mem_map.mp he
  have hxa := hP x hx
  cases hfree.account x.1 a (by simp [hxa]) (by simp [ha])
    (Subtype.ext (Prod.mk.inj heq).1)
  rw [← Option.some.inj (hxa.symm.trans ha)]
  exact hx

theorem pairwise_hashedKeys {accounts : PlainTable} {J : List (Address × Account)}
    (hJ : accounts.entries = J.map fun e => ((keccak e.1.val).val, e.2.encodeForStorage false)) :
    J.Pairwise fun x y => (keccak x.1.val).val < (keccak y.1.val).val := by
  have hsorted := accounts.sorted
  have hsingle := accounts.single
  rw [hJ] at hsorted hsingle
  refine (List.pairwise_map.mp hsorted).imp_of_mem fun {x y} hx hy hb => ?_
  rcases hb with hlt | ⟨heq, hlt⟩
  · exact hlt
  · dsimp only at heq hlt
    have hsame := hsingle (keccak x.1.val).val _ _ (List.mem_map.mpr ⟨x, hx, rfl⟩)
      (List.mem_map.mpr ⟨y, hy, Prod.ext heq.symm rfl⟩)
    rw [hsame] at hlt
    exact absurd hlt (List.lt_irrefl _)

end Listings

end Silkworm.Db
