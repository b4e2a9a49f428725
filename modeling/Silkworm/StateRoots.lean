import Silkworm.HashBuilderRuns
import Silkworm.SortedTables
import Silkworm.StateChanges

/-!
# State roots

The roots of a world are those of the tries of its nonzero slots and of its accounts. The
buffer in memory computes them, for any hash function that does not confuse the keys at hand.
-/

namespace Silkworm

namespace HashMap

variable {K V : Type} [DecidableEq K]

/-- Setting entries with different keys in an empty map. -/
theorem toList_foldl_set {l : List (K × V)} (hl : (l.map Prod.fst).Nodup) :
    (l.foldl (fun m e => m.set e.1 e.2) (∅ : HashMap K V)).toList.Perm l := by
  have hstep (m : HashMap K V) (k : K) (v : V) (k' : K) :
      (m.set k v).find k' = if k' = k then some v else m.find k' := find_set m k k' v
  apply (List.perm_ext_iff_of_nodup (keys_toList_nodup _).of_map hl.of_map).mpr
  rintro ⟨k, v⟩
  rw [mem_toList]
  constructor
  · intro h
    by_cases hk : k ∈ l.map Prod.fst
    · obtain ⟨⟨k', v'⟩, hm, rfl⟩ := List.mem_map.mp hk
      rw [read_foldl_of_mem find (fun _ v _ => some v) hstep hl hm] at h
      cases h
      exact hm
    · rw [read_foldl_of_not_mem find (fun _ v _ => some v) hstep hk, find_empty] at h
      cases h
  · intro h
    exact read_foldl_of_mem find (fun _ v _ => some v) hstep hl h ∅

end HashMap

namespace MemoryBuffer
open Rlp Trie

variable (keccak : Bytes → Bytes32)

section Specification

namespace World

variable (w : World)

/-- A listing of the nonzero slots of an account. -/
def Slots (a : Address) (incarnation : Uint64) (J : List (Bytes32 × Bytes32)) : Prop :=
  J.Nodup ∧ ∀ location value, (location, value) ∈ J ↔
    w.storage a incarnation location = value ∧ value ≠ default

/-- A listing of the accounts. -/
def Accounts (J : List (Address × Account)) : Prop :=
  J.Nodup ∧ ∀ a account, (a, account) ∈ J ↔ w.account a = some account

def StorageRoot (a : Address) (incarnation : Uint64) (root : Bytes32) : Prop :=
  ∃ J, w.Slots a incarnation J ∧ root = trieRoot keccak
    (J.map fun e => ((keccak e.1.val).val, encodeBytes (zerolessView e.2)))

def StateRoot (root : Bytes32) : Prop :=
  ∃ (J : List (Address × Account)) (storageRoot : Address → Bytes32), w.Accounts J ∧
    (∀ a account, w.account a = some account →
      w.StorageRoot keccak a account.incarnation (storageRoot a)) ∧
    root = trieRoot keccak (J.map fun e => ((keccak e.1.val).val, e.2.rlp (storageRoot e.1)))

variable {keccak w}

theorem StorageRoot.unique {a : Address} {i : Uint64} {root root' : Bytes32}
    (h : w.StorageRoot keccak a i root) (h' : w.StorageRoot keccak a i root') : root = root' := by
  obtain ⟨J, ⟨hJ, hmem⟩, rfl⟩ := h
  obtain ⟨J', ⟨hJ', hmem'⟩, rfl⟩ := h'
  have hperm : J.Perm J' := by
    apply (List.perm_ext_iff_of_nodup hJ hJ').mpr
    rintro ⟨location, value⟩
    rw [hmem, hmem']
  exact trieRoot_perm (hperm.map _)

theorem StateRoot.unique {root root' : Bytes32} (h : w.StateRoot keccak root)
    (h' : w.StateRoot keccak root') : root = root' := by
  obtain ⟨J, r, ⟨hJ, hmem⟩, hr, rfl⟩ := h
  obtain ⟨J', r', ⟨hJ', hmem'⟩, hr', rfl⟩ := h'
  have hperm : J.Perm J' := by
    apply (List.perm_ext_iff_of_nodup hJ hJ').mpr
    rintro ⟨a, account⟩
    rw [hmem, hmem']
  rw [trieRoot_perm (hperm.map _)]
  congr 1
  apply List.map_congr_left
  rintro ⟨a, account⟩ he
  have ha := (hmem' a account).mp he
  rw [(hr a account ha).unique (hr' a account ha)]

end World

end Specification

section Computation

/-- The order in which entries are fed to the builder. -/
private theorem pairwise_lt_mergeSort (m : HashMap Bytes32 Bytes) :
    (m.toList.mergeSort fun x y => !decide (y.1.val < x.1.val)).Pairwise
      fun x y => x.1.val < y.1.val := by
  have hle : (m.toList.mergeSort fun x y => !decide (y.1.val < x.1.val)).Pairwise
      fun x y => (!decide (y.1.val < x.1.val)) = true := by
    apply List.pairwise_mergeSort
    · intro x y z hxy hyz
      simp only [Bool.not_eq_true', decide_eq_false_iff_not, List.not_lt] at hxy hyz ⊢
      exact List.le_trans hxy hyz
    · intro x y
      simp only [Bool.or_eq_true, Bool.not_eq_true', decide_eq_false_iff_not, List.not_lt]
      exact List.le_total x.1.val y.1.val
  have hnodup : (m.toList.mergeSort fun x y => !decide (y.1.val < x.1.val)).Pairwise
      fun x y => x.1 ≠ y.1 := by
    rw [← List.pairwise_map, ← List.Nodup, ((List.mergeSort_perm _ _).map Prod.fst).nodup_iff]
    exact m.keys_toList_nodup
  refine (hle.and hnodup).imp fun {x y} h => ?_
  simp only [Bool.not_eq_true', decide_eq_false_iff_not] at h
  rcases SortedTables.lt_or_eq_or_gt x.1.val y.1.val with hlt | heq | hgt
  · exact hlt
  · exact absurd (Subtype.ext heq) h.2
  · exact absurd hgt h.1

theorem orderedRoot_eq (m : HashMap Bytes32 Bytes) :
    orderedRoot keccak m = some (trieRoot keccak (m.toList.map fun e => (e.1.val, e.2))) := by
  have hperm := List.mergeSort_perm m.toList fun x y => !decide (y.1.val < x.1.val)
  have hsorted := pairwise_lt_mergeSort m
  generalize hl : (m.toList.mergeSort fun x y => !decide (y.1.val < x.1.val)) = l at hperm hsorted
  have hlen : ∀ e ∈ l.map (fun e => (e.1.val, e.2)), e.1.length = 32 := by
    intro e he
    obtain ⟨e', -, rfl⟩ := List.mem_map.mp he
    exact e'.1.property
  obtain ⟨hb, hb', hadd, hroot⟩ :=
    addAll_rootHash_of_length keccak (by decide) hlen (List.pairwise_map.mpr hsorted)
  rw [orderedRoot, hl]
  simp only [Option.bind_eq_bind, hadd, Option.bind_some, hroot]
  rw [trieRoot_perm (hperm.map _)]

/-- No slot holds an explicit zero. -/
def NoZeros (b : MemoryBuffer) : Prop :=
  ∀ a i location, b.storage.find a i location ≠ some default

/-- The hash function tells the addresses of a world apart, and the locations of each account. -/
structure World.CollisionFree (w : World) : Prop where
  account : ∀ a a', w.account a ≠ none → w.account a' ≠ none → keccak a.val = keccak a'.val → a = a'
  storage : ∀ a i l l', w.storage a i l ≠ default → w.storage a i l' ≠ default →
    keccak l.val = keccak l'.val → l = l'

variable {keccak} {b : MemoryBuffer}

/-- A map without explicit zeros lists the nonzero slots. -/
theorem slots_of_find {w : World} {a : Address} {i : Uint64} {slots : HashMap Bytes32 Bytes32}
    (hread : ∀ location, w.storage a i location = (slots.find location).getD default)
    (hne : ∀ location, slots.find location ≠ some default) : w.Slots a i slots.toList := by
  refine ⟨(HashMap.keys_toList_nodup _).of_map, fun location value => ?_⟩
  rw [HashMap.mem_toList, hread]
  cases hf : slots.find location with
  | none =>
    simp only [reduceCtorEq, Option.getD_none, false_iff, not_and, not_not]
    exact Eq.symm
  | some v =>
    constructor
    · rintro ⟨⟩
      exact ⟨rfl, fun h0 => hne location (hf.trans (congrArg some h0))⟩
    · rintro ⟨rfl, -⟩
      rfl

/-- Entries are hashed one after the other into an ordered map. -/
theorem orderedRoot_foldl {X : Type} {l : List X} {key : X → Bytes} {value : X → Bytes}
    (hl : (l.map fun x => keccak (key x)).Nodup) :
    orderedRoot keccak (l.foldl (fun m x => m.set (keccak (key x)) (value x)) ∅) =
      some (trieRoot keccak (l.map fun x => ((keccak (key x)).val, value x))) := by
  have hperm := HashMap.toList_foldl_set (l := l.map fun x => (keccak (key x), value x))
    (by rwa [List.map_map])
  rw [List.foldl_map] at hperm
  rw [orderedRoot_eq, trieRoot_perm (hperm.map _), List.map_map]
  rfl

private theorem nodup_map_keccak {X K : Type} {l : List X} {key : X → K} {bytes : K → Bytes}
    (hl : (l.map key).Nodup)
    (hinj : ∀ x ∈ l, ∀ y ∈ l, keccak (bytes (key x)) = keccak (bytes (key y)) → key x = key y) :
    (l.map fun x => keccak (bytes (key x))).Nodup := by
  have h := hl.map_on (f := fun k => keccak (bytes k)) ?_
  · rwa [List.map_map] at h
  · intro k hk k' hk' heq
    obtain ⟨x, hx, rfl⟩ := List.mem_map.mp hk
    obtain ⟨y, hy, rfl⟩ := List.mem_map.mp hk'
    exact hinj x hx y hy heq

/-- The root of the slots of one contract. -/
theorem orderedRoot_slots {w : World} {a : Address} {i : Uint64} {slots : HashMap Bytes32 Bytes32}
    (hslots : w.Slots a i slots.toList) (hfree : w.CollisionFree keccak) :
    ∃ root, (if slots.toList = [] then some kEmptyRoot
      else orderedRoot keccak (slots.toList.foldl (fun m e =>
        m.set (keccak e.1.val) (encodeBytes (zerolessView e.2))) ∅)) = some root ∧
      w.StorageRoot keccak a i root := by
  split_ifs with hnil
  · exact ⟨kEmptyRoot, rfl, _, hslots, by rw [hnil]; rfl⟩
  · refine ⟨_, orderedRoot_foldl ?_, _, hslots, rfl⟩
    apply nodup_map_keccak (HashMap.keys_toList_nodup _)
    intro x hx y hy heq
    obtain ⟨hxv, hxne⟩ := (hslots.2 x.1 x.2).mp hx
    obtain ⟨hyv, hyne⟩ := (hslots.2 y.1 y.2).mp hy
    exact hfree.storage a i x.1 y.1 (hxv ▸ hxne) (hyv ▸ hyne) heq

theorem accountStorageRoot_eq (h : b.NoZeros) (hfree : b.world.CollisionFree keccak) (a : Address)
    (i : Uint64) :
    ∃ root, accountStorageRoot keccak a i b = some root ∧ b.world.StorageRoot keccak a i root :=
  orderedRoot_slots (slots_of_find (fun _ => rfl) (h a i)) hfree

theorem accounts_toList (b : MemoryBuffer) : b.world.Accounts b.accounts.toList :=
  ⟨(HashMap.keys_toList_nodup _).of_map, fun _ _ => HashMap.mem_toList⟩

private theorem foldlM_eq_some {X Y : Type} {f : Y → X → Option Y} {g : Y → X → Y} {l : List X}
    (h : ∀ y, ∀ x ∈ l, f y x = some (g y x)) (y : Y) : l.foldlM f y = some (l.foldl g y) := by
  induction l generalizing y with
  | nil => rfl
  | cons x l ih =>
    rw [List.foldlM_cons, h y x List.mem_cons_self]
    exact ih (fun y x hx => h y x (List.mem_cons_of_mem _ hx)) (g y x)

theorem exists_foldlM {X Y : Type} {f : Y → X → Option Y} (h : ∀ y x, ∃ z, f y x = some z)
    (l : List X) (y : Y) : ∃ z, l.foldlM f y = some z := by
  induction l generalizing y with
  | nil => exact ⟨y, rfl⟩
  | cons x l ih =>
    obtain ⟨z, hz⟩ := h y x
    rw [List.foldlM_cons, hz]
    exact ih z

theorem exists_bind {X Y : Type} {x : Option X} {f : X → Option Y} (hx : ∃ a, x = some a)
    (hf : ∀ a, ∃ b, f a = some b) : ∃ b, x.bind f = some b := by
  obtain ⟨a, rfl⟩ := hx
  exact hf a

/-- The builder never fails, whatever the hash function is. -/
theorem exists_stateRootHash (keccak : Bytes → Bytes32) (b : MemoryBuffer) :
    ∃ root, stateRootHash keccak b = some root := by
  have hstorage (a : Address) (i : Uint64) :
      ∃ root, accountStorageRoot keccak a i b = some root := by
    rw [accountStorageRoot]
    split_ifs
    · exact ⟨_, rfl⟩
    · exact ⟨_, orderedRoot_eq _ _⟩
  rw [stateRootHash]
  split_ifs
  · exact ⟨_, rfl⟩
  · refine exists_bind (exists_foldlM (fun m e => ?_) _ _) fun m => ⟨_, orderedRoot_eq keccak m⟩
    exact exists_bind (hstorage e.1 e.2.incarnation) fun root => ⟨_, rfl⟩

/-- The loop over the accounts, whose storage roots are computed on the way. -/
theorem orderedRoot_accounts {w : World} {J : List (Address × Account)} (hJ : w.Accounts J)
    (hfree : w.CollisionFree keccak) (rootOf : Address → Uint64 → Option Bytes32)
    (hroot : ∀ a account, w.account a = some account →
      ∃ root, rootOf a account.incarnation = some root ∧
        w.StorageRoot keccak a account.incarnation root) :
    ∃ root, (J.foldlM (fun (m : HashMap Bytes32 Bytes) (e : Address × Account) => do
        let storageRoot ← rootOf e.1 e.2.incarnation
        some (m.set (keccak e.1.val) (e.2.rlp storageRoot))) ∅).bind (orderedRoot keccak) =
      some root ∧ w.StateRoot keccak root := by
  let storageRoot (a : Address) : Bytes32 :=
    ((w.account a).bind fun account => rootOf a account.incarnation).getD default
  have hsome (a : Address) (account : Account) (ha : w.account a = some account) :
      rootOf a account.incarnation = some (storageRoot a) ∧
        w.StorageRoot keccak a account.incarnation (storageRoot a) := by
    obtain ⟨root, hr, hspec⟩ := hroot a account ha
    have heq : storageRoot a = root := by
      dsimp only [storageRoot]
      rw [ha, Option.bind_some, hr]
      rfl
    rw [heq]
    exact ⟨hr, hspec⟩
  have hkeys : (J.map Prod.fst).Nodup := by
    refine hJ.1.map_on fun x hx y hy heq => Prod.ext heq ?_
    have hxa := (hJ.2 x.1 x.2).mp hx
    have hya := (hJ.2 y.1 y.2).mp hy
    rw [heq, hya] at hxa
    exact (Option.some.inj hxa).symm
  rw [foldlM_eq_some (g := fun m e => m.set (keccak e.1.val) (e.2.rlp (storageRoot e.1)))]
  · refine ⟨_, orderedRoot_foldl ?_, J, storageRoot, hJ, fun a account ha => (hsome a account ha).2,
      rfl⟩
    apply nodup_map_keccak hkeys
    intro x hx y hy heq
    have hxv := (hJ.2 x.1 x.2).mp hx
    have hyv := (hJ.2 y.1 y.2).mp hy
    exact hfree.account x.1 y.1 (by simp [hxv]) (by simp [hyv]) heq
  · rintro m ⟨a, account⟩ he
    rw [(hsome a account ((hJ.2 a account).mp he)).1]
    rfl

theorem stateRootHash_eq (h : b.NoZeros) (hfree : b.world.CollisionFree keccak) :
    ∃ root, stateRootHash keccak b = some root ∧ b.world.StateRoot keccak root := by
  obtain ⟨root, hrun, hroot⟩ := orderedRoot_accounts (accounts_toList b) hfree
    (fun a i => accountStorageRoot keccak a i b)
    fun a account _ => accountStorageRoot_eq h hfree a account.incarnation
  refine ⟨root, ?_, hroot⟩
  rw [stateRootHash]
  split_ifs with hnil
  · rw [hnil] at hrun
    exact ((orderedRoot_eq keccak ∅).symm.trans hrun :)
  · exact hrun

end Computation

end MemoryBuffer
end Silkworm
