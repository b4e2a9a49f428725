import Mathlib.Data.List.AList
import Mathlib.Data.Prod.Basic

/-!
# Hash maps and hash sets

Association lists with one entry to a key, in the vocabulary of hash maps. The order of the
entries stands for the unspecified order of iteration.
-/

namespace Silkworm

abbrev HashMap (K V : Type) := AList fun _ : K => V

abbrev HashSet (K : Type) := HashMap K Unit

namespace HashMap

variable {K V W : Type}

def mapValues (f : K → V → W) (m : HashMap K V) : HashMap K W where
  entries := m.entries.map fun e => ⟨e.1, f e.1 e.2⟩
  nodupKeys := by
    have h := m.nodupKeys
    rw [List.NodupKeys, List.keys] at h ⊢
    rwa [List.map_map, show Sigma.fst ∘ (fun e : Σ _ : K, V => (⟨e.1, f e.1 e.2⟩ : Σ _ : K, W)) =
      Sigma.fst from rfl]

def toList (m : HashMap K V) : List (K × V) := m.entries.map fun e => (e.1, e.2)

theorem keys_toList_nodup (m : HashMap K V) : (m.toList.map Prod.fst).Nodup := by
  rw [toList, List.map_map]
  exact m.nodupKeys

/-- The keys of nested maps. -/
theorem nodup_flatMap_keys {l : List (K × V)} (hl : (l.map Prod.fst).Nodup) {f : K × V → List W}
    (hf : ∀ x ∈ l, (f x).Nodup) : (l.flatMap fun x => (f x).map (Prod.mk x.1)).Nodup := by
  refine List.nodup_flatMap.mpr ⟨fun x hx => (hf x hx).map (Prod.mk_right_injective x.1), ?_⟩
  refine (List.pairwise_map.mp hl).imp fun {x y} hne z hx hy => ?_
  obtain ⟨u, -, rfl⟩ := List.mem_map.mp hx
  obtain ⟨v, -, hv⟩ := List.mem_map.mp hy
  exact hne (Prod.mk.inj hv).1.symm

variable [DecidableEq K]

def find (m : HashMap K V) (k : K) : Option V := m.lookup k

def set (m : HashMap K V) (k : K) (v : V) : HashMap K V := AList.insert k v m

def remove (m : HashMap K V) (k : K) : HashMap K V := AList.erase k m

/-- The subscript operator, where a missing entry has the given default. -/
def findD (m : HashMap K V) (k : K) (d : V) : V := (m.find k).getD d

/-- Insertion of an entry that leaves an existing one alone. -/
def tryEmplace (m : HashMap K V) (k : K) (v : V) : HashMap K V :=
  if (m.find k).isSome then m else m.set k v

@[simp] theorem find_empty (k : K) : find (∅ : HashMap K V) k = none := AList.lookup_empty k

theorem find_set (m : HashMap K V) (k k' : K) (v : V) :
    (m.set k v).find k' = if k' = k then some v else m.find k' := by
  by_cases h : k' = k
  · subst h
    rw [if_pos rfl]
    exact AList.lookup_insert m
  · rw [if_neg h]
    exact AList.lookup_insert_ne h

theorem find_remove (m : HashMap K V) (k k' : K) :
    (m.remove k).find k' = if k' = k then none else m.find k' := by
  by_cases h : k' = k
  · subst h
    rw [if_pos rfl]
    exact AList.lookup_erase k' m
  · rw [if_neg h]
    exact AList.lookup_erase_ne h

@[simp] theorem find_set_self (m : HashMap K V) (k : K) (v : V) : (m.set k v).find k = some v := by
  rw [find_set, if_pos rfl]

@[simp] theorem find_remove_self (m : HashMap K V) (k : K) : (m.remove k).find k = none := by
  rw [find_remove, if_pos rfl]

theorem find_set_ne {m : HashMap K V} {k k' : K} {v : V} (h : k' ≠ k) :
    (m.set k v).find k' = m.find k' := by
  rw [find_set, if_neg h]

theorem findD_set (m : HashMap K V) (k k' : K) (v d : V) :
    (m.set k v).findD k' d = if k' = k then v else m.findD k' d := by
  rw [findD, find_set]
  split_ifs <;> rfl

theorem find_remove_ne {m : HashMap K V} {k k' : K} (h : k' ≠ k) :
    (m.remove k).find k' = m.find k' := by
  rw [find_remove, if_neg h]

theorem mem_toList {m : HashMap K V} {k : K} {v : V} : (k, v) ∈ m.toList ↔ m.find k = some v := by
  rw [find, ← Option.mem_def, AList.mem_lookup_iff, toList, List.mem_map]
  constructor
  · rintro ⟨⟨k', v'⟩, he, h⟩
    cases h
    exact he
  · intro h
    exact ⟨⟨k, v⟩, h, rfl⟩

theorem find_mapValues (f : K → V → W) (m : HashMap K V) (k : K) :
    (m.mapValues f).find k = (m.find k).map (f k) := by
  ext w
  rw [Option.map_eq_some_iff]
  constructor
  · intro h
    obtain ⟨⟨k', v⟩, he, heq⟩ := List.mem_map.mp (AList.mem_lookup_iff.mp h)
    cases heq
    exact ⟨v, AList.mem_lookup_iff.mpr he, rfl⟩
  · rintro ⟨v, hv, rfl⟩
    exact AList.mem_lookup_iff.mpr (List.mem_map.mpr ⟨⟨k, v⟩, AList.mem_lookup_iff.mp hv, rfl⟩)

section Folds

variable {X R : Type} {f : X → K × V → X} (read : X → K → R) (g : K → V → R → R)
  (h : ∀ x k v k', read (f x (k, v)) k' = if k' = k then g k v (read x k) else read x k')
include h

theorem read_foldl_of_not_mem {l : List (K × V)} {k : K} (hk : k ∉ l.map Prod.fst) (x : X) :
    read (l.foldl f x) k = read x k := by
  induction l generalizing x with
  | nil => rfl
  | cons e l ih =>
    obtain ⟨hne, hl⟩ := not_or.mp (fun hor => hk (List.mem_cons.mpr hor))
    rw [List.foldl_cons, ih hl, h, if_neg hne]

/-- A loop over entries, each of which changes what is read at its own key. -/
theorem read_foldl_of_mem {l : List (K × V)} (hl : (l.map Prod.fst).Nodup) {k : K} {v : V}
    (hk : (k, v) ∈ l) (x : X) : read (l.foldl f x) k = g k v (read x k) := by
  induction l generalizing x with
  | nil => cases hk
  | cons e l ih =>
    rw [List.map_cons, List.nodup_cons] at hl
    rw [List.foldl_cons]
    rcases List.mem_cons.mp hk with rfl | hk
    · rw [read_foldl_of_not_mem read g h hl.1, h, if_pos rfl]
    · have hne : k ≠ e.1 := fun he => hl.1 (he ▸ List.mem_map_of_mem hk)
      rw [ih hl.2 hk, h, if_neg hne]

theorem read_foldl_toList (m : HashMap K V) (x : X) (k : K) :
    read (m.toList.foldl f x) k = match m.find k with
      | some v => g k v (read x k)
      | none => read x k := by
  cases hf : m.find k with
  | some v => exact read_foldl_of_mem read g h m.keys_toList_nodup (mem_toList.mpr hf) x
  | none =>
    refine read_foldl_of_not_mem read g h (fun hk => ?_) x
    obtain ⟨⟨k', v⟩, hm, rfl⟩ := List.mem_map.mp hk
    rw [mem_toList.mp hm] at hf
    cases hf

end Folds

end HashMap

namespace HashSet

variable {K : Type} [DecidableEq K]

def contains (s : HashSet K) (k : K) : Bool := (HashMap.find s k).isSome

def insert (s : HashSet K) (k : K) : HashSet K := HashMap.set s k ()

def remove (s : HashSet K) (k : K) : HashSet K := HashMap.remove s k

def toList (s : HashSet K) : List K := (HashMap.toList s).map Prod.fst

@[simp] theorem contains_empty (k : K) : contains (∅ : HashSet K) k = false := by
  rw [contains, HashMap.find_empty]
  rfl

theorem mem_toList {s : HashSet K} {k : K} : k ∈ toList s ↔ contains s k = true := by
  rw [toList, List.mem_map, contains, Option.isSome_iff_exists]
  constructor
  · rintro ⟨⟨k', u⟩, h, rfl⟩
    exact ⟨u, HashMap.mem_toList.mp h⟩
  · rintro ⟨u, h⟩
    exact ⟨(k, u), HashMap.mem_toList.mpr h, rfl⟩

theorem contains_insert (s : HashSet K) (k k' : K) :
    contains (insert s k) k' = (decide (k' = k) || contains s k') := by
  rw [contains, insert, HashMap.find_set]
  split_ifs with h <;> simp [h, contains]

theorem contains_remove (s : HashSet K) (k k' : K) :
    contains (remove s k) k' = (!decide (k' = k) && contains s k') := by
  rw [contains, remove, HashMap.find_remove]
  split_ifs with h <;> simp [h, contains]

theorem contains_insert_of_contains {s : HashSet K} {k : K} (h : contains s k = true) (k' : K) :
    contains (insert s k) k' = contains s k' := by
  rw [contains_insert]
  by_cases hk : k' = k
  · simp [hk, h]
  · simp [hk]

/-- Removing a member that was not there before it was inserted. -/
theorem contains_remove_of_insert {s t : HashSet K} {k k' : K} (h : ¬contains s k = true)
    (ht : contains t k' = contains (insert s k) k') : contains (remove t k) k' = contains s k' := by
  rw [contains_remove, ht, contains_insert]
  by_cases hk : k' = k
  · simp [hk, Bool.eq_false_iff.mpr h]
  · simp [hk]

end HashSet
end Silkworm
