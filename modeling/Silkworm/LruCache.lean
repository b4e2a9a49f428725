import Silkworm.HashMaps
import Silkworm.RecencyLists

/-!
# The cache of recently used values

A linked list of entries, the most recently used one in front, and a map from the keys to the nodes
of the list. A node is known by its address, for which there is a number here; what is done through
an iterator to a node that is not there is undefined.
-/

namespace Silkworm
open Recency

structure ListNode (K V : Type) where
  address : ℕ
  key : K
  value : V

structure LruCache (K V : Type) where
  cacheItemsList : List (ListNode K V) := []
  cacheItemsMap : HashMap K ℕ := ∅
  nextAddress : ℕ := 0
  maxSize : ℕ

namespace LruCache

variable {K V : Type} [DecidableEq K]

section Operations

def eraseNode (address : ℕ) (items : List (ListNode K V)) : Option (List (ListNode K V)) :=
  if items.any fun node => node.address = address then
    some (items.filter fun node => node.address ≠ address)
  else none

/-- The node of the key is replaced by a new one in front. -/
def insertFront (key : K) (value : V) (c : LruCache K V) : Option (LruCache K V) := do
  let it := c.cacheItemsMap.find key
  let items := { address := c.nextAddress, key, value } :: c.cacheItemsList
  let (items, map) ← match it with
    | some address => (eraseNode address items).map fun items => (items, c.cacheItemsMap.remove key)
    | none => some (items, c.cacheItemsMap)
  let front ← items.head?
  some { c with
    cacheItemsList := items
    cacheItemsMap := map.set key front.address
    nextAddress := c.nextAddress + 1 }

def size (c : LruCache K V) : ℕ := c.cacheItemsMap.keys.length

def put (key : K) (value : V) (c : LruCache K V) : Option (LruCache K V) := do
  let c ← c.insertFront key value
  if c.maxSize < c.size then
    let last ← c.cacheItemsList.getLast?
    some { c with
      cacheItemsList := c.cacheItemsList.dropLast
      cacheItemsMap := c.cacheItemsMap.remove last.key }
  else some c

/-- The value that is found, and the cache with its node in front. -/
def get (key : K) (c : LruCache K V) : Option (Option V × LruCache K V) :=
  match c.cacheItemsMap.find key with
  | none => some (none, c)
  | some address =>
    match c.cacheItemsList.find? fun node => node.address = address with
    | none => none
    | some node => some (some node.value,
        { c with cacheItemsList :=
            node :: c.cacheItemsList.filter fun node => node.address ≠ address })

def clear (c : LruCache K V) : LruCache K V :=
  { c with cacheItemsList := [], cacheItemsMap := ∅ }

end Operations

section Linking

variable {c : LruCache K V} {key : K}

def entries (c : LruCache K V) : List (K × V) := c.cacheItemsList.map fun node => (node.key, node.value)

/-- The map leads from the keys to the nodes of the list, of which no two have the same key or the
same address. -/
structure Linked (c : LruCache K V) : Prop where
  keys : (c.cacheItemsList.map ListNode.key).Nodup
  addresses : (c.cacheItemsList.map ListNode.address).Nodup
  linked : ∀ key address, c.cacheItemsMap.find key = some address ↔
    ∃ node ∈ c.cacheItemsList, node.key = key ∧ node.address = address
  fresh : ∀ node ∈ c.cacheItemsList, node.address < c.nextAddress

theorem linked_init (maxSize : ℕ) : Linked ({ maxSize } : LruCache K V) where
  keys := List.nodup_nil
  addresses := List.nodup_nil
  linked key address := by simp
  fresh := nofun

theorem linked_clear (c : LruCache K V) : Linked c.clear where
  keys := List.nodup_nil
  addresses := List.nodup_nil
  linked key address := by simp [LruCache.clear]
  fresh := nofun

theorem Linked.distinct (h : Linked c) : Distinct c.entries := by
  have hkeys := h.keys
  rwa [Distinct, entries, List.map_map]

theorem mem_keys_iff (m : HashMap K ℕ) : key ∈ m.keys ↔ ∃ address, m.find key = some address := by
  rw [← AList.mem_keys, ← AList.lookup_isSome, Option.isSome_iff_exists]
  rfl

/-- The list and the map have the same keys. -/
theorem Linked.perm (h : Linked c) :
    (c.cacheItemsMap.keys).Perm (c.cacheItemsList.map ListNode.key) := by
  refine (List.perm_ext_iff_of_nodup c.cacheItemsMap.keys_nodup h.keys).mpr fun key => ?_
  rw [mem_keys_iff, List.mem_map]
  constructor
  · rintro ⟨address, hfind⟩
    obtain ⟨node, hnode, hkey, -⟩ := (h.linked key address).mp hfind
    exact ⟨node, hnode, hkey⟩
  · rintro ⟨node, hnode, hkey⟩
    exact ⟨node.address, (h.linked key node.address).mpr ⟨node, hnode, hkey, rfl⟩⟩

theorem Linked.size_eq (h : Linked c) : c.size = c.cacheItemsList.length := by
  rw [size, h.perm.length_eq, List.length_map]

theorem entries_filter (items : List (ListNode K V)) (key : K) :
    ((items.filter fun node => node.key ≠ key).map fun node => (node.key, node.value)) =
      others key (items.map fun node => (node.key, node.value)) := by
  rw [others, List.filter_map]
  rfl

/-- A node is the only one with its address, and the only one with its key. -/
theorem Linked.filter_address (h : Linked c) {node : ListNode K V} (hnode : node ∈ c.cacheItemsList) :
    (c.cacheItemsList.filter fun x => x.address ≠ node.address) =
      c.cacheItemsList.filter fun x => x.key ≠ node.key := by
  refine List.filter_congr fun x hx => ?_
  have hiff : x.address = node.address ↔ x.key = node.key := by
    constructor
    · exact fun heq => congrArg _ (List.inj_on_of_nodup_map h.addresses hx hnode heq)
    · exact fun heq => congrArg _ (List.inj_on_of_nodup_map h.keys hx hnode heq)
  simp only [ne_eq, hiff]

/-- The nodes of other keys, behind a new node. -/
theorem Linked.front (h : Linked c) (key : K) (value : V) (map : HashMap K ℕ)
    (hmap : ∀ key', key' ≠ key → map.find key' = c.cacheItemsMap.find key') :
    Linked { c with
      cacheItemsList := ⟨c.nextAddress, key, value⟩ ::
        c.cacheItemsList.filter fun node => node.key ≠ key
      cacheItemsMap := map.set key c.nextAddress
      nextAddress := c.nextAddress + 1 } where
  keys := by
    rw [List.map_cons, List.nodup_cons]
    refine ⟨fun hmem => ?_, h.keys.sublist (List.filter_sublist.map _)⟩
    obtain ⟨node, hnode, heq⟩ := List.mem_map.mp hmem
    exact (of_decide_eq_true (List.mem_filter.mp hnode).2) heq
  addresses := by
    rw [List.map_cons, List.nodup_cons]
    refine ⟨fun hmem => ?_, h.addresses.sublist (List.filter_sublist.map _)⟩
    obtain ⟨node, hnode, heq⟩ := List.mem_map.mp hmem
    exact absurd heq (Nat.ne_of_lt (h.fresh node (List.mem_filter.mp hnode).1))
  linked key' address := by
    rw [HashMap.find_set]
    split_ifs with hkey
    · constructor
      · intro heq
        exact ⟨_, List.mem_cons_self, hkey.symm, Option.some.inj heq⟩
      · rintro ⟨node, hnode, hnodeKey, rfl⟩
        rcases List.mem_cons.mp hnode with rfl | hnode
        · rfl
        · exact absurd (hnodeKey.trans hkey) (of_decide_eq_true (List.mem_filter.mp hnode).2)
    · rw [hmap key' hkey, h.linked]
      constructor
      · rintro ⟨node, hnode, rfl, rfl⟩
        exact ⟨node, List.mem_cons_of_mem _ (List.mem_filter.mpr ⟨hnode, decide_eq_true hkey⟩), rfl, rfl⟩
      · rintro ⟨node, hnode, rfl, rfl⟩
        rcases List.mem_cons.mp hnode with rfl | hnode
        · exact absurd rfl hkey
        · exact ⟨node, (List.mem_filter.mp hnode).1, rfl, rfl⟩
  fresh node hnode := by
    rcases List.mem_cons.mp hnode with rfl | hnode
    · exact Nat.lt_succ_self _
    · exact Nat.lt_succ_of_lt (h.fresh node (List.mem_filter.mp hnode).1)

theorem insertFront_spec (h : Linked c) (key : K) (value : V) :
    ∃ c', c.insertFront key value = some c' ∧ Linked c' ∧
      c'.entries = Recency.put key value c.entries ∧ c'.maxSize = c.maxSize := by
  have hentries : (⟨c.nextAddress, key, value⟩ :: c.cacheItemsList.filter fun node => node.key ≠ key).map
      (fun node : ListNode K V => (node.key, node.value)) = Recency.put key value c.entries := by
    rw [List.map_cons, entries_filter]
    rfl
  rw [insertFront]
  cases hfind : c.cacheItemsMap.find key with
  | none =>
    have hfilter : (c.cacheItemsList.filter fun node => node.key ≠ key) = c.cacheItemsList := by
      refine List.filter_eq_self.mpr fun node hnode => decide_eq_true fun heq => ?_
      have hsome := (h.linked key node.address).mpr ⟨node, hnode, heq, rfl⟩
      rw [hfind] at hsome
      cases hsome
    have hfront := h.front key value c.cacheItemsMap fun _ _ => rfl
    rw [hfilter] at hfront hentries
    exact ⟨_, rfl, hfront, hentries, rfl⟩
  | some address =>
    obtain ⟨node, hnode, rfl, rfl⟩ := (h.linked key address).mp hfind
    have herase : eraseNode node.address (⟨c.nextAddress, node.key, value⟩ :: c.cacheItemsList) =
        some (⟨c.nextAddress, node.key, value⟩ ::
          c.cacheItemsList.filter fun x => x.key ≠ node.key) := by
      have hne : c.nextAddress ≠ node.address := (Nat.ne_of_lt (h.fresh node hnode)).symm
      rw [eraseNode, if_pos, List.filter_cons_of_pos (by simpa using hne), h.filter_address hnode]
      exact List.any_eq_true.mpr ⟨node, List.mem_cons_of_mem _ hnode, decide_eq_true rfl⟩
    have hfront := h.front node.key value (c.cacheItemsMap.remove node.key) fun _ hne => HashMap.find_remove_ne hne
    dsimp only
    rw [herase]
    exact ⟨_, rfl, hfront, hentries, rfl⟩

/-- The last node, which is dropped from the list and from the map. -/
theorem Linked.dropLast (h : Linked c) {items : List (ListNode K V)} {last : ListNode K V}
    (hitems : c.cacheItemsList = items ++ [last]) :
    Linked { c with cacheItemsList := items, cacheItemsMap := c.cacheItemsMap.remove last.key } where
  keys := by
    have hkeys := h.keys
    rw [hitems, List.map_append] at hkeys
    exact hkeys.of_append_left
  addresses := by
    have haddresses := h.addresses
    rw [hitems, List.map_append] at haddresses
    exact haddresses.of_append_left
  linked key address := by
    have hkeys := h.keys
    rw [hitems, List.map_append, List.nodup_append] at hkeys
    rw [HashMap.find_remove]
    split_ifs with hkey
    · refine iff_of_false (by simp) ?_
      rintro ⟨node, hnode, rfl, -⟩
      exact hkeys.2.2 node.key (List.mem_map_of_mem hnode) last.key (by simp) hkey
    · rw [h.linked, hitems]
      constructor
      · rintro ⟨node, hnode, rfl, rfl⟩
        rcases List.mem_append.mp hnode with hnode | hnode
        · exact ⟨node, hnode, rfl, rfl⟩
        · exact absurd (congrArg ListNode.key (List.mem_singleton.mp hnode)) hkey
      · rintro ⟨node, hnode, rfl, rfl⟩
        exact ⟨node, List.mem_append_left _ hnode, rfl, rfl⟩
  fresh node hnode := h.fresh node (hitems ▸ List.mem_append_left _ hnode)

/-- What is put comes to the front; what is longest unused is dropped where there is no room. -/
theorem put_spec (h : Linked c) (hle : c.cacheItemsList.length ≤ c.maxSize) (key : K) (value : V) :
    ∃ c', c.put key value = some c' ∧ Linked c' ∧
      c'.entries = (Recency.put key value c.entries).take c.maxSize ∧ c'.maxSize = c.maxSize := by
  obtain ⟨c₁, hinsert, hlinked, hentries, hmax⟩ := insertFront_spec h key value
  have hlength : c₁.cacheItemsList.length ≤ c.maxSize + 1 := by
    have heq := congrArg List.length hentries
    have hothers : (others key c.entries).length ≤ c.entries.length := List.length_filter_le _ _
    rw [entries, entries, List.length_map, Recency.put, List.length_cons] at heq
    rw [entries, List.length_map] at hothers
    omega
  rw [put, hinsert]
  change ∃ c', (if c₁.maxSize < c₁.size then _ else _) = some c' ∧ _
  rw [hlinked.size_eq]
  by_cases hlt : c.maxSize < c₁.cacheItemsList.length
  · obtain ⟨items, last, hitems⟩ : ∃ items last, c₁.cacheItemsList = items ++ [last] :=
      ⟨_, _, (List.dropLast_append_getLast (List.ne_nil_of_length_pos (Nat.zero_lt_of_lt hlt))).symm⟩
    have hdrop := hlinked.dropLast hitems
    have hitemsLength : items.length = c.maxSize := by
      rw [hitems, List.length_append, List.length_singleton] at hlt hlength
      omega
    refine ⟨_, ?_, hdrop, ?_, hmax⟩
    · rw [hmax, if_pos hlt, hitems, List.getLast?_append_of_ne_nil _ (List.cons_ne_nil _ _),
        List.dropLast_concat, ← hmax]
      rfl
    · rw [← hentries, entries, entries, hitems, ← hitemsLength, List.map_append]
      exact (List.take_left' (List.length_map _)).symm
  · refine ⟨c₁, if_neg (hmax ▸ hlt), hlinked, ?_, hmax⟩
    rw [← hentries, List.take_of_length_le]
    rw [entries, List.length_map]
    exact Nat.not_lt.mp hlt

theorem Linked.of_perm (h : Linked c) {items : List (ListNode K V)}
    (hperm : items.Perm c.cacheItemsList) : Linked { c with cacheItemsList := items } where
  keys := (hperm.map ListNode.key).nodup_iff.mpr h.keys
  addresses := (hperm.map ListNode.address).nodup_iff.mpr h.addresses
  linked key address := by
    rw [h.linked]
    simp only [hperm.mem_iff]
  fresh node hnode := h.fresh node (hperm.mem_iff.mp hnode)

theorem Linked.perm_front (h : Linked c) {node : ListNode K V} (hnode : node ∈ c.cacheItemsList) :
    (node :: c.cacheItemsList.filter fun x => x.address ≠ node.address).Perm c.cacheItemsList := by
  have hnodup : c.cacheItemsList.Nodup := h.addresses.of_map
  have hmem {x : ListNode K V} : (x ∈ c.cacheItemsList.filter fun x => x.address ≠ node.address) ↔
      x ∈ c.cacheItemsList ∧ x.address ≠ node.address := by
    rw [List.mem_filter, decide_eq_true_iff]
  refine (List.perm_ext_iff_of_nodup ?_ hnodup).mpr fun x => ?_
  · exact List.nodup_cons.mpr ⟨fun h => (hmem.mp h).2 rfl, hnodup.filter _⟩
  · rw [List.mem_cons, hmem]
    constructor
    · rintro (rfl | ⟨hx, -⟩)
      · exact hnode
      · exact hx
    · intro hx
      by_cases heq : x.address = node.address
      · exact .inl (List.inj_on_of_nodup_map h.addresses hx hnode heq)
      · exact .inr ⟨hx, heq⟩

/-- What is found comes to the front. -/
theorem get_spec (h : Linked c) (key : K) :
    ∃ c', c.get key = some ((find key c.entries).map Prod.snd, c') ∧ Linked c' ∧
      c'.entries = promote key c.entries ∧ c'.maxSize = c.maxSize := by
  rw [get]
  cases hfind : c.cacheItemsMap.find key with
  | none =>
    have hnone : find key c.entries = none := by
      rw [find_eq_none_iff, entries, List.map_map]
      intro hmem
      obtain ⟨node, hnode, heq⟩ := List.mem_map.mp hmem
      have hsome := (h.linked key node.address).mpr ⟨node, hnode, heq, rfl⟩
      rw [hfind] at hsome
      cases hsome
    refine ⟨c, by rw [hnone]; rfl, h, ?_, rfl⟩
    rw [promote, hnone]
  | some address =>
    obtain ⟨node, hnode, rfl, rfl⟩ := (h.linked key address).mp hfind
    have hat : (c.cacheItemsList.find? fun x => x.address = node.address) = some node := by
      obtain ⟨x, hx⟩ := Option.isSome_iff_exists.mp (List.find?_isSome.mpr
        ⟨node, hnode, decide_eq_true rfl⟩ :
          (c.cacheItemsList.find? fun x => decide (x.address = node.address)).isSome)
      have heq := List.inj_on_of_nodup_map h.addresses (List.mem_of_find?_eq_some hx) hnode
        (by simpa using List.find?_some hx)
      rw [hx, heq]
    have hsome : find node.key c.entries = some (node.key, node.value) :=
      (find_eq_some_iff h.distinct).mpr ⟨List.mem_map.mpr ⟨node, hnode, rfl⟩, rfl⟩
    have hfront := h.of_perm (h.perm_front hnode)
    dsimp only
    rw [hat, hsome]
    refine ⟨_, rfl, hfront, ?_, rfl⟩
    rw [promote, hsome, entries, h.filter_address hnode, List.map_cons, entries_filter]
    rfl

end Linking

end LruCache

end Silkworm
