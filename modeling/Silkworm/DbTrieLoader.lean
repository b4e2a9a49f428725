import Silkworm.CollectingRuns
import Silkworm.HashedState

/-!
# The loader of the state root, with its collectors

The builders of the loader hand the nodes of their branches to collectors. The root is that of
the state unless an assertion of a builder fails on the way, which depends on the shapes of
the tries alone.
-/

namespace Silkworm.Db
open BigEndian Rlp SortedTables MemoryBuffer
open Trie hiding Entry Before

section Loader

/-- The masks, the hash of the root if there is one, and the hashes of the children. -/
def marshalNode (n : Node) : Bytes :=
  fixedBigEndian 2 n.stateMask.toNat ++ fixedBigEndian 2 n.treeMask.toNat ++
    fixedBigEndian 2 n.hashMask.toNat ++ (n.rootHash.elim [] Subtype.val) ++
    n.hashes.flatMap Subtype.val

/-- The values of a key from a bound on. -/
def dupsFrom (t : Table) (key lowerBound : Bytes) : List Bytes :=
  ((t.entries.dropWhile fun e => ¬(e.1 = key ∧ ¬e.2 < lowerBound)).takeWhile fun e =>
    e.1 = key).map Prod.snd

/-- The location and the value of a slot are read from one value of the table. -/
def slotLeaf (s : Bytes) : Option (Bytes × Bytes) :=
  if s.length < kHashLength then none else some (s.take kHashLength, encodeBytes (s.drop kHashLength))

structure DbTrieLoader where
  hb : HashBuilder := { nodeCollector := true }
  storageCollector : List Entry := []

namespace DbTrieLoader

/-- What a collector is given for a node: the key is unpacked, a nibble to a byte. -/
def nodeEntry (keyPrefix : Bytes) (c : List Nibble × Node) : Entry :=
  (keyPrefix ++ c.1.map fun d => byte d.val, marshalNode c.2)

/-- The collector of the account trie does not keep the root. -/
def accountCollector (hb : HashBuilder) : List Entry :=
  (hb.collected.filter fun c => c.1 ≠ []).map (nodeEntry [])

variable (keccak : Bytes → Bytes32)

/-- The root of the storage of an account, and the entries of its nodes. -/
def loadStorage (hashedStorage : Table) (hashedAddress : Bytes) (incarnation : Uint64) :
    Option (Bytes32 × List Entry) := do
  let accWithInc := storagePrefix hashedAddress incarnation
  let leaves ← (dupsFrom hashedStorage accWithInc [0]).mapM slotLeaf
  let storageHb ← addAll keccak leaves { nodeCollector := true }
  let (root, storageHb) ← rootHash keccak storageHb
  some (root, storageHb.collected.map (nodeEntry accWithInc))

/-- An account without an incarnation has no storage. -/
def accountStorage (hashedStorage : Table) (hashedAddress : Bytes) (account : Account) :
    Option (Bytes32 × List Entry) :=
  if account.incarnation ≠ 0 then loadStorage keccak hashedStorage hashedAddress account.incarnation
  else some (kEmptyRoot, [])

def loadAccount (hashedStorage : Table) (loader : DbTrieLoader) (a : Entry) :
    Option DbTrieLoader :=
  match decodeAccountFromStorage a.2 with
  | .ok account _ => do
    let (storageRoot, nodes) ← accountStorage keccak hashedStorage a.1 account
    let hb ← add keccak a.1 (account.rlp storageRoot) loader.hb
    some { hb, storageCollector := loader.storageCollector ++ nodes }
  | _ => none

/-- The root, and what the collectors of the two tries have received. Both trie cursors cover
nothing, so that each loop runs once, over all accounts and over all slots of an account. -/
def calculateRoot (hashed : HashedTables) : Option (Bytes32 × List Entry × List Entry) := do
  let loader ← hashed.hashedAccounts.entries.foldlM (loadAccount keccak hashed.hashedStorage) {}
  let (root, hb) ← rootHash keccak loader.hb
  some (root, accountCollector hb, loader.storageCollector)

end DbTrieLoader

end Loader

section Duplicates

variable {t : Table} {key : Bytes}

theorem not_lt_singleton_zero {v : Bytes} (hv : v ≠ []) : ¬v < [0] := by
  cases v with
  | nil => exact absurd rfl hv
  | cons b v =>
    rw [List.cons_lt_cons_iff, not_or]
    exact ⟨UInt8.not_lt.mpr UInt8.zero_le, fun h => absurd h.2 (List.not_lt_nil v)⟩

theorem dupsFrom_zero (h : ∀ v, (key, v) ∈ t.entries → v ≠ []) :
    dupsFrom t key [0] = (t.entries.filter fun e => e.1 = key).map Prod.snd := by
  have hdrop : (t.entries.dropWhile fun e => ¬(e.1 = key ∧ ¬e.2 < [0])) =
      t.entries.dropWhile fun e => ¬e.1 = key := by
    have hval : ∀ e ∈ t.entries, ¬e.1 = key ∨ ¬e.2 < [0] := by
      intro e he
      by_cases hk : e.1 = key
      · exact .inr (not_lt_singleton_zero (h e.2 (hk ▸ he)))
      · exact .inl hk
    generalize t.entries = l at hval
    induction l with
    | nil => rfl
    | cons e l ih =>
      obtain ⟨he, hl⟩ := List.forall_mem_cons.mp hval
      by_cases hk : e.1 = key
      · have he' := he.resolve_left (not_not.mpr hk)
        rw [List.dropWhile_cons_of_neg (by simpa [hk] using he'),
          List.dropWhile_cons_of_neg (by simp [hk])]
      · rw [List.dropWhile_cons_of_pos (by simp [hk]), List.dropWhile_cons_of_pos (by simp [hk]), ih hl]
  rw [dupsFrom, hdrop, takeWhile_dropWhile_key t.sorted]

end Duplicates

section Tries

variable (keccak : Bytes → Bytes32)

/-- No assertion fails when the trie of the entries is built and its nodes are collected. -/
def NodesPass (l : List (Bytes × Bytes)) : Prop :=
  ∀ p, IsBranch (l.map toEntry) p → Passes keccak (l.map toEntry) p

def slotLeaves (K : List (Bytes32 × Bytes32)) : List (Bytes × Bytes) :=
  K.map fun e => ((keccak e.1.val).val, encodeBytes (zerolessView e.2))

def accountLeaves (storageRoot : Address → Bytes32) (J : List (Address × Account)) :
    List (Bytes × Bytes) :=
  J.map fun e => ((keccak e.1.val).val, e.2.rlp (storageRoot e.1))

/-- The assertions hold in the storage tries of the accounts and in the trie of the accounts. -/
structure TriesPass (w : World) : Prop where
  storage : ∀ a account K, w.account a = some account → w.Slots a account.incarnation K →
    NodesPass keccak (slotLeaves keccak K)
  accounts : ∀ J storageRoot, w.Accounts J →
    (∀ a account, w.account a = some account →
      w.StorageRoot keccak a account.incarnation (storageRoot a)) →
    NodesPass keccak (accountLeaves keccak storageRoot J)

variable {keccak}

theorem slots_nil {w : World} {a : Address} {i : Uint64}
    (h : ∀ location, w.storage a i location = default) : w.Slots a i [] := by
  refine ⟨List.nodup_nil, fun location value => ?_⟩
  rw [h]
  exact ⟨fun hm => absurd hm List.not_mem_nil, fun hm => absurd hm.1.symm hm.2⟩

theorem storageRoot_empty {w : World} {a : Address} {i : Uint64}
    (h : ∀ location, w.storage a i location = default) : w.StorageRoot keccak a i kEmptyRoot :=
  ⟨[], slots_nil h, rfl⟩

theorem nodesPass_nil : NodesPass keccak [] := by
  rintro p ⟨d, -, -, hd, -⟩
  exact absurd rfl hd

/-- A trie of one leaf has no branch. -/
theorem nodesPass_singleton (x : Bytes × Bytes) : NodesPass keccak [x] := by
  rintro p ⟨d, e, hne, hd, he⟩
  obtain ⟨y, hy, hd⟩ := under_ne_nil_iff.mp hd
  obtain ⟨z, hz, he⟩ := under_ne_nil_iff.mp he
  rw [List.map_singleton, List.mem_singleton] at hy hz
  subst hy hz
  have heq := List.prefix_of_prefix_length_le hd he (by simp)
  exact absurd (List.cons.inj (List.append_cancel_left (heq.eq_of_length (by simp)))).1 hne

theorem NodesPass.perm {l l' : List (Bytes × Bytes)} (h : l.Perm l') (hl : NodesPass keccak l) :
    NodesPass keccak l' := by
  have hmap := h.map toEntry
  have hnil (q : List Nibble) : EntriesUnderPrefix.under (l.map toEntry) q ≠ [] ↔
      EntriesUnderPrefix.under (l'.map toEntry) q ≠ [] := by
    have hperm := EntriesUnderPrefix.under_perm hmap q
    rw [not_iff_not]
    exact ⟨fun h0 => (h0 ▸ hperm).nil_eq.symm, fun h0 => (h0 ▸ hperm).eq_nil⟩
  have hbranch (q : List Nibble) : IsBranch (l.map toEntry) q ↔ IsBranch (l'.map toEntry) q := by
    simp only [IsBranch, hnil]
  intro p hp d hd
  have hlingers : Lingers (l.map toEntry) p d :=
    (marks_congr fun r => and_congr_left fun _ => hbranch r).mpr hd
  obtain ⟨hne, hlen⟩ := hl p ((hbranch p).mpr hp) d hlingers
  refine ⟨(hnil _).mp hne, ?_⟩
  rw [childNode, ← trieNode_perm (EntriesUnderPrefix.under_perm hmap _)]
  exact hlen

/-- A collecting builder returns the root of the trie or fails. -/
theorem collect_rootHash {l : List (Bytes × Bytes)} (hlen : ∀ e ∈ l, e.1.length = kHashLength)
    (hsorted : l.Pairwise fun a b => a.1 < b.1) :
    (NodesPass keccak l ∧ ∃ hb, (addAll keccak l { nodeCollector := true }).bind (rootHash keccak) =
        some (trieRoot keccak l, hb)) ∨
      ¬NodesPass keccak l ∧
        (addAll keccak l { nodeCollector := true }).bind (rootHash keccak) = none := by
  rcases rootHash_collect (ne_nil_of_length (by decide) hlen) (prefixFree_of_length hlen hsorted)
    hsorted keccak with ⟨hnone, hfail⟩ | ⟨hb, hsome, hend⟩
  · exact .inr ⟨hfail, hnone⟩
  · exact .inl ⟨hend.passes, hb, hsome⟩

end Tries

section Storage

variable {keccak : Bytes → Bytes32} {w : World} {hashedStorage : Table} {a : Address} {i : Uint64}

theorem lt_or_eq_of_append_lt {s t u v : Bytes} (hlen : s.length = t.length)
    (h : s ++ u < t ++ v) : s < t ∨ s = t := by
  induction s generalizing t with
  | nil => exact .inr (List.eq_nil_of_length_eq_zero hlen.symm).symm
  | cons b s ih =>
    cases t with
    | nil => simp at hlen
    | cons c t =>
      rcases List.cons_lt_cons_iff.mp h with hlt | ⟨rfl, hlt⟩
      · exact .inl (List.cons_lt_cons_iff.mpr (.inl hlt))
      · rcases ih (Nat.succ.inj hlen) hlt with hlt | rfl
        · exact .inl (List.cons_lt_cons_iff.mpr (.inr ⟨rfl, hlt⟩))
        · exact .inr rfl

/-- The values under the key of an account are its slots, with hashed locations. -/
def StoresSlots (keccak : Bytes → Bytes32) (w : World) (hashedStorage : Table) (a : Address)
    (i : Uint64) : Prop :=
  ∀ v, (storagePrefix (keccak a.val).val i, v) ∈ hashedStorage.entries ↔
    ∃ location, w.storage a i location ≠ default ∧
      v = (keccak location.val).val ++ zerolessView (w.storage a i location)

theorem exists_slots (hfree : w.CollisionFree keccak) (h : StoresSlots keccak w hashedStorage a i) :
    ∃ K, w.Slots a i K ∧ (slotLeaves keccak K).Pairwise (fun x y => x.1 < y.1) ∧
      (dupsFrom hashedStorage (storagePrefix (keccak a.val).val i) [0]).mapM slotLeaf =
        some (slotLeaves keccak K) := by
  have hne (v : Bytes) (hv : (storagePrefix (keccak a.val).val i, v) ∈ hashedStorage.entries) :
      v ≠ [] := by
    obtain ⟨location, -, rfl⟩ := (h v).mp hv
    intro h0
    have := congrArg List.length (List.append_eq_nil_iff.mp h0).1
    rw [(keccak location.val).property] at this
    exact absurd this (by decide)
  let leaf (e : Bytes32 × Bytes32) : Entry :=
    (storagePrefix (keccak a.val).val i, (keccak e.1.val).val ++ zerolessView e.2)
  obtain ⟨K, hK, hP⟩ := exists_eq_map
    (l := hashedStorage.entries.filter fun e => e.1 = storagePrefix (keccak a.val).val i)
    (P := fun e : Bytes32 × Bytes32 => w.storage a i e.1 = e.2 ∧ e.2 ≠ default) (f := leaf)
    fun e he => by
      obtain ⟨he, hkey⟩ := List.mem_filter.mp he
      have hkey : e.1 = storagePrefix (keccak a.val).val i := of_decide_eq_true hkey
      obtain ⟨location, hloc, hv⟩ := (h e.2).mp (hkey ▸ he)
      exact ⟨(location, w.storage a i location), ⟨rfl, hloc⟩, Prod.ext hkey hv⟩
  have hsorted : (K.map leaf).Pairwise Before := hK ▸ hashedStorage.sorted.filter _
  have hslots : w.Slots a i K := by
    refine ⟨(hK ▸ hashedStorage.nodup_entries.filter _ : (K.map leaf).Nodup).of_map,
      fun location value => ⟨hP (location, value), ?_⟩⟩
    rintro ⟨rfl, hloc⟩
    have hmem : leaf (location, w.storage a i location) ∈ K.map leaf := by
      rw [← hK]
      exact List.mem_filter.mpr ⟨(h _).mpr ⟨location, hloc, rfl⟩, decide_eq_true rfl⟩
    obtain ⟨x, hx, heq⟩ := List.mem_map.mp hmem
    have hhash := (List.append_inj (Prod.mk.inj heq).2
      ((keccak x.1.val).property.trans (keccak location.val).property.symm)).1
    obtain ⟨hxv, hxne⟩ := hP x hx
    have hloc' : x.1 = location :=
      hfree.storage a i x.1 location (hxv ▸ hxne) hloc (Subtype.ext hhash)
    have hxeq : x = (location, w.storage a i location) := Prod.ext hloc' (by rw [← hxv, hloc'])
    exact hxeq ▸ hx
  refine ⟨K, hslots, ?_, ?_⟩
  · refine List.pairwise_map.mpr ((List.pairwise_map.mp hsorted).imp_of_mem fun {x y} hx hy hb => ?_)
    have hlt := (hb.resolve_left (List.lt_irrefl _)).2
    rcases lt_or_eq_of_append_lt ((keccak x.1.val).property.trans (keccak y.1.val).property.symm) hlt
      with hlt | heq
    · exact hlt
    · obtain ⟨hxv, hxne⟩ := hP x hx
      obtain ⟨hyv, hyne⟩ := hP y hy
      have hloc := hfree.storage a i x.1 y.1 (hxv ▸ hxne) (hyv ▸ hyne) (Subtype.ext heq)
      have hxy : x = y := Prod.ext hloc (by rw [← hxv, ← hyv, hloc])
      rw [hxy] at hlt
      exact absurd hlt (List.lt_irrefl _)
  · rw [dupsFrom_zero hne, hK, List.map_map]
    have hleaf (e : Bytes32 × Bytes32) : slotLeaf ((leaf e).2) =
        some ((keccak e.1.val).val, encodeBytes (zerolessView e.2)) := by
      have hlen := (keccak e.1.val).property
      have hge : ¬(leaf e).2.length < kHashLength := by
        simp only [leaf, List.length_append, hlen]
        omega
      rw [slotLeaf, if_neg hge, List.take_left' hlen, List.drop_left' hlen]
    have hfun : slotLeaf ∘ (Prod.snd ∘ leaf) =
        fun e => some ((keccak e.1.val).val, encodeBytes (zerolessView e.2)) := funext hleaf
    rw [mapM_eq_filterMap, List.filterMap_map, hfun, List.filterMap_eq_map']
    · rfl
    · intro v hv
      obtain ⟨e, -, rfl⟩ := List.mem_map.mp hv
      exact ⟨_, hleaf e⟩

/-- The loader has the root of the storage of an account, or fails. -/
theorem loadStorage_cases (hfree : w.CollisionFree keccak)
    (h : StoresSlots keccak w hashedStorage a i) :
    ∃ K, w.Slots a i K ∧
      ((NodesPass keccak (slotLeaves keccak K) ∧ ∃ nodes,
          DbTrieLoader.loadStorage keccak hashedStorage (keccak a.val).val i =
            some (trieRoot keccak (slotLeaves keccak K), nodes)) ∨
        ¬NodesPass keccak (slotLeaves keccak K) ∧
          DbTrieLoader.loadStorage keccak hashedStorage (keccak a.val).val i = none) := by
  obtain ⟨K, hK, hsorted, hleaves⟩ := exists_slots hfree h
  have hlen : ∀ e ∈ slotLeaves keccak K, e.1.length = kHashLength := by
    intro e he
    obtain ⟨x, -, rfl⟩ := List.mem_map.mp he
    exact (keccak x.1.val).property
  have hload : DbTrieLoader.loadStorage keccak hashedStorage (keccak a.val).val i =
      ((addAll keccak (slotLeaves keccak K) { nodeCollector := true }).bind (rootHash keccak)).map
        fun r => (r.1, r.2.collected.map
          (DbTrieLoader.nodeEntry (storagePrefix (keccak a.val).val i))) := by
    simp only [DbTrieLoader.loadStorage, hleaves, Option.bind_eq_bind, Option.bind_some,
      Option.map_bind]
    congr 1
    funext hb
    rw [Function.comp_apply]
    cases rootHash keccak hb <;> rfl
  refine ⟨K, hK, ?_⟩
  rw [hload]
  rcases collect_rootHash hlen hsorted with ⟨hpass, hb, hrun⟩ | ⟨hfail, hrun⟩
  · exact .inl ⟨hpass, _, by rw [hrun]; rfl⟩
  · exact .inr ⟨hfail, by rw [hrun]; rfl⟩

end Storage

section Accounts

variable {keccak : Bytes → Bytes32} {w : World} {hashed : HashedTables}

theorem decode_hashedAccount (account : Account) :
    ∃ r, decodeAccountFromStorage (account.encodeForStorage false) = .ok account r :=
  decodeAccountFromStorage_encodeForStorage account false

/-- The step of the loader for an account whose storage root is known. -/
theorem loadAccount_eq {hashedStorage : Table} {a : Address} {account : Account} {root : Bytes32}
    {nodes : List Entry}
    (hroot : DbTrieLoader.accountStorage keccak hashedStorage (keccak a.val).val account =
      some (root, nodes)) (loader : DbTrieLoader) :
    DbTrieLoader.loadAccount keccak hashedStorage loader
        ((keccak a.val).val, account.encodeForStorage false) =
      (add keccak (keccak a.val).val (account.rlp root) loader.hb).map fun hb =>
        { hb, storageCollector := loader.storageCollector ++ nodes } := by
  obtain ⟨r, hr⟩ := decode_hashedAccount account
  simp only [DbTrieLoader.loadAccount, hr, hroot, Option.bind_eq_bind, Option.bind_some]
  cases add keccak (keccak a.val).val (account.rlp root) loader.hb <;> rfl

theorem loadAccount_eq_none {hashedStorage : Table} {a : Address} {account : Account}
    (hroot : DbTrieLoader.accountStorage keccak hashedStorage (keccak a.val).val account = none)
    (loader : DbTrieLoader) :
    DbTrieLoader.loadAccount keccak hashedStorage loader
      ((keccak a.val).val, account.encodeForStorage false) = none := by
  obtain ⟨r, hr⟩ := decode_hashedAccount account
  simp only [DbTrieLoader.loadAccount, hr, hroot, Option.bind_eq_bind, Option.bind_none]

theorem foldlM_eq_none {X Y : Type} {f : Y → X → Option Y} {l : List X} {x : X} (hx : x ∈ l)
    (h : ∀ y, f y x = none) (y : Y) : l.foldlM f y = none := by
  induction l generalizing y with
  | nil => exact absurd hx List.not_mem_nil
  | cons x' l ih =>
    rw [List.foldlM_cons]
    rcases List.mem_cons.mp hx with rfl | hx
    · rw [h]
      rfl
    · cases f y x' with
      | none => rfl
      | some y' => exact ih hx y'

/-- The loop over the accounts feeds their leaves to the builder. -/
theorem foldlM_loadAccount {hashedStorage : Table} {storageRoot : Address → Bytes32}
    {J : List (Address × Account)}
    (hroot : ∀ e ∈ J, ∃ nodes, DbTrieLoader.accountStorage keccak hashedStorage (keccak e.1.val).val
      e.2 = some (storageRoot e.1, nodes)) (loader : DbTrieLoader) :
    ((J.map fun e => ((keccak e.1.val).val, e.2.encodeForStorage false)).foldlM
        (DbTrieLoader.loadAccount keccak hashedStorage) loader).map DbTrieLoader.hb =
      addAll keccak (accountLeaves keccak storageRoot J) loader.hb := by
  induction J generalizing loader with
  | nil => rfl
  | cons e J ih =>
    obtain ⟨⟨nodes, he⟩, hJ⟩ := List.forall_mem_cons.mp hroot
    rw [List.map_cons, List.foldlM_cons, loadAccount_eq he, accountLeaves, List.map_cons, addAll,
      List.foldlM_cons]
    cases add keccak (keccak e.1.val).val (e.2.rlp (storageRoot e.1)) loader.hb with
    | none => rfl
    | some hb => exact ih hJ _

/-- The tables with hashed keys hold the accounts and their slots. There may be more under
other incarnations. -/
structure HoldsState (keccak : Bytes → Bytes32) (w : World) (hashed : HashedTables) : Prop where
  accounts : ∀ e, e ∈ hashed.hashedAccounts.entries ↔ ∃ a account, w.account a = some account ∧
    e = ((keccak a.val).val, account.encodeForStorage false)
  storage : ∀ a account, w.account a = some account → account.incarnation ≠ 0 →
    StoresSlots keccak w hashed.hashedStorage a account.incarnation

section Roots

variable (hfree : w.CollisionFree keccak)
  (hinc : ∀ a account, w.account a = some account → account.incarnation = 0 →
    ∀ location, w.storage a 0 location = default)
  (h : HoldsState keccak w hashed)

include hfree hinc h

theorem accountStorage_cases {a : Address} {account : Account} (ha : w.account a = some account) :
    ∃ K, w.Slots a account.incarnation K ∧
      ((NodesPass keccak (slotLeaves keccak K) ∧ ∃ nodes,
          DbTrieLoader.accountStorage keccak hashed.hashedStorage (keccak a.val).val account =
            some (trieRoot keccak (slotLeaves keccak K), nodes)) ∨
        ¬NodesPass keccak (slotLeaves keccak K) ∧
          DbTrieLoader.accountStorage keccak hashed.hashedStorage (keccak a.val).val account =
            none) := by
  by_cases h0 : account.incarnation = 0
  · have hslots : w.Slots a account.incarnation [] := slots_nil (h0 ▸ hinc a account ha h0)
    refine ⟨[], hslots, .inl ⟨nodesPass_nil, [], ?_⟩⟩
    rw [DbTrieLoader.accountStorage, if_neg (not_not.mpr h0)]
    rfl
  · rw [DbTrieLoader.accountStorage, if_pos h0]
    exact loadStorage_cases hfree (h.storage a account ha h0)

omit hfree hinc h in
theorem map_fst_calculateRoot : (DbTrieLoader.calculateRoot keccak hashed).map Prod.fst =
    (((hashed.hashedAccounts.entries.foldlM (DbTrieLoader.loadAccount keccak hashed.hashedStorage)
      {}).map DbTrieLoader.hb).bind (rootHash keccak)).map Prod.fst := by
  rw [DbTrieLoader.calculateRoot]
  cases hashed.hashedAccounts.entries.foldlM (DbTrieLoader.loadAccount keccak hashed.hashedStorage)
    {} with
  | none => rfl
  | some loader =>
    simp only [Option.bind_eq_bind, Option.bind_some, Option.map_some]
    cases rootHash keccak loader.hb <;> rfl

omit hfree hinc h in
/-- Whether the tries pass does not depend on how they are listed. -/
theorem triesPass_of_listings {J : List (Address × Account)} {storageRoot : Address → Bytes32}
    (hJ : w.Accounts J)
    (hroots : ∀ a account, w.account a = some account →
      w.StorageRoot keccak a account.incarnation (storageRoot a))
    (hstorage : ∀ a account, w.account a = some account → ∃ K, w.Slots a account.incarnation K ∧
      NodesPass keccak (slotLeaves keccak K))
    (haccounts : NodesPass keccak (accountLeaves keccak storageRoot J)) : TriesPass keccak w := by
  constructor
  · intro a account K ha hK
    obtain ⟨K', hK', hpass⟩ := hstorage a account ha
    refine hpass.perm (List.Perm.map _ ((List.perm_ext_iff_of_nodup hK'.1 hK.1).mpr fun e => ?_))
    exact (hK'.2 e.1 e.2).trans (hK.2 e.1 e.2).symm
  · intro J' storageRoot' hJ' hroots'
    have hperm : J.Perm J' := (List.perm_ext_iff_of_nodup hJ.1 hJ'.1).mpr fun e =>
      (hJ.2 e.1 e.2).trans (hJ'.2 e.1 e.2).symm
    have hsame : accountLeaves keccak storageRoot' J' = accountLeaves keccak storageRoot J' := by
      apply List.map_congr_left
      intro e he
      have ha := (hJ'.2 e.1 e.2).mp he
      rw [(hroots' e.1 e.2 ha).unique (hroots e.1 e.2 ha)]
    rw [hsame]
    exact haccounts.perm (hperm.map _)

/-- The root that is computed is that of the state, or the loader fails because a trie does
not pass. -/
theorem calculateRoot_cases :
    (TriesPass keccak w ∧ ∃ root, (DbTrieLoader.calculateRoot keccak hashed).map Prod.fst = some root ∧
        w.StateRoot keccak root) ∨
      ¬TriesPass keccak w ∧ (DbTrieLoader.calculateRoot keccak hashed).map Prod.fst = none := by
  obtain ⟨J, hJ, hentries⟩ := exists_accounts hfree h.accounts
  have hroot (a : Address) : ∃ root, ∀ account, w.account a = some account →
      w.StorageRoot keccak a account.incarnation root := by
    cases ha : w.account a with
    | none => exact ⟨default, fun account h0 => by cases h0⟩
    | some account =>
      obtain ⟨K, hK, -⟩ := accountStorage_cases hfree hinc h ha
      refine ⟨trieRoot keccak (slotLeaves keccak K), fun account' h' => ?_⟩
      cases h'
      exact ⟨K, hK, rfl⟩
  choose storageRoot hroots using hroot
  rw [map_fst_calculateRoot, hentries]
  by_cases hs : ∀ e ∈ J, ∃ nodes, DbTrieLoader.accountStorage keccak hashed.hashedStorage
      (keccak e.1.val).val e.2 = some (storageRoot e.1, nodes)
  · rw [foldlM_loadAccount hs]
    have hlen : ∀ e ∈ accountLeaves keccak storageRoot J, e.1.length = kHashLength := by
      intro e he
      obtain ⟨x, -, rfl⟩ := List.mem_map.mp he
      exact (keccak x.1.val).property
    rcases collect_rootHash hlen (List.pairwise_map.mpr (pairwise_hashedKeys hentries)) with
      ⟨hpass, hb, hrun⟩ | ⟨hfail, hrun⟩
    · refine .inl ⟨triesPass_of_listings hJ hroots (fun a account ha => ?_) hpass, _, ?_, J,
        storageRoot, hJ, hroots, rfl⟩
      · obtain ⟨K, hK, ⟨hpass', -⟩ | ⟨-, hnone⟩⟩ := accountStorage_cases hfree hinc h ha
        · exact ⟨K, hK, hpass'⟩
        · obtain ⟨nodes, hsome⟩ := hs (a, account) ((hJ.2 a account).mpr ha)
          rw [hnone] at hsome
          cases hsome
      · rw [hrun]
        rfl
    · refine .inr ⟨fun ht => hfail (ht.accounts J storageRoot hJ hroots), ?_⟩
      rw [hrun]
      rfl
  · obtain ⟨e, he, hno⟩ : ∃ e ∈ J, ¬∃ nodes, DbTrieLoader.accountStorage keccak hashed.hashedStorage
        (keccak e.1.val).val e.2 = some (storageRoot e.1, nodes) := by
      simpa only [not_forall, exists_prop] using hs
    have ha := (hJ.2 e.1 e.2).mp he
    obtain ⟨K, hK, ⟨-, nodes, hsome⟩ | ⟨hfail, hnone⟩⟩ := accountStorage_cases hfree hinc h ha
    · refine absurd ⟨nodes, ?_⟩ hno
      rw [hsome, (hroots e.1 e.2 ha).unique ⟨K, hK, rfl⟩]
      rfl
    · refine .inr ⟨fun ht => hfail (ht.storage e.1 e.2 K ha hK), ?_⟩
      rw [foldlM_eq_none (List.mem_map.mpr ⟨e, he, rfl⟩) (loadAccount_eq_none hnone)]
      rfl

end Roots

end Accounts

/-- The loader, with its collectors, returns the root that the buffer in memory has for the same
accounts and slots exactly when all tries pass. -/
theorem calculateRoot_eq_stateRootHash_iff {keccak : Bytes → Bytes32} {b : MemoryBuffer}
    (hz : b.NoZeros) (hfree : b.world.CollisionFree keccak)
    (hinc : ∀ a account, b.world.account a = some account → account.incarnation = 0 →
      ∀ location, b.world.storage a 0 location = default)
    {hashed : HashedTables} (h : HoldsState keccak b.world hashed) :
    (DbTrieLoader.calculateRoot keccak hashed).map Prod.fst = stateRootHash keccak b ↔
      TriesPass keccak b.world := by
  obtain ⟨root, hrun, hroot⟩ := stateRootHash_eq hz hfree
  rw [hrun]
  rcases calculateRoot_cases hfree hinc h with ⟨hpass, root', hrun', hroot'⟩ | ⟨hfail, hrun'⟩
  · rw [hrun', hroot'.unique hroot]
    exact iff_of_true rfl hpass
  · rw [hrun']
    exact iff_of_false (by simp) hfail

section Examples

def lowAddress (n : UInt8) : Address := ⟨List.replicate 19 0 ++ [n], by simp⟩

/-- The hash function, at some addresses. -/
def lowAddressKeccak (bytes : Bytes) : Bytes32 :=
  if bytes = (lowAddress 0).val then addressHash
  else if bytes = (lowAddress 3).val then
    ⟨[0x5b, 0x70, 0xe8, 0x05, 0x38, 0xac, 0xda, 0xbd, 0x61, 0x37, 0x35, 0x3b, 0x0f, 0x9d, 0x8d, 0x14,
      0x9f, 0x4d, 0xba, 0x91, 0xe8, 0xbe, 0x2e, 0x79, 0x46, 0xe4, 0x09, 0xbf, 0xdb, 0xe6, 0x85, 0xb9],
      rfl⟩
  else if bytes = (lowAddress 5).val then
    ⟨[0x42, 0x1d, 0xf1, 0xfa, 0x25, 0x92, 0x21, 0xd0, 0x2a, 0xa4, 0x95, 0x6e, 0xb0, 0xd3, 0x5a, 0xce,
      0x31, 0x8c, 0xa2, 0x4c, 0x0a, 0x33, 0xa6, 0x4c, 0x1a, 0xf9, 0x6c, 0xf6, 0x7c, 0xf2, 0x45, 0xb6],
      rfl⟩
  else if bytes = (lowAddress 15).val then
    ⟨[0x42, 0xb4, 0x5d, 0xe6, 0x85, 0x3d, 0x40, 0x67, 0x83, 0xb6, 0xb5, 0x0c, 0x37, 0x8b, 0xfb, 0x61,
      0xd6, 0xce, 0x52, 0x71, 0xb3, 0xbf, 0x81, 0x3c, 0xc2, 0xb9, 0x59, 0x05, 0x5f, 0xc1, 0x2f, 0x98],
      rfl⟩
  else default

/-- Four accounts, in the order of their hashed addresses. -/
def lowAccounts : List (Address × Account) :=
  [5, 15, 0, 3].map fun n => (lowAddress n, { balance := 1 })

def lowBuffer : MemoryBuffer where
  accounts := lowAccounts.foldl (fun m e => m.set e.1 e.2) ∅

def lowTables : HashedTables where
  hashedAccounts := lowAccounts.foldl (fun t e =>
    t.put (lowAddressKeccak e.1.val).val (e.2.encodeForStorage false)) {}

theorem accounts_lowBuffer : lowBuffer.world.Accounts lowAccounts := by
  have hperm := HashMap.toList_foldl_set (l := lowAccounts) (by decide)
  have hlist := accounts_toList lowBuffer
  exact ⟨by decide, fun a account => hperm.mem_iff.symm.trans (hlist.2 a account)⟩

theorem storage_lowBuffer (a : Address) (i : Uint64) (location : Bytes32) :
    lowBuffer.world.storage a i location = default := rfl

theorem noZeros_lowBuffer : lowBuffer.NoZeros := fun a i location h => by cases h

theorem collisionFree_lowBuffer : lowBuffer.world.CollisionFree lowAddressKeccak := by
  constructor
  · intro a a' ha ha' heq
    obtain ⟨account, ha⟩ := Option.ne_none_iff_exists'.mp ha
    obtain ⟨account', ha'⟩ := Option.ne_none_iff_exists'.mp ha'
    have hinj : ∀ x ∈ lowAccounts, ∀ y ∈ lowAccounts,
        lowAddressKeccak x.1.val = lowAddressKeccak y.1.val → x.1 = y.1 := by decide
    exact hinj _ ((accounts_lowBuffer.2 a account).mpr ha) _
      ((accounts_lowBuffer.2 a' account').mpr ha') heq
  · intro a i l l' h
    exact absurd (storage_lowBuffer a i l) h

theorem holdsState_lowTables : HoldsState lowAddressKeccak lowBuffer.world lowTables := by
  have hentries : lowTables.hashedAccounts.entries = lowAccounts.map fun e =>
      ((lowAddressKeccak e.1.val).val, e.2.encodeForStorage false) := by decide
  constructor
  · intro e
    rw [hentries, List.mem_map]
    constructor
    · rintro ⟨x, hx, rfl⟩
      exact ⟨x.1, x.2, (accounts_lowBuffer.2 x.1 x.2).mp hx, rfl⟩
    · rintro ⟨a, account, ha, rfl⟩
      exact ⟨(a, account), (accounts_lowBuffer.2 a account).mpr ha, rfl⟩
  · intro a account ha hinc
    have hnone : ∀ x ∈ lowAccounts, x.2.incarnation = 0 := by decide
    exact absurd (hnone _ ((accounts_lowBuffer.2 a account).mpr ha)) hinc

/-- Four accounts without storage. -/
theorem calculateRoot_eq_stateRootHash_iff_low :
    (DbTrieLoader.calculateRoot lowAddressKeccak lowTables).map Prod.fst =
        stateRootHash lowAddressKeccak lowBuffer ↔
      TriesPass lowAddressKeccak lowBuffer.world :=
  calculateRoot_eq_stateRootHash_iff noZeros_lowBuffer collisionFree_lowBuffer
    (fun a _ _ _ location => storage_lowBuffer a 0 location) holdsState_lowTables

/-- The branch below nibbles 4 and 2 lingers when the one below nibble 5 is finished, which has
no child at 2. -/
theorem not_triesPass_lowBuffer : ¬TriesPass lowAddressKeccak lowBuffer.world := by
  intro h
  have hstorage : ∀ a account, lowBuffer.world.account a = some account →
      lowBuffer.world.StorageRoot lowAddressKeccak a account.incarnation kEmptyRoot :=
    fun a account _ => storageRoot_empty (storage_lowBuffer a account.incarnation)
  have hpass := h.accounts lowAccounts (fun _ => kEmptyRoot) accounts_lowBuffer hstorage
  rw [NodesPass] at hpass
  generalize hleaves : (accountLeaves lowAddressKeccak (fun _ => kEmptyRoot) lowAccounts).map toEntry =
    leaves at hpass
  have hlevel : ∀ x : Nibble, IsBranch leaves [x] → x = 5 := by
    rw [← hleaves]
    decide
  have hlingers : Lingers leaves [5] 2 := by
    have hbranch : IsBranch leaves [4, 2] := by
      rw [← hleaves]
      decide
    refine ⟨[4, 2], ⟨hbranch, .inl ⟨[], 4, 5, [2], [], rfl, rfl, by decide⟩⟩, rfl, rfl, ?_⟩
    rintro r ⟨hr, hprec⟩ hlen
    match r with
    | [] => rcases hprec with ⟨p, x, y, u, v, hp, -, -⟩ | ⟨hpre, -⟩ <;> simp_all
    | [x] =>
      rw [hlevel x hr] at hprec
      exact absurd hprec (Precedes.irrefl _)
    | x :: y :: r => simp at hlen
  have hnone : EntriesUnderPrefix.under leaves ([5] ++ [2]) = [] := by
    rw [← hleaves]
    decide
  have hroot : IsBranch leaves [5] := by
    rw [← hleaves]
    decide
  exact (hpass [5] hroot 2 hlingers).1 hnone

theorem calculateRoot_ne_stateRootHash_low :
    lowBuffer.NoZeros ∧ lowBuffer.world.CollisionFree lowAddressKeccak ∧
    (∀ a account, lowBuffer.world.account a = some account → account.incarnation = 0 →
      ∀ location, lowBuffer.world.storage a 0 location = default) ∧
    HoldsState lowAddressKeccak lowBuffer.world lowTables ∧
    (DbTrieLoader.calculateRoot lowAddressKeccak lowTables).map Prod.fst ≠
      stateRootHash lowAddressKeccak lowBuffer := by
  have hinc : ∀ a account, lowBuffer.world.account a = some account → account.incarnation = 0 →
      ∀ location, lowBuffer.world.storage a 0 location = default := fun a _ _ _ location =>
    storage_lowBuffer a 0 location
  refine ⟨noZeros_lowBuffer, collisionFree_lowBuffer, hinc, holdsState_lowTables, ?_⟩
  rcases calculateRoot_cases collisionFree_lowBuffer hinc holdsState_lowTables with ⟨hpass, -⟩ | ⟨-, hnone⟩
  · exact absurd hpass not_triesPass_lowBuffer
  · obtain ⟨root, hroot⟩ := exists_stateRootHash lowAddressKeccak lowBuffer
    rw [hnone, hroot]
    simp

end Examples

end Silkworm.Db
