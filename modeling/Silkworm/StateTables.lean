import Silkworm.DbBufferUpdates

/-!
# The state in its table

The table of the state holds the accounts and the slots of a world and nothing else. The
flush of a buffer turns the world of the table into the one that is seen through the buffer.
-/

namespace Silkworm.Db
open SortedTables MemoryBuffer

section Tables

def accountEntry (a : Address) (account : Account) : Entry :=
  (a.val, account.encodeForStorage false)

def slotEntry (a : Address) (incarnation : Uint64) (location value : Bytes32) : Entry :=
  (storagePrefix a.val incarnation, location.val ++ zerolessView value)

/-- A table with the accounts and the slots of a world and nothing else. -/
def Stores (w : World) (t : Table) : Prop :=
  ∀ e, e ∈ t.entries ↔
    (∃ a account, w.account a = some account ∧ e = accountEntry a account) ∨
    ∃ a i location, w.storage a i location ≠ default ∧
      e = slotEntry a i location (w.storage a i location)

/-- The world of empty tables. -/
def noWorld : World := ⟨fun _ => none, fun _ _ _ => default⟩

theorem stores_empty : Stores noWorld {} := by
  intro e
  refine ⟨fun h => absurd h List.not_mem_nil, ?_⟩
  rintro (⟨a, account, h, -⟩ | ⟨a, i, location, h, -⟩)
  · cases h
  · exact absurd rfl h

variable {w : World} {t : Table}

theorem Stores.account_mem (h : Stores w t) {a : Address} {v : Bytes} :
    (a.val, v) ∈ t.entries ↔
      ∃ account, w.account a = some account ∧ v = account.encodeForStorage false := by
  rw [h]
  constructor
  · rintro (⟨a', account, ha, he⟩ | ⟨a', i, location, -, he⟩)
    · obtain ⟨hkey, hv⟩ := Prod.mk.inj he
      cases Subtype.ext hkey
      exact ⟨account, ha, hv⟩
    · exact absurd (Prod.mk.inj he).1 (address_ne_storagePrefix a a' i)
  · rintro ⟨account, ha, rfl⟩
    exact .inl ⟨a, account, ha, rfl⟩

theorem Stores.slot_mem (h : Stores w t) {a : Address} {i : Uint64} {location : Bytes32}
    {v : Bytes} :
    (storagePrefix a.val i, location.val ++ v) ∈ t.entries ↔
      w.storage a i location ≠ default ∧ v = zerolessView (w.storage a i location) := by
  rw [h]
  constructor
  · rintro (⟨a', account, ha, he⟩ | ⟨a', i', location', hne, he⟩)
    · exact absurd (Prod.mk.inj he).1.symm (address_ne_storagePrefix a' a i)
    · obtain ⟨hkey, hv⟩ := Prod.mk.inj he
      obtain ⟨rfl, rfl⟩ := storagePrefix_injective hkey
      obtain ⟨hl, hv⟩ := List.append_inj hv (location.property.trans location'.property.symm)
      cases Subtype.ext hl
      exact ⟨hne, hv⟩
  · rintro ⟨hne, rfl⟩
    exact .inr ⟨a, i, location, hne, rfl⟩

theorem Stores.account_unique (h : Stores w t) (a : Address) (v v' : Bytes)
    (hv : (a.val, v) ∈ t.entries) (hv' : (a.val, v') ∈ t.entries) : v = v' := by
  obtain ⟨account, ha, rfl⟩ := h.account_mem.mp hv
  obtain ⟨account', ha', rfl⟩ := h.account_mem.mp hv'
  rw [Option.some.inj (ha.symm.trans ha')]

theorem Stores.slot_unique (h : Stores w t) (a : Address) (i : Uint64) (location : Bytes32)
    (v v' : Bytes) (hv : (storagePrefix a.val i, location.val ++ v) ∈ t.entries)
    (hv' : (storagePrefix a.val i, location.val ++ v') ∈ t.entries) : v = v' :=
  (h.slot_mem.mp hv).2.trans (h.slot_mem.mp hv').2.symm

end Tables

section Reads

variable {w : World} {t : Table}

theorem Stores.get (h : Stores w t) (a : Address) :
    t.get a.val = (w.account a).map fun account => account.encodeForStorage false := by
  ext v
  rw [t.get_eq_some_iff (h.account_unique a), h.account_mem, Option.map_eq_some_iff]
  simp only [eq_comm]

theorem Stores.getSuffix (h : Stores w t) (a : Address) (i : Uint64) (location : Bytes32) :
    t.getSuffix (storagePrefix a.val i) location.val =
      if w.storage a i location = default then none
      else some (zerolessView (w.storage a i location)) := by
  ext v
  rw [t.getSuffix_eq_some_iff (h.slot_unique a i location), h.slot_mem]
  split_ifs with hz
  · simp [hz]
  · simp [hz, eq_comm]

/-- A word is restored from the bytes after its leading zeros. -/
theorem padded_zerolessView (b : Bytes32) :
    List.replicate (kHashLength - (zerolessView b).length) 0 ++ zerolessView b = b.val := by
  have hsplit : b.val.takeWhile (· = 0) ++ zerolessView b = b.val := List.takeWhile_append_dropWhile
  have hzeros : b.val.takeWhile (· = 0) =
      List.replicate (b.val.takeWhile (· = 0)).length 0 := by
    refine List.eq_replicate_of_mem fun x hx => ?_
    simpa using List.mem_takeWhile_imp hx
  have hlen : (b.val.takeWhile (· = 0)).length = kHashLength - (zerolessView b).length := by
    have := congrArg List.length hsplit
    rw [List.length_append, b.property] at this
    omega
  rw [← hlen, ← hzeros, hsplit]

theorem length_zerolessView_le (b : Bytes32) : (zerolessView b).length ≤ kHashLength :=
  (List.length_dropWhile_le _ _).trans_eq b.property

variable {tables : Tables}

theorem Stores.readStorage (h : Stores w tables.plainState) (a : Address) (i : Uint64)
    (location : Bytes32) : readStorage tables a i location = some (w.storage a i location) := by
  rw [Db.readStorage, h.getSuffix]
  split_ifs with hz
  · rw [hz]
  · dsimp only
    rw [dif_pos (length_zerolessView_le _)]
    exact congrArg some (Subtype.ext (padded_zerolessView _))

theorem Stores.readAccount (h : Stores w tables.plainState) (a : Address) :
    readAccount tables a = some ((w.account a).map (restoreCodeHash tables a)) := by
  rw [Db.readAccount, h.get]
  cases w.account a with
  | none => rfl
  | some account =>
    obtain ⟨r, hr⟩ := decodeAccountFromStorage_encodeForStorage account false
    have hcons : ∃ b bs, account.encodeForStorage false = b :: bs := ⟨_, _, rfl⟩
    obtain ⟨b, bs, hb⟩ := hcons
    rw [hb] at hr
    rw [Option.map_some, Option.map_some, hb]
    dsimp only
    rw [hr]
    rfl

end Reads

section Writes

variable {w : World} {t : Table}

theorem Stores.del (h : Stores w t) (a : Address) (initial : Option Account) :
    Stores ((Update.account a initial none).onWorld w) (t.del a.val) := by
  intro e
  rw [t.mem_del (h.account_unique a), h]
  constructor
  · rintro ⟨⟨a', account, ha, rfl⟩ | hslot, hne⟩
    · refine .inl ⟨a', account, ?_, rfl⟩
      exact (if_neg fun heq => hne (congrArg Subtype.val heq)).trans ha
    · exact .inr hslot
  · rintro (⟨a', account, ha, rfl⟩ | ⟨a', i, location, hz, rfl⟩)
    · simp only [Update.onWorld] at ha
      split_ifs at ha with heq
      exact ⟨.inl ⟨a', account, ha, rfl⟩, fun hkey => heq (Subtype.ext hkey)⟩
    · exact ⟨.inr ⟨a', i, location, hz, rfl⟩, (address_ne_storagePrefix a a' i).symm⟩

theorem Stores.putAccount (h : Stores w t) {a : Address} (ha : w.account a = none)
    (initial : Option Account) (account : Account) :
    Stores ((Update.account a initial (some account)).onWorld w)
      (t.putDup a.val (account.encodeForStorage false)) := by
  intro e
  rw [Table.mem_putDup, h]
  constructor
  · rintro (rfl | ⟨a', account', ha', rfl⟩ | hslot)
    · exact .inl ⟨a, account, if_pos rfl, rfl⟩
    · refine .inl ⟨a', account', ?_, rfl⟩
      refine (if_neg fun heq => ?_).trans ha'
      rw [heq, ha] at ha'
      cases ha'
    · exact .inr hslot
  · rintro (⟨a', account', ha', rfl⟩ | hslot)
    · simp only [Update.onWorld] at ha'
      split_ifs at ha' with heq
      · cases ha'
        cases heq
        exact .inl rfl
      · exact .inr (.inl ⟨a', account', ha', rfl⟩)
    · exact .inr (.inr hslot)

theorem Stores.delSuffix (h : Stores w t) (a : Address) (i : Uint64) (location initial : Bytes32) :
    Stores ((Update.storage a i location initial default).onWorld w)
      (t.delSuffix (storagePrefix a.val i) location.val) := by
  intro e
  rw [t.mem_delSuffix (h.slot_unique a i location), h]
  constructor
  · rintro ⟨haccount | ⟨a', i', location', hz, rfl⟩, hne⟩
    · exact .inl haccount
    · have hk : ¬(a', i', location') = (a, i, location) := by
        rintro ⟨⟩
        exact hne ⟨rfl, List.prefix_append _ _⟩
      have hread : World.storage ((Update.storage a i location initial default).onWorld w)
          a' i' location' = w.storage a' i' location' := if_neg hk
      refine .inr ⟨a', i', location', ?_, ?_⟩
      · rw [hread]
        exact hz
      · rw [hread]
  · rintro (⟨a', account, ha, rfl⟩ | ⟨a', i', location', hz, rfl⟩)
    · exact ⟨.inl ⟨a', account, ha, rfl⟩, fun hk => address_ne_storagePrefix a' a i hk.1⟩
    · simp only [Update.onWorld] at hz ⊢
      split_ifs at hz ⊢ with hk
      · exact absurd rfl hz
      · refine ⟨.inr ⟨a', i', location', hz, rfl⟩, ?_⟩
        rintro ⟨hkey, hp⟩
        obtain ⟨rfl, rfl⟩ := storagePrefix_injective hkey
        have hl := List.prefix_of_prefix_length_le hp (List.prefix_append location'.val _)
          (location.property.trans location'.property.symm).le
        have := hl.eq_of_length (location.property.trans location'.property.symm)
        exact hk (by rw [Subtype.ext this])

theorem Stores.putSlot (h : Stores w t) {a : Address} {i : Uint64} {location : Bytes32}
    (hs : w.storage a i location = default) (initial : Bytes32) {value : Bytes32}
    (hv : value ≠ default) :
    Stores ((Update.storage a i location initial value).onWorld w)
      (t.putDup (storagePrefix a.val i) (location.val ++ zerolessView value)) := by
  intro e
  rw [Table.mem_putDup, h]
  have hself : World.storage ((Update.storage a i location initial value).onWorld w)
      a i location = value := if_pos rfl
  constructor
  · rintro (rfl | haccount | ⟨a', i', location', hz, rfl⟩)
    · refine .inr ⟨a, i, location, ?_, ?_⟩
      · rw [hself]
        exact hv
      · rw [hself]
        rfl
    · exact .inl haccount
    · have hk : ¬(a', i', location') = (a, i, location) := by
        rintro ⟨⟩
        exact hz hs
      have hread : World.storage ((Update.storage a i location initial value).onWorld w)
          a' i' location' = w.storage a' i' location' := if_neg hk
      refine .inr ⟨a', i', location', ?_, ?_⟩
      · rw [hread]
        exact hz
      · rw [hread]
  · rintro (haccount | ⟨a', i', location', hz, rfl⟩)
    · exact .inr (.inl haccount)
    · by_cases hk : (a', i', location') = (a, i, location)
      · cases hk
        rw [hself]
        exact .inl rfl
      · have hread : World.storage ((Update.storage a i location initial value).onWorld w)
            a' i' location' = w.storage a' i' location' := if_neg hk
        rw [hread] at hz ⊢
        exact .inr (.inr ⟨a', i', location', hz, rfl⟩)

/-- The effect of an update on the table. -/
def onTable (t : Table) : Update → Table
  | .account a _ none => t.del a.val
  | .account a _ (some account) => (t.del a.val).putDup a.val (account.encodeForStorage false)
  | .code .. => t
  | .storage a incarnation location _ current =>
    Buffer.upsertStorageValue t (storagePrefix a.val incarnation) location current

theorem account_foldl_of_not_mem {us : List Update} {a : Address}
    (h : ∀ initial current, .account a initial current ∉ us) (w : World) :
    (us.foldl Update.onWorld w).account a = w.account a := by
  induction us generalizing w with
  | nil => rfl
  | cons u us ih =>
    refine (ih (fun initial current hm => h _ _ (List.mem_cons_of_mem _ hm)) _).trans ?_
    cases u with
    | account a' initial current =>
      refine if_neg fun ha => h initial current ?_
      rw [ha]
      exact List.mem_cons_self
    | code => rfl
    | storage => rfl

/-- Updates of an account that agree on its value. -/
theorem account_foldl_of_mem {us : List Update} {a : Address} {x : Option Account}
    (h : ∀ initial current, .account a initial current ∈ us → current = x)
    (hm : ∃ initial current, .account a initial current ∈ us) (w : World) :
    (us.foldl Update.onWorld w).account a = x := by
  induction us generalizing w with
  | nil =>
    obtain ⟨initial, current, hm⟩ := hm
    cases hm
  | cons u us ih =>
    by_cases hin : ∃ initial current, .account a initial current ∈ us
    · exact ih (fun initial current hm => h _ _ (List.mem_cons_of_mem _ hm)) hin _
    · refine (account_foldl_of_not_mem (fun initial current hm => hin ⟨_, _, hm⟩) _).trans ?_
      obtain ⟨initial, current, hm⟩ := hm
      rcases List.mem_cons.mp hm with rfl | hm
      · exact (if_pos rfl).trans (h _ _ List.mem_cons_self)
      · exact absurd ⟨_, _, hm⟩ hin

theorem storage_foldl_of_not_mem {us : List Update} {a : Address} {i : Uint64} {location : Bytes32}
    (h : ∀ initial current, .storage a i location initial current ∉ us) (w : World) :
    (us.foldl Update.onWorld w).storage a i location = w.storage a i location := by
  induction us generalizing w with
  | nil => rfl
  | cons u us ih =>
    refine (ih (fun initial current hm => h _ _ (List.mem_cons_of_mem _ hm)) _).trans ?_
    cases u with
    | account => rfl
    | code => rfl
    | storage a' i' location' initial current =>
      refine if_neg fun hk => h initial current ?_
      cases hk
      exact List.mem_cons_self

/-- Updates of a slot that agree on its value. -/
theorem storage_foldl_of_mem {us : List Update} {a : Address} {i : Uint64} {location x : Bytes32}
    (h : ∀ initial current, .storage a i location initial current ∈ us → current = x)
    (hm : ∃ initial current, .storage a i location initial current ∈ us) (w : World) :
    (us.foldl Update.onWorld w).storage a i location = x := by
  induction us generalizing w with
  | nil =>
    obtain ⟨initial, current, hm⟩ := hm
    cases hm
  | cons u us ih =>
    by_cases hin : ∃ initial current, .storage a i location initial current ∈ us
    · exact ih (fun initial current hm => h _ _ (List.mem_cons_of_mem _ hm)) hin _
    · refine (storage_foldl_of_not_mem (fun initial current hm => hin ⟨_, _, hm⟩) _).trans ?_
      obtain ⟨initial, current, hm⟩ := hm
      rcases List.mem_cons.mp hm with rfl | hm
      · exact (if_pos rfl).trans (h _ _ List.mem_cons_self)
      · exact absurd ⟨_, _, hm⟩ hin

/-- The second of two updates of one account is the one that stays. -/
theorem onWorld_account_twice (w : World) (a : Address) (initial initial' current : Option Account) :
    Update.onWorld (Update.onWorld w (.account a initial none)) (.account a initial' current) =
      Update.onWorld w (.account a initial' current) := by
  ext1
  · funext a'
    simp only [Update.onWorld]
    split_ifs <;> rfl
  · rfl

theorem onWorld_storage_twice (w : World) (a : Address) (i : Uint64)
    (location initial initial' current : Bytes32) :
    Update.onWorld (Update.onWorld w (.storage a i location initial default))
        (.storage a i location initial' current) =
      Update.onWorld w (.storage a i location initial' current) := by
  ext1
  · rfl
  · funext a' i' location'
    simp only [Update.onWorld]
    split_ifs <;> rfl

theorem Stores.onTable (h : Stores w t) (u : Update) : Stores (u.onWorld w) (onTable t u) := by
  cases u with
  | account a initial current =>
    cases current with
    | none => exact h.del a initial
    | some account =>
      have hput := (h.del a initial).putAccount (if_pos rfl) initial account
      rwa [onWorld_account_twice] at hput
  | code => exact h
  | storage a i location initial current =>
    rw [Db.onTable, Buffer.upsertStorageValue]
    split_ifs with hz
    · have hdel := h.delSuffix a i location initial
      rwa [show current = default from of_decide_eq_true hz]
    · have hne : current ≠ default := fun hd => hz (decide_eq_true hd)
      have hput := (h.delSuffix a i location initial).putSlot (if_pos rfl) initial hne
      rwa [onWorld_storage_twice] at hput

theorem Stores.foldl (h : Stores w t) (us : List Update) :
    Stores (us.foldl Update.onWorld w) (us.foldl Db.onTable t) := by
  induction us generalizing w t with
  | nil => exact h
  | cons u us ih => exact ih (h.onTable u)

end Writes

namespace Buffer

variable (b : Buffer)

/-- The world that is seen through the maps of a buffer. -/
def overlay (w : World) : World where
  account a := (b.maps.accounts.find a).getD (w.account a)
  storage a i location := (b.maps.storage.find a i location).getD (w.storage a i location)

section Keys

theorem mem_sortedKeys {n : ℕ} {V : Type} {m : HashMap (FixedBytes n) V} {k : FixedBytes n} :
    k ∈ sortedKeys m ↔ ∃ v, m.find k = some v := by
  rw [sortedKeys, List.mem_mergeSort, List.mem_map]
  constructor
  · rintro ⟨⟨k', v⟩, he, rfl⟩
    exact ⟨v, HashMap.mem_toList.mp he⟩
  · rintro ⟨v, hv⟩
    exact ⟨(k, v), HashMap.mem_toList.mpr hv, rfl⟩

private theorem find_foldl_keys {K V : Type} [DecidableEq K] (m : HashMap K V) (s : HashSet K)
    (k : K) :
    HashMap.find (m.toList.foldl (fun m e => m.set e.1 ()) s) k ≠ none ↔
      m.find k ≠ none ∨ HashMap.find s k ≠ none := by
  rw [HashMap.read_foldl_toList HashMap.find (fun _ _ _ => some ())
    fun x k v k' => HashMap.find_set x k k' ()]
  cases m.find k <;> simp

theorem mem_changedAddresses {a : Address} :
    a ∈ b.changedAddresses ↔ HashMap.find b.storage a ≠ none ∨ b.accounts.find a ≠ none := by
  rw [changedAddresses, mem_sortedKeys, ← Option.ne_none_iff_exists', find_foldl_keys,
    find_foldl_keys, HashMap.find_empty]
  simp

end Keys

section Writes

def accountWrites (a : Address) : List Update :=
  match b.accounts.find a with
  | none => []
  | some current => [.account a none current]

def slotWrites (a : Address) : List Update :=
  ((b.storage.findD a ∅).toList.mergeSort fun x y => x.1.toNat ≤ y.1.toNat).flatMap fun contract =>
    (sortedKeys contract.2).map fun location =>
      .storage a contract.1 location default (contract.2.findD location default)

/-- What is written to the table of the state, in its order. -/
def stateWrites : List Update :=
  b.changedAddresses.flatMap fun a => b.accountWrites a ++ b.slotWrites a

theorem writeToStateTable_eq (t : Table) :
    b.writeToStateTable t = b.stateWrites.foldl onTable t := by
  rw [writeToStateTable, stateWrites, List.foldl_flatMap]
  congr 1
  funext t a
  have haccount : b.writeAccount a t = (b.accountWrites a).foldl onTable t := by
    rw [writeAccount, accountWrites]
    rcases b.accounts.find a with - | - | account <;> rfl
  rw [List.foldl_append, ← haccount, writeContracts, slotWrites, List.foldl_flatMap]
  congr 1
  funext t contract
  rw [List.foldl_map]
  rfl

theorem account_mem_stateWrites {a : Address} {initial current : Option Account} :
    .account a initial current ∈ b.stateWrites ↔
      initial = none ∧ b.accounts.find a = some current := by
  rw [stateWrites, List.mem_flatMap]
  constructor
  · rintro ⟨a', -, hu⟩
    rcases List.mem_append.mp hu with hu | hu
    · rw [accountWrites] at hu
      cases hf : b.accounts.find a' with
      | none =>
        rw [hf] at hu
        cases hu
      | some x =>
        rw [hf] at hu
        cases List.mem_singleton.mp hu
        exact ⟨rfl, hf⟩
    · simp [slotWrites] at hu
  · rintro ⟨rfl, hf⟩
    refine ⟨a, b.mem_changedAddresses.mpr (.inr (by simp [hf])), List.mem_append_left _ ?_⟩
    rw [accountWrites, hf]
    exact List.mem_singleton_self _

theorem storage_mem_slotWrites {a a' : Address} {i : Uint64} {location initial current : Bytes32} :
    .storage a i location initial current ∈ b.slotWrites a' ↔
      a = a' ∧ initial = default ∧ b.storage.find a i location = some current := by
  simp only [slotWrites, List.mem_flatMap, List.mem_mergeSort, List.mem_map, mem_sortedKeys,
    Update.storage.injEq]
  constructor
  · rintro ⟨⟨i', slots⟩, hc, location', ⟨v, hv⟩, rfl, rfl, rfl, rfl, rfl⟩
    refine ⟨rfl, rfl, ?_⟩
    rw [StorageMap.find, StorageMap.locations, HashMap.findD, HashMap.mem_toList.mp hc]
    exact hv.trans (congrArg some (by rw [HashMap.findD, hv]; rfl))
  · rintro ⟨rfl, rfl, hf⟩
    rw [StorageMap.find, StorageMap.locations, HashMap.findD] at hf
    cases hc : HashMap.find (HashMap.findD b.storage a ∅) i with
    | none =>
      rw [hc] at hf
      cases hf
    | some slots =>
      rw [hc] at hf
      refine ⟨(i, slots), HashMap.mem_toList.mpr hc, location, ⟨current, hf⟩, rfl, rfl, rfl, rfl, ?_⟩
      rw [HashMap.findD, show slots.find location = some current from hf]
      rfl

theorem storage_mem_stateWrites {a : Address} {i : Uint64} {location initial current : Bytes32} :
    .storage a i location initial current ∈ b.stateWrites ↔
      initial = default ∧ b.storage.find a i location = some current := by
  rw [stateWrites, List.mem_flatMap]
  constructor
  · rintro ⟨a', -, hu⟩
    rcases List.mem_append.mp hu with hu | hu
    · rw [accountWrites] at hu
      cases hf : b.accounts.find a' with
      | none =>
        rw [hf] at hu
        cases hu
      | some x =>
        rw [hf] at hu
        cases List.mem_singleton.mp hu
    · exact (b.storage_mem_slotWrites.mp hu).2
  · rintro ⟨rfl, hf⟩
    have hstorage : HashMap.find b.storage a ≠ none := by
      intro hnone
      rw [StorageMap.find, StorageMap.locations, HashMap.findD, HashMap.findD, hnone] at hf
      cases hf
    exact ⟨a, b.mem_changedAddresses.mpr (.inl hstorage),
      List.mem_append_right _ (b.storage_mem_slotWrites.mpr ⟨rfl, rfl, hf⟩)⟩

theorem foldl_stateWrites (w : World) : b.stateWrites.foldl Update.onWorld w = b.overlay w := by
  ext1
  · funext a
    change _ = (b.maps.accounts.find a).getD (w.account a)
    cases hf : b.maps.accounts.find a with
    | none =>
      refine account_foldl_of_not_mem (fun initial current hm => ?_) w
      cases hf.symm.trans (b.account_mem_stateWrites.mp hm).2
    | some x =>
      refine account_foldl_of_mem (fun initial current hm => ?_) ?_ w
      · exact Option.some.inj ((b.account_mem_stateWrites.mp hm).2.symm.trans hf)
      · exact ⟨none, x, b.account_mem_stateWrites.mpr ⟨rfl, hf⟩⟩
  · funext a i location
    change _ = (b.maps.storage.find a i location).getD (w.storage a i location)
    cases hf : b.maps.storage.find a i location with
    | none =>
      refine storage_foldl_of_not_mem (fun initial current hm => ?_) w
      cases hf.symm.trans (b.storage_mem_stateWrites.mp hm).2
    | some x =>
      refine storage_foldl_of_mem (fun initial current hm => ?_) ?_ w
      · exact Option.some.inj ((b.storage_mem_stateWrites.mp hm).2.symm.trans hf)
      · exact ⟨default, x, b.storage_mem_stateWrites.mpr ⟨rfl, hf⟩⟩

/-- After the flush the table holds what was seen through the buffer. -/
theorem stores_writeToStateTable {w : World} {t : Table} (h : Stores w t) :
    Stores (b.overlay w) (b.writeToStateTable t) := by
  rw [b.writeToStateTable_eq, ← b.foldl_stateWrites]
  exact h.foldl b.stateWrites

end Writes

end Buffer

end Silkworm.Db
