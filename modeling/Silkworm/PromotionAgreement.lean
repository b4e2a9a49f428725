import Silkworm.IncrementalPromotion
import Silkworm.PromotedRoots

/-!
# When the incremental promotion agrees with the clean one

The tables are the same as after a promotion from scratch as long as no account was removed, no
slot was changed, and every new code hash belongs to a contract that is still there.
-/

namespace Silkworm.Db
open SortedTables MemoryBuffer

section Agreement

variable {keccak : Bytes → Bytes32} {w w' : World} {start final : Tables} {addresses : List Address}

theorem accountPut_eq_some {a : Address} {e : Entry} :
    accountPut keccak w a = some e ↔ ∃ account, w.account a = some account ∧
      e = ((keccak a.val).val, account.encodeForStorage false) := by
  rw [accountPut, Option.map_eq_some_iff]
  simp only [eq_comm]

theorem codePut_eq_some {a : Address} {e : Entry} :
    codePut keccak w final a = some e ↔ ∃ account v, w.account a = some account ∧
      account.incarnation ≠ 0 ∧
      final.plainContractCode.get (storagePrefix a.val account.incarnation) = some v ∧
      e = (storagePrefix (keccak a.val).val account.incarnation, v) := by
  rw [codePut, Option.bind_eq_some_iff]
  constructor
  · rintro ⟨account, ha, he⟩
    split_ifs at he with h0
    obtain ⟨v, hv, rfl⟩ := Option.map_eq_some_iff.mp he
    exact ⟨account, v, ha, h0, hv, rfl⟩
  · rintro ⟨account, v, ha, h0, hv, rfl⟩
    refine ⟨account, ha, ?_⟩
    rw [if_neg h0, hv]
    rfl

/-- The entries of removed accounts stay in the table. -/
theorem accounts_agree_iff {t t' : PlainTable}
    (hold : ∀ e, e ∈ t.entries ↔ ∃ a, accountPut keccak w a = some e)
    (hnew : ∀ e, e ∈ t'.entries ↔ ∃ a, accountPut keccak w' a = some e)
    (hsame : ∀ a ∉ addresses, accountPut keccak w a = accountPut keccak w' a)
    (hinj : ∀ {a a' : Address}, w.account a ≠ none ∨ w'.account a ≠ none → w'.account a' ≠ none →
      keccak a.val = keccak a'.val → a = a') :
    addresses.foldl (fun t a => putSome t (accountPut keccak w' a)) t = t' ↔
      ∀ a, w'.account a = none → w.account a = none := by
  have hput : ∀ a a' k v v', accountPut keccak w' a = some (k, v) →
      accountPut keccak w' a' = some (k, v') → v = v' := by
    intro a a' k v v' h h'
    obtain ⟨account, ha, he⟩ := accountPut_eq_some.mp h
    obtain ⟨account', ha', he'⟩ := accountPut_eq_some.mp h'
    obtain ⟨rfl, rfl⟩ := Prod.mk.inj he
    obtain ⟨hk, rfl⟩ := Prod.mk.inj he'
    cases hinj (.inr (by simp [ha])) (by simp [ha']) (Subtype.ext hk)
    rw [Option.some.inj (ha.symm.trans ha')]
  have hget (k v : Bytes) := get_foldl_putSome hput addresses t (k := k) (v := v)
  constructor
  · rintro rfl a hnone
    by_contra hsome
    obtain ⟨account, ha⟩ := Option.ne_none_iff_exists'.mp hsome
    have hmem := (hold _).mpr ⟨a, accountPut_eq_some.mpr ⟨account, ha, rfl⟩⟩
    -- the key of the account is there before and is not removed
    have hkey : ∃ v, (addresses.foldl (fun t a => putSome t (accountPut keccak w' a)) t).get
        (keccak a.val).val = some v := by
      by_cases hex : ∃ a' ∈ addresses, ∃ v, accountPut keccak w' a' = some ((keccak a.val).val, v)
      · obtain ⟨a', ha', v, hv⟩ := hex
        exact ⟨v, (hget _ _).mpr (.inl ⟨a', ha', hv⟩)⟩
      · push Not at hex
        exact ⟨_, (hget _ _).mpr (.inr ⟨hex, PlainTable.get_eq_some.mpr hmem⟩)⟩
    obtain ⟨v, hv⟩ := hkey
    obtain ⟨a', hput'⟩ := (hnew _).mp (PlainTable.get_eq_some.mp hv)
    obtain ⟨account', ha', he⟩ := accountPut_eq_some.mp hput'
    cases hinj (.inl hsome) (by simp [ha']) (Subtype.ext (Prod.mk.inj he).1)
    rw [hnone] at ha'
    cases ha'
  · intro hkeep
    refine PlainTable.ext_of_get fun k => Option.ext fun v => ?_
    rw [hget, PlainTable.get_eq_some, PlainTable.get_eq_some, hnew, hold]
    constructor
    · rintro (⟨a, -, h⟩ | ⟨hno, a, h⟩)
      · exact ⟨a, h⟩
      · refine ⟨a, ?_⟩
        rw [← hsame a fun hm => ?_]
        · exact h
        · obtain ⟨account, ha, he⟩ := accountPut_eq_some.mp h
          have hsome : w'.account a ≠ none := fun hnone => by
            rw [hkeep a hnone] at ha
            cases ha
          obtain ⟨account', ha'⟩ := Option.ne_none_iff_exists'.mp hsome
          refine hno a hm (account'.encodeForStorage false) (accountPut_eq_some.mpr ⟨account', ha', ?_⟩)
          rw [(Prod.mk.inj he).1]
    · rintro ⟨a, h⟩
      by_cases hm : a ∈ addresses
      · exact .inl ⟨a, hm, h⟩
      · obtain ⟨account, ha, he⟩ := accountPut_eq_some.mp h
        refine .inr ⟨fun a' hm' v' h' => ?_, a, (hsame a hm).trans h⟩
        obtain ⟨account', ha', he'⟩ := accountPut_eq_some.mp h'
        have hk := (Prod.mk.inj he).1.symm.trans (Prod.mk.inj he').1
        cases hinj (.inr (by simp [ha])) (by simp [ha']) (Subtype.ext hk)
        exact hm hm'

/-- The code hashes of incarnations that are gone are not found. -/
theorem codes_agree_iff {t t' : PlainTable}
    (hold : ∀ e, e ∈ t.entries ↔ ∃ (a : Address) (i : Uint64) (v : Bytes),
      start.plainContractCode.get (storagePrefix a.val i) = some v ∧
        e = (storagePrefix (keccak a.val).val i, v))
    (hnew : ∀ e, e ∈ t'.entries ↔ ∃ (a : Address) (i : Uint64) (v : Bytes),
      final.plainContractCode.get (storagePrefix a.val i) = some v ∧
        e = (storagePrefix (keccak a.val).val i, v))
    (hsame : ∀ a ∉ addresses, ∀ i, final.plainContractCode.get (storagePrefix a.val i) =
      start.plainContractCode.get (storagePrefix a.val i))
    (hmono : ∀ (a : Address) (i : Uint64), start.plainContractCode.get (storagePrefix a.val i) ≠ none →
      final.plainContractCode.get (storagePrefix a.val i) ≠ none)
    (hinj : ∀ {a a' : Address}, HasCodeHash final.plainContractCode a →
      HasCodeHash final.plainContractCode a' → keccak a.val = keccak a'.val → a = a') :
    addresses.foldl (fun t a => putSome t (codePut keccak w' final a)) t = t' ↔
      ∀ (a : Address) (i : Uint64) (v : Bytes),
        final.plainContractCode.get (storagePrefix a.val i) = some v →
        start.plainContractCode.get (storagePrefix a.val i) = some v ∨
          i ≠ 0 ∧ ∃ account, w'.account a = some account ∧ account.incarnation = i := by
  -- a hashed key stands for one address and one incarnation
  have hkey {a a' : Address} {i i' : Uint64} {v v' : Bytes}
      (hv : final.plainContractCode.get (storagePrefix a.val i) = some v)
      (hv' : final.plainContractCode.get (storagePrefix a'.val i') = some v')
      (heq : storagePrefix (keccak a.val).val i = storagePrefix (keccak a'.val).val i') :
      a = a' ∧ i = i' := by
    obtain ⟨hhash, hi⟩ := hashedCodeKey_injective heq
    exact ⟨hinj ⟨i, v, hv⟩ ⟨i', v', hv'⟩ hhash, hi⟩
  have hput : ∀ a a' k v v', codePut keccak w' final a = some (k, v) →
      codePut keccak w' final a' = some (k, v') → v = v' := by
    intro a a' k v v' h h'
    obtain ⟨account, u, ha, -, hv, he⟩ := codePut_eq_some.mp h
    obtain ⟨account', u', ha', -, hv', he'⟩ := codePut_eq_some.mp h'
    obtain ⟨rfl, rfl⟩ := Prod.mk.inj he
    obtain ⟨hk, rfl⟩ := Prod.mk.inj he'
    obtain ⟨rfl, hi⟩ := hkey hv hv' hk
    rw [← hi] at hv'
    exact Option.some.inj (hv.symm.trans hv')
  have hget (k v : Bytes) := get_foldl_putSome hput addresses t (k := k) (v := v)
  constructor
  · rintro rfl a i v hv
    have hmem := PlainTable.get_eq_some.mpr ((hnew _).mpr ⟨a, i, v, hv, rfl⟩)
    rcases (hget _ _).mp hmem with ⟨a', -, h⟩ | ⟨-, h⟩
    · obtain ⟨account, v', ha', h0, hv', he⟩ := codePut_eq_some.mp h
      obtain ⟨rfl, rfl⟩ := hkey hv hv' (Prod.mk.inj he).1
      exact .inr ⟨h0, account, ha', rfl⟩
    · obtain ⟨a', i', v', hv', he⟩ := (hold _).mp (PlainTable.get_eq_some.mp h)
      obtain ⟨u, hu⟩ := Option.ne_none_iff_exists'.mp (hmono a' i' (by simp [hv']))
      obtain ⟨rfl, rfl⟩ := hkey hv hu (Prod.mk.inj he).1
      rw [(Prod.mk.inj he).2]
      exact .inl hv'
  · intro hkeep
    -- a code hash that is not the old one is put
    have hchanged {a : Address} {i : Uint64} {v : Bytes}
        (hv : final.plainContractCode.get (storagePrefix a.val i) = some v)
        (hne : start.plainContractCode.get (storagePrefix a.val i) ≠ some v) :
        ∃ a' ∈ addresses, codePut keccak w' final a' =
          some (storagePrefix (keccak a.val).val i, v) := by
      rcases hkeep a i v hv with h | ⟨h0, account, ha, rfl⟩
      · exact absurd h hne
      · refine ⟨a, ?_, codePut_eq_some.mpr ⟨account, v, ha, h0, hv, rfl⟩⟩
        by_contra hm
        exact hne ((hsame a hm _).symm.trans hv)
    refine PlainTable.ext_of_get fun k => Option.ext fun v => ?_
    rw [hget, PlainTable.get_eq_some, PlainTable.get_eq_some, hnew, hold]
    constructor
    · rintro (⟨a, -, h⟩ | ⟨hno, a, i, v', hv', he⟩)
      · obtain ⟨account, v', -, -, hv', he⟩ := codePut_eq_some.mp h
        exact ⟨a, account.incarnation, v', hv', he⟩
      · obtain ⟨rfl, rfl⟩ := Prod.mk.inj he
        obtain ⟨u, hu⟩ := Option.ne_none_iff_exists'.mp (hmono a i (by simp [hv']))
        by_cases huv : u = v
        · exact ⟨a, i, v, huv ▸ hu, rfl⟩
        · obtain ⟨a', hm, h⟩ := hchanged hu (by rw [hv']; exact fun h => huv (Option.some.inj h).symm)
          exact absurd h (hno a' hm u)
    · rintro ⟨a, i, v', hv', he⟩
      obtain ⟨rfl, rfl⟩ := Prod.mk.inj he
      by_cases hex : ∃ a' ∈ addresses, ∃ u, codePut keccak w' final a' =
          some (storagePrefix (keccak a.val).val i, u)
      · obtain ⟨a', hm, u, h⟩ := hex
        obtain ⟨account, u', -, -, hu, heq⟩ := codePut_eq_some.mp h
        obtain ⟨rfl, rfl⟩ := hkey hv' hu (Prod.mk.inj heq).1
        obtain ⟨-, rfl⟩ := Prod.mk.inj heq
        cases Option.some.inj (hv'.symm.trans hu)
        exact .inl ⟨a, hm, h⟩
      · by_cases hold' : start.plainContractCode.get (storagePrefix a.val i) = some v
        · push Not at hex
          exact .inr ⟨hex, a, i, v, hold', rfl⟩
        · obtain ⟨a', hm, h⟩ := hchanged hv' hold'
          exact absurd ⟨a', hm, v, h⟩ hex

theorem zerolessView_injective {v v' : Bytes32} (h : zerolessView v = zerolessView v') : v = v' := by
  apply Subtype.ext
  rw [← padded_zerolessView v, ← padded_zerolessView v', h]

/-- The slots are those of the last clean promotion. -/
theorem slots_agree_iff {t t' : Table}
    (hold : ∀ e, e ∈ t.entries ↔ ∃ a i location, w.storage a i location ≠ default ∧
      e = (hashedSlotKey keccak a i, location.val ++ zerolessView (w.storage a i location)))
    (hnew : ∀ e, e ∈ t'.entries ↔ ∃ a i location, w'.storage a i location ≠ default ∧
      e = (hashedSlotKey keccak a i, location.val ++ zerolessView (w'.storage a i location)))
    (hinj : ∀ {a a' : Address}, (∃ i location, w.storage a i location ≠ default) →
      (∃ i location, w'.storage a' i location ≠ default) → keccak a.val = keccak a'.val → a = a') :
    t = t' ↔ ∀ a i location, w'.storage a i location = w.storage a i location := by
  have hkey {a a' : Address} {i i' : Uint64} {location location' : Bytes32}
      (hne : w.storage a i location ≠ default) (hne' : w'.storage a' i' location' ≠ default)
      (he : (hashedSlotKey keccak a i, location.val ++ zerolessView (w.storage a i location)) =
        (hashedSlotKey keccak a' i', location'.val ++ zerolessView (w'.storage a' i' location'))) :
      a = a' ∧ i = i' ∧ location = location' ∧
        w.storage a i location = w'.storage a' i' location' := by
    obtain ⟨hhash, hi⟩ := hashedSlotKey_injective (Prod.mk.inj he).1
    obtain ⟨hl, hv⟩ := List.append_inj (Prod.mk.inj he).2
      (location.property.trans location'.property.symm)
    exact ⟨hinj ⟨i, location, hne⟩ ⟨i', location', hne'⟩ hhash, hi, Subtype.ext hl,
      zerolessView_injective hv⟩
  constructor
  · rintro rfl a i location
    by_cases hw : w.storage a i location = default
    · by_cases hw' : w'.storage a i location = default
      · rw [hw, hw']
      · obtain ⟨a', i', location', hne, he⟩ := (hold _).mp ((hnew _).mpr ⟨a, i, location, hw', rfl⟩)
        obtain ⟨rfl, rfl, rfl, heq⟩ := hkey hne hw' he.symm
        exact heq.symm
    · obtain ⟨a', i', location', hne, he⟩ := (hnew _).mp ((hold _).mpr ⟨a, i, location, hw, rfl⟩)
      obtain ⟨rfl, rfl, rfl, heq⟩ := hkey hw hne he
      exact heq.symm
  · intro hsame
    refine Table.ext_of_mem fun e => ?_
    rw [hold, hnew]
    simp only [hsame]

end Agreement

section Tables

/-- Something is stored for an address. -/
def Present (tables : Tables) (a : Address) : Prop :=
  readAccount tables a ≠ some none ∨ (∃ i location, readStorage tables a i location ≠ some default) ∨
    HasCodeHash tables.plainContractCode a

/-- No account is gone, no slot is another, and a new code hash belongs to the contract that is
there now. -/
structure Unremoved (start final : Tables) : Prop where
  account : ∀ a, readAccount final a = some none → readAccount start a = some none
  storage : ∀ a i location, readStorage final a i location = readStorage start a i location
  code : ∀ (a : Address) (i : Uint64) (codeHash : Bytes),
    final.plainContractCode.get (storagePrefix a.val i) = some codeHash →
    start.plainContractCode.get (storagePrefix a.val i) = some codeHash ∨
      i ≠ 0 ∧ ∃ account, readAccount final a = some (some account) ∧ account.incarnation = i

variable (keccak : Bytes → Bytes32)

/-- The tables that were promoted from scratch at the start are brought up to date. -/
def Agrees (progress : Uint64) (start final : Tables) : Prop :=
  ∃ hashed clean, promoteClean keccak start = some hashed ∧ promoteClean keccak final = some clean ∧
    promoteIncrementally keccak progress final hashed = some clean

variable {keccak} {tables : Tables} {w : World}

theorem Stores.readAccount_eq_none_iff (h : Stores w tables.plainState) (a : Address) :
    Db.readAccount tables a = some none ↔ w.account a = none := by
  rw [h.readAccount]
  cases w.account a <;> simp

theorem Stores.exists_incarnation_iff (h : Stores w tables.plainState) (a : Address) (i : Uint64) :
    (∃ account, Db.readAccount tables a = some (some account) ∧ account.incarnation = i) ↔
      ∃ account, w.account a = some account ∧ account.incarnation = i := by
  have hinc (account : Account) :
      (restoreCodeHash tables a account).incarnation = account.incarnation := by
    rw [restoreCodeHash]
    split_ifs
    · cases tables.plainContractCode.get (storagePrefix a.val account.incarnation) with
      | none => rfl
      | some hash =>
        dsimp only
        split_ifs <;> rfl
    · rfl
  rw [h.readAccount]
  cases w.account a with
  | none => simp
  | some account => simp [hinc]

theorem Stores.present_of_occupied (h : Stores w tables.plainState) {a : Address}
    (ha : Occupied w a) : Present tables a := by
  rcases ha with ha | ⟨i, location, ha⟩
  · exact .inl fun hnone => ha ((h.readAccount_eq_none_iff a).mp hnone)
  · refine .inr (.inl ⟨i, location, fun hd => ha ?_⟩)
    rw [h.readStorage] at hd
    exact Option.some.inj hd

/-- What a promotion from scratch puts into the tables. -/
theorem exists_promoteClean (h : WellFormed tables) (hw : Stores w tables.plainState)
    (hinj : ∀ {a a' : Address}, Present tables a → Present tables a' →
      keccak a.val = keccak a'.val → a = a') :
    ∃ hashed, promoteClean keccak tables = some hashed ∧
      (∀ e, e ∈ hashed.hashedAccounts.entries ↔ ∃ a, accountPut keccak w a = some e) ∧
      (∀ e, e ∈ hashed.hashedStorage.entries ↔ ∃ a i location, w.storage a i location ≠ default ∧
        e = (hashedSlotKey keccak a i, location.val ++ zerolessView (w.storage a i location))) ∧
      ∀ e, e ∈ hashed.contractCode.entries ↔ ∃ (a : Address) (i : Uint64) (v : Bytes),
        tables.plainContractCode.get (storagePrefix a.val i) = some v ∧
          e = (storagePrefix (keccak a.val).val i, v) := by
  obtain ⟨hashed, hrun, haccounts, hstorage⟩ := exists_promoteCleanState hw fun ha ha' =>
    hinj (hw.present_of_occupied ha) (hw.present_of_occupied ha')
  obtain ⟨code, hcode, hmem⟩ := exists_promoteCleanCode h.code fun ha ha' =>
    hinj (.inr (.inr ha)) (.inr (.inr ha'))
  refine ⟨⟨hashed, code⟩, ?_, fun e => ?_, hstorage, hmem⟩
  · rw [promoteClean, hrun, hcode]
    rfl
  · rw [haccounts]
    simp only [accountPut_eq_some]

theorem agrees_iff {start : Tables} (h : WellFormed start) {batches : List (List ExecutedBlock)}
    {progress : Uint64} (hnum : ∀ block ∈ batches.flatten, progress.toNat < block.1.toNat)
    (hinj : ∀ {a a' : Address}, Present start a ∨ Present (executeBatches start batches) a →
      Present start a' ∨ Present (executeBatches start batches) a' →
      keccak a.val = keccak a'.val → a = a') :
    Agrees keccak progress start (executeBatches start batches) ↔
      Unremoved start (executeBatches start batches) := by
  obtain ⟨w, hw⟩ := h.state
  have h' := h.executeBatches batches
  obtain ⟨w', hw'⟩ := h'.state
  obtain ⟨addresses, hchanged, haccount, hcode⟩ := @exists_promoted keccak start batches progress h hnum w' hw'
  obtain ⟨hashed, hrun, haccounts, hstorage, hcodes⟩ := exists_promoteClean h hw fun ha ha' =>
    hinj (.inl ha) (.inl ha')
  obtain ⟨clean, hrun', haccounts', hstorage', hcodes'⟩ := exists_promoteClean h' hw' fun ha ha' =>
    hinj (.inr ha) (.inr ha')
  -- an address that is not among those promoted has what it had at the start
  have hsame_account : ∀ a ∉ addresses, accountPut keccak w a = accountPut keccak w' a := by
    intro a hm
    have hget : (executeBatches start batches).plainState.get a.val = start.plainState.get a.val := by
      by_contra hne
      obtain ⟨block, hb, initial, current, hu, hc⟩ := h.exists_account_change hne
      exact hm (hchanged block hb a initial current hu hc)
    rw [hw.get, hw'.get] at hget
    have hpair := congrArg (Option.map fun v => (((keccak a.val).val, v) : Entry)) hget
    rw [Option.map_map, Option.map_map] at hpair
    exact hpair.symm
  have hsame_code : ∀ a ∉ addresses, ∀ i,
      (executeBatches start batches).plainContractCode.get (storagePrefix a.val i) =
        start.plainContractCode.get (storagePrefix a.val i) := by
    intro a hm i
    by_contra hne
    obtain ⟨block, hb, a', i', codeHash, bytes, hu, hkey⟩ := exists_code_change hne
    obtain ⟨rfl, rfl⟩ := storagePrefix_injective hkey
    obtain ⟨initial, account, hu, hi, hnew⟩ := block.2.account_mem_of_code_mem hu
    refine hm (hchanged block hb a initial _ hu fun heq => hnew ?_)
    rw [← heq, Option.map_some, hi]
  have haccount_iff := accounts_agree_iff haccounts haccounts' hsame_account
    fun {a a'} ha ha' => hinj (ha.imp (fun ha => hw.present_of_occupied (.inl ha))
      fun ha => hw'.present_of_occupied (.inl ha)) (.inr (hw'.present_of_occupied (.inl ha')))
  have hcode_iff := @codes_agree_iff keccak w' start _ addresses _ _ hcodes hcodes' hsame_code
    (fun a i hne => plainContractCode_ne_none hne batches)
    fun ha ha' => hinj (.inr (.inr (.inr ha))) (.inr (.inr (.inr ha')))
  have hslot_iff := slots_agree_iff hstorage hstorage' fun ha ha' =>
    hinj (.inl (hw.present_of_occupied (.inr ha))) (.inr (hw'.present_of_occupied (.inr ha')))
  have hincremental : promoteIncrementally keccak progress (executeBatches start batches) hashed =
      some ⟨⟨addresses.foldl (fun t a => putSome t (accountPut keccak w' a)) hashed.hashedAccounts,
        hashed.hashedStorage⟩, addresses.foldl (fun t a =>
          putSome t (codePut keccak w' (executeBatches start batches) a)) hashed.contractCode⟩ := by
    rw [promoteIncrementally, haccount, Option.bind_eq_bind, Option.bind_some,
      promote_hashStorage h', Option.bind_some, hcode]
  have hagrees : Agrees keccak progress start (executeBatches start batches) ↔
      addresses.foldl (fun t a => putSome t (accountPut keccak w' a)) hashed.hashedAccounts =
          clean.hashedAccounts ∧
        hashed.hashedStorage = clean.hashedStorage ∧
        addresses.foldl (fun t a => putSome t (codePut keccak w' (executeBatches start batches) a))
          hashed.contractCode = clean.contractCode := by
    rw [Agrees]
    constructor
    · rintro ⟨_, _, h1, h2, h3⟩
      cases hrun.symm.trans h1
      cases hrun'.symm.trans h2
      cases hincremental.symm.trans h3
      exact ⟨rfl, rfl, rfl⟩
    · rintro ⟨h1, h2, h3⟩
      refine ⟨hashed, clean, hrun, hrun', hincremental.trans ?_⟩
      rw [h1, h2, h3]
  rw [hagrees, haccount_iff, hslot_iff, hcode_iff]
  constructor
  · rintro ⟨haccount, hslot, hcode⟩
    refine ⟨fun a ha => ?_, fun a i location => ?_, fun a i codeHash hv => ?_⟩
    · rw [hw.readAccount_eq_none_iff]
      exact haccount a ((hw'.readAccount_eq_none_iff a).mp ha)
    · rw [hw.readStorage, hw'.readStorage, hslot]
    · rw [hw'.exists_incarnation_iff]
      exact hcode a i codeHash hv
  · rintro ⟨haccount, hslot, hcode⟩
    refine ⟨fun a ha => ?_, fun a i location => ?_, fun a i codeHash hv => ?_⟩
    · rw [← hw.readAccount_eq_none_iff]
      exact haccount a ((hw'.readAccount_eq_none_iff a).mpr ha)
    · have := hslot a i location
      rw [hw.readStorage, hw'.readStorage] at this
      exact Option.some.inj this
    · rw [← hw'.exists_incarnation_iff]
      exact hcode a i codeHash hv

/-- After any run of blocks the incremental promotion agrees with the clean one if and only if
nothing was removed in it. -/
theorem promoteIncrementally_agrees_iff {genesis start final : Tables} (hg : WellFormed genesis)
    {before after : List (List ExecutedBlock)} (hstart : start = executeBatches genesis before)
    (hfinal : final = executeBatches start after) {progress : Uint64}
    (hnum : ∀ block ∈ after.flatten, progress.toNat < block.1.toNat)
    (hinj : ∀ a a' : Address, Present start a ∨ Present final a → Present start a' ∨ Present final a' →
      keccak a.val = keccak a'.val → a = a') :
    Agrees keccak progress start final ↔ Unremoved start final := by
  subst hstart hfinal
  exact agrees_iff (hg.executeBatches before) hnum (hinj _ _)

end Tables

section Examples

/-- The hash of the code `CALLER SELFDESTRUCT`. -/
def selfDestructHash : Bytes32 :=
  ⟨[0x51, 0x64, 0xf2, 0x22, 0x55, 0xaa, 0xd1, 0x21, 0x7f, 0xb7, 0xdf, 0xfe, 0xd7, 0x7d, 0x16, 0x66,
    0x11, 0x56, 0xd2, 0x96, 0x88, 0xf4, 0x95, 0xad, 0xc1, 0xab, 0x23, 0x14, 0x05, 0x1b, 0x3a, 0x91], rfl⟩

def shortLived (balance : Uint256) : Account :=
  { nonce := 1, balance, incarnation := 1, codeHash := selfDestructHash }

/-- A block that changes the contract. -/
def contractChanged (initial current : Option Account) : IntraBlockState where
  objects := HashMap.set ∅ default { initial, current }
  code := HashMap.set ∅ selfDestructHash [0x33, 0xff]

theorem mem_updates_contractChanged {initial current : Option Account} {u : Update}
    (hu : u ∈ (contractChanged initial current).updates) :
    u = .account default initial current ∨
      ∃ i codeHash bytes, u = .code default i codeHash bytes := by
  rcases List.mem_append.mp hu with hu | hu
  · cases hu
  · obtain ⟨e, he, hu⟩ := List.mem_flatMap.mp hu
    cases List.mem_singleton.mp he
    rcases List.mem_cons.mp hu with rfl | hu
    · exact .inl rfl
    · exact .inr (IntraBlockState.codeUpdates_eq _ hu)

theorem afterBlock_contractChanged (w : World) (n : Uint64) (initial current : Option Account) :
    afterBlock w (n, contractChanged initial current) =
      Update.onWorld w (.account default initial current) := by
  have haccount : .account default initial current ∈ (contractChanged initial current).updates :=
    List.mem_append_right _ (List.mem_flatMap.mpr
      ⟨_, List.mem_singleton_self _, List.mem_cons_self⟩)
  ext1
  · funext a
    by_cases ha : a = default
    · subst ha
      have hworld : (Update.onWorld w (.account default initial current)).account default = current := by
        simp [Update.onWorld]
      rw [hworld]
      refine account_foldl_of_mem (fun initial' current' hm => ?_) ⟨initial, current, haccount⟩ w
      rcases mem_updates_contractChanged hm with h | ⟨_, _, _, h⟩ <;> cases h
      rfl
    · refine (account_foldl_of_not_mem (fun initial' current' hm => ?_) w).trans
        (if_neg ha).symm
      rcases mem_updates_contractChanged hm with h | ⟨_, _, _, h⟩ <;> cases h
      exact ha rfl
  · funext a i location
    refine storage_foldl_of_not_mem (fun initial' current' hm => ?_) w
    rcases mem_updates_contractChanged hm with h | ⟨_, _, _, h⟩ <;> cases h

theorem stores_emptyTables : Stores noWorld ({} : Tables).plainState := stores_empty

/-- The blocks leave every other address alone. -/
theorem present_contractChanged {batches : List (List ExecutedBlock)}
    (hf : Faithful noWorld batches.flatten)
    (hb : ∀ block ∈ batches.flatten, ∃ initial current, block.2 = contractChanged initial current)
    {a : Address} (h : Present (executeBatches {} batches) a) : a = default := by
  have hstores := stores_emptyTables.executeBatches hf
  have hstorage (w : World) (blocks : List ExecutedBlock)
      (hb : ∀ block ∈ blocks, ∃ initial current, block.2 = contractChanged initial current) :
      (afterBlocks w blocks).storage = w.storage := by
    induction blocks generalizing w with
    | nil => rfl
    | cons block blocks ih =>
      obtain ⟨⟨initial, current, hblock⟩, hb⟩ := List.forall_mem_cons.mp hb
      refine (ih (afterBlock w block) hb).trans ?_
      rw [← Prod.mk.eta (p := block), hblock, afterBlock_contractChanged]
      rfl
  rcases h with h | ⟨i, location, h⟩ | ⟨i, v, h⟩
  · have hne : (executeBatches {} batches).plainState.get a.val ≠ ({} : Tables).plainState.get a.val := by
      intro heq
      refine h ?_
      rw [readAccount, heq]
      rfl
    obtain ⟨block, hm, initial, current, hu, -⟩ := wellFormed_empty.exists_account_change hne
    obtain ⟨initial', current', hblock⟩ := hb block hm
    rw [hblock] at hu
    rcases mem_updates_contractChanged hu with hu | ⟨_, _, _, hu⟩ <;> cases hu
    rfl
  · refine absurd ?_ h
    rw [hstores.readStorage, hstorage _ _ hb]
    rfl
  · have hne : (executeBatches {} batches).plainContractCode.get (storagePrefix a.val i) ≠
        ({} : Tables).plainContractCode.get (storagePrefix a.val i) := by
      rw [h]
      exact Option.some_ne_none v
    obtain ⟨block, hm, a', i', codeHash, bytes, hu, hkey⟩ := exists_code_change hne
    obtain ⟨rfl, -⟩ := storagePrefix_injective hkey
    obtain ⟨initial', current', hblock⟩ := hb block hm
    rw [hblock] at hu
    rcases mem_updates_contractChanged hu with hu | ⟨_, _, _, hu⟩ <;> cases hu
    rfl

/-- The contract is created. -/
def contractCreated : List (List ExecutedBlock) := [[(1, contractChanged none (some (shortLived 1)))]]

/-- A block changes the contract that is there. -/
def contractChangedLater (current : Option Account) : List (List ExecutedBlock) :=
  [[(2, contractChanged (some (shortLived 1)) current)]]

theorem faithful_contractChanged (current : Option Account) :
    Faithful noWorld (contractCreated ++ contractChangedLater current).flatten := by
  refine ⟨fun u hu => ?_, fun u hu => ?_, trivial⟩
  · rcases mem_updates_contractChanged hu with rfl | ⟨_, _, _, rfl⟩
    · exact rfl
    · trivial
  · rw [afterBlock_contractChanged]
    rcases mem_updates_contractChanged hu with rfl | ⟨_, _, _, rfl⟩
    · exact rfl
    · trivial

theorem wellFormed_contractCreated : WellFormed (executeBatches {} contractCreated) :=
  wellFormed_empty.executeBatches contractCreated

theorem injective_contractChanged {keccak : Bytes → Bytes32} (current : Option Account)
    {a a' : Address}
    (ha : Present (executeBatches {} contractCreated) a ∨
      Present (executeBatches (executeBatches {} contractCreated) (contractChangedLater current)) a)
    (ha' : Present (executeBatches {} contractCreated) a' ∨
      Present (executeBatches (executeBatches {} contractCreated) (contractChangedLater current)) a')
    (_ : keccak a.val = keccak a'.val) : a = a' := by
  have hf := faithful_contractChanged current
  have hdefault {a : Address} (ha : Present (executeBatches {} contractCreated) a ∨
      Present (executeBatches (executeBatches {} contractCreated) (contractChangedLater current)) a) :
      a = default := by
    rcases ha with ha | ha
    · refine present_contractChanged (faithful_append.mp (List.flatten_append ▸ hf)).1 ?_ ha
      intro block hb
      cases List.mem_singleton.mp hb
      exact ⟨_, _, rfl⟩
    · have hall : Present (executeBatches {} (contractCreated ++ contractChangedLater current)) a := by
        rw [executeBatches, List.foldl_append]
        exact ha
      refine present_contractChanged hf ?_ hall
      intro block hb
      rcases List.mem_cons.mp hb with rfl | hb
      · exact ⟨_, _, rfl⟩
      · cases List.mem_singleton.mp hb
        exact ⟨_, _, rfl⟩
  rw [hdefault ha, hdefault ha']

/-- The worlds before and after the second block. -/
theorem stores_contractChanged (current : Option Account) :
    Stores (Update.onWorld noWorld (.account default none (some (shortLived 1))))
      (executeBatches {} contractCreated).plainState ∧
    Stores (Update.onWorld (Update.onWorld noWorld (.account default none (some (shortLived 1))))
        (.account default (some (shortLived 1)) current))
      (executeBatches (executeBatches {} contractCreated) (contractChangedLater current)).plainState := by
  obtain ⟨hf, hf'⟩ := faithful_append.mp (List.flatten_append ▸ faithful_contractChanged current)
  have hstart := stores_emptyTables.executeBatches hf
  have hfinal := hstart.executeBatches hf'
  have hworld : afterBlocks noWorld contractCreated.flatten =
      Update.onWorld noWorld (.account default none (some (shortLived 1))) :=
    afterBlock_contractChanged ..
  have hworld' (w : World) : afterBlocks w (contractChangedLater current).flatten =
      Update.onWorld w (.account default (some (shortLived 1)) current) :=
    afterBlock_contractChanged ..
  rw [hworld'] at hfinal
  rw [hworld] at hstart hfinal
  exact ⟨hstart, hfinal⟩

/-- A payment to the contract is promoted. -/
theorem promoteIncrementally_agrees_paid :
    Agrees promotedKeccak 1 (executeBatches {} contractCreated)
      (executeBatches (executeBatches {} contractCreated)
        (contractChangedLater (some (shortLived 2)))) := by
  obtain ⟨hstart, hfinal⟩ := stores_contractChanged (some (shortLived 2))
  refine (promoteIncrementally_agrees_iff wellFormed_empty rfl rfl ?_
    fun a a' => injective_contractChanged (some (shortLived 2))).mpr ⟨?_, ?_, ?_⟩
  · intro block hb
    cases List.mem_singleton.mp hb
    decide
  · intro a ha
    rw [hfinal.readAccount_eq_none_iff] at ha
    rw [hstart.readAccount_eq_none_iff]
    by_cases hd : a = default
    · simp [Update.onWorld, hd] at ha
    · simp [Update.onWorld, hd, noWorld]
  · intro a i location
    rw [hfinal.readStorage, hstart.readStorage]
    rfl
  · intro a i codeHash hcode
    left
    by_contra hne
    rw [← hcode] at hne
    obtain ⟨block, hb, a', i', codeHash', bytes, hu, -⟩ := exists_code_change (Ne.symm hne)
    cases List.mem_singleton.mp hb
    cases List.mem_singleton.mp hu

/-- The contract that is destroyed stays among the hashed accounts. -/
theorem not_agrees_destroyed :
    WellFormed {} ∧
    Faithful noWorld (contractCreated ++ contractChangedLater none).flatten ∧
    ¬Agrees promotedKeccak 1 (executeBatches {} contractCreated)
      (executeBatches (executeBatches {} contractCreated) (contractChangedLater none)) := by
  obtain ⟨hstart, hfinal⟩ := stores_contractChanged none
  refine ⟨wellFormed_empty, faithful_contractChanged none, fun h => ?_⟩
  have hkeep := ((agrees_iff wellFormed_contractCreated ?_ (injective_contractChanged none)).mp
    h).account default
  · rw [hfinal.readAccount_eq_none_iff, hstart.readAccount_eq_none_iff] at hkeep
    simp [Update.onWorld] at hkeep
  · intro block hb
    cases List.mem_singleton.mp hb
    decide

end Examples

end Silkworm.Db
