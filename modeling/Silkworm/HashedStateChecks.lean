import Silkworm.PromotionAgreement

/-!
# The check of the hashed state

The hashed tables are compared with those that they were made from. The loop is over the latter:
an entry that is left over in the hashed tables is not seen, and of a slot only the key of its
contract is looked for.
-/

namespace Silkworm.Db
open BigEndian SortedTables MemoryBuffer

/-- What is logged. -/
inductive Report
  | missing (key : Bytes)
  | mismatch (expected actual : Bytes)
  deriving DecidableEq

/-- An entry is as expected, or it is reported, and the loop goes on or ends. -/
inductive Outcome
  | expected
  | goesOn (report : Report)
  | ends (report : Report)
  deriving DecidableEq

section Checks

variable (keccak : Bytes → Bytes32)

def compareValue (expected actual : Bytes) : Outcome :=
  if actual = expected then .expected else .ends (.mismatch expected actual)

/-- The pass over one entry. A key that is shorter than its parts is read out of bounds. -/
def checkEntry (operation : Operation) (hashed : HashStateTables) (e : Entry) : Option Outcome :=
  match operation with
  | .hashAccount =>
    if e.1.length ≠ kAddressLength then some .expected
    else
      let key := (keccak e.1).val
      match hashed.hashedAccounts.get key with
      | none => some (.ends (.missing key))
      | some actualValue => some (compareValue e.2 actualValue)
  | .hashStorage =>
    if e.1.length = kAddressLength then some .expected
    else if e.1.length < kStoragePrefixLength then none
    else
      let key := (keccak (e.1.take kAddressLength)).val ++
        ((e.1.drop kAddressLength).take kIncarnationLength ++
          (keccak (e.1.drop kStoragePrefixLength)).val)
      -- the value that is found is not compared
      match hashed.hashedStorage.get key with
      | none => some (.ends (.missing key))
      | some _ => some .expected
  | .code =>
    if e.1.length ≠ kStoragePrefixLength then some .expected
    else
      let key := (keccak (e.1.take kAddressLength)).val ++
        (e.1.drop kAddressLength).take kIncarnationLength
      match hashed.contractCode.get key with
      | none => some (.goesOn (.missing key))
      | some actualValue => some (compareValue e.2 actualValue)

def checkEntries (operation : Operation) (hashed : HashStateTables) :
    List Entry → Option (List Report)
  | [] => some []
  | e :: entries =>
    match checkEntry keccak operation hashed e with
    | none => none
    | some .expected => checkEntries operation hashed entries
    | some (.goesOn report) => (checkEntries operation hashed entries).map (report :: ·)
    | some (.ends report) => some [report]

/-- `get_tables_for_checking`, the table to go through. -/
def sourceForChecking (operation : Operation) (tables : Tables) : List Entry :=
  match operation with
  | .hashAccount => tables.plainState.entries
  | .hashStorage => tables.plainState.entries
  | .code => tables.plainContractCode.entries

/-- As in `promoteCleanState`, the key of eight zeros is assumed to be still there. -/
def check (operation : Operation) (tables : Tables) (hashed : HashStateTables) :
    Option (List Report) :=
  checkEntries keccak operation hashed
    ((sourceForChecking operation tables).dropWhile fun e => e.1 < List.replicate 8 0)

/-- All three checks. -/
def checkHashState (tables : Tables) (hashed : HashStateTables) : Option (List Report) := do
  let accounts ← check keccak .hashAccount tables hashed
  let storage ← check keccak .hashStorage tables hashed
  let code ← check keccak .code tables hashed
  some (accounts ++ (storage ++ code))

end Checks

section Loop

variable {keccak : Bytes → Bytes32} {operation : Operation} {hashed : HashStateTables}
  {entries : List Entry}

/-- Nothing is reported if and only if every entry is as expected. -/
theorem checkEntries_eq_nil_iff : checkEntries keccak operation hashed entries = some [] ↔
    ∀ e ∈ entries, checkEntry keccak operation hashed e = some .expected := by
  induction entries with
  | nil => simp [checkEntries]
  | cons e entries ih =>
    rw [checkEntries, List.forall_mem_cons]
    cases h : checkEntry keccak operation hashed e with
    | none => simp
    | some outcome => cases outcome <;> simp [ih]

theorem exists_checkEntries
    (h : ∀ e ∈ entries, ∃ outcome, checkEntry keccak operation hashed e = some outcome) :
    ∃ reports, checkEntries keccak operation hashed entries = some reports := by
  induction entries with
  | nil => exact ⟨[], rfl⟩
  | cons e entries ih =>
    obtain ⟨⟨outcome, he⟩, hentries⟩ := List.forall_mem_cons.mp h
    obtain ⟨reports, hreports⟩ := ih hentries
    rw [checkEntries, he]
    cases outcome with
    | expected => exact ⟨reports, hreports⟩
    | goesOn report => exact ⟨report :: reports, by rw [hreports]; rfl⟩
    | ends report => exact ⟨[report], rfl⟩

theorem compareValue_eq_expected {expected actual : Bytes} :
    compareValue expected actual = .expected ↔ actual = expected := by
  rw [compareValue]
  split_ifs with h <;> simp [h]

end Loop

section Entries

variable {keccak : Bytes → Bytes32} {hashed : HashStateTables}

theorem checkEntry_accountEntry (a : Address) (account : Account) :
    ∃ outcome, checkEntry keccak .hashAccount hashed (accountEntry a account) = some outcome ∧
      (outcome = .expected ↔ hashed.hashedAccounts.get (keccak a.val).val =
        some (account.encodeForStorage false)) := by
  have hlen : ¬(accountEntry a account).1.length ≠ kAddressLength := not_not.mpr a.property
  rw [checkEntry]
  dsimp only
  rw [if_neg hlen, accountEntry]
  dsimp only
  cases hashed.hashedAccounts.get (keccak a.val).val with
  | none => exact ⟨_, rfl, by simp⟩
  | some actualValue => exact ⟨_, rfl, by simp [compareValue_eq_expected]⟩

theorem checkEntry_slotEntry (a : Address) (i : Uint64) (location value : Bytes32) :
    ∃ outcome, checkEntry keccak .hashStorage hashed (slotEntry a i location value) = some outcome ∧
      (outcome = .expected ↔ hashed.hashedStorage.get (hashedSlotKey keccak a i) ≠ none) := by
  have hlen := length_storagePrefix a i
  have htake : (storagePrefix a.val i).take kAddressLength = a.val := List.take_left' a.property
  have hdrop : (storagePrefix a.val i).drop kAddressLength = bigU64 i := List.drop_left' a.property
  have hrest : (storagePrefix a.val i).drop kStoragePrefixLength = [] :=
    List.drop_eq_nil_of_le hlen.le
  have hinc : (bigU64 i).take kIncarnationLength = bigU64 i :=
    List.take_of_length_le (length_bigU64 i).le
  rw [checkEntry, slotEntry]
  dsimp only
  rw [if_neg (by rw [hlen]; decide), if_neg (by rw [hlen]; exact lt_irrefl _), htake, hdrop, hrest,
    hinc, ← hashedSlotKey]
  cases hashed.hashedStorage.get (hashedSlotKey keccak a i) with
  | none => exact ⟨_, rfl, by simp⟩
  | some _ => exact ⟨_, rfl, by simp⟩

theorem checkEntry_codeEntry (a : Address) (i : Uint64) (v : Bytes) :
    ∃ outcome, checkEntry keccak .code hashed (storagePrefix a.val i, v) = some outcome ∧
      (outcome = .expected ↔
        hashed.contractCode.get (storagePrefix (keccak a.val).val i) = some v) := by
  have htake : (storagePrefix a.val i).take kAddressLength = a.val := List.take_left' a.property
  have hdrop : (storagePrefix a.val i).drop kAddressLength = bigU64 i := List.drop_left' a.property
  have hinc : (bigU64 i).take kIncarnationLength = bigU64 i :=
    List.take_of_length_le (length_bigU64 i).le
  rw [checkEntry]
  dsimp only
  rw [if_neg (not_not.mpr (length_storagePrefix a i)), htake, hdrop, hinc, ← storagePrefix]
  cases hashed.contractCode.get (storagePrefix (keccak a.val).val i) with
  | none => exact ⟨_, rfl, by simp⟩
  | some actualValue => exact ⟨_, rfl, by simp [compareValue_eq_expected]⟩

/-- An entry of the other kind is passed over. -/
theorem checkEntry_hashAccount_slotEntry (a : Address) (i : Uint64) (location value : Bytes32) :
    checkEntry keccak .hashAccount hashed (slotEntry a i location value) = some .expected := by
  refine if_pos ?_
  rw [slotEntry, length_storagePrefix]
  decide

theorem checkEntry_hashStorage_accountEntry (a : Address) (account : Account) :
    checkEntry keccak .hashStorage hashed (accountEntry a account) = some .expected :=
  if_pos a.property

end Entries

section Tables

variable {keccak : Bytes → Bytes32} {tables : Tables} {w : World} {hashed : HashStateTables}

theorem exists_check {operation : Operation}
    (hlen : ∀ e ∈ sourceForChecking operation tables, 8 ≤ e.1.length)
    (h : ∀ e ∈ sourceForChecking operation tables, ∃ outcome,
      checkEntry keccak operation hashed e = some outcome) :
    ∃ reports, check keccak operation tables hashed = some reports ∧
      (reports = [] ↔ ∀ e ∈ sourceForChecking operation tables,
        checkEntry keccak operation hashed e = some .expected) := by
  obtain ⟨reports, hrun⟩ := exists_checkEntries h
  refine ⟨reports, ?_, ?_⟩
  · rw [check, dropWhile_zeros hlen, hrun]
  · rw [← checkEntries_eq_nil_iff, hrun, Option.some.injEq]

theorem le_length_plainState (hw : Stores w tables.plainState) :
    ∀ e ∈ tables.plainState.entries, 8 ≤ e.1.length := by
  intro e he
  rcases (hw e).mp he with ⟨a, account, -, rfl⟩ | ⟨a, i, location, -, rfl⟩
  · rw [accountEntry, a.property]
    decide
  · rw [slotEntry, length_storagePrefix]
    decide

/-- No account is reported if and only if all are there, as they are. -/
theorem check_hashAccount (hw : Stores w tables.plainState) :
    ∃ reports, check keccak .hashAccount tables hashed = some reports ∧
      (reports = [] ↔ ∀ a account, w.account a = some account →
        hashed.hashedAccounts.get (keccak a.val).val = some (account.encodeForStorage false)) := by
  obtain ⟨reports, hrun, hiff⟩ := @exists_check keccak tables hashed .hashAccount
    (le_length_plainState hw) fun e he => by
      rcases (hw e).mp he with ⟨a, account, -, rfl⟩ | ⟨a, i, location, -, rfl⟩
      · obtain ⟨outcome, h, -⟩ := checkEntry_accountEntry a account
        exact ⟨outcome, h⟩
      · exact ⟨_, checkEntry_hashAccount_slotEntry a i location _⟩
  refine ⟨reports, hrun, hiff.trans ?_⟩
  constructor
  · intro h a account ha
    obtain ⟨outcome, hentry, hexpected⟩ := @checkEntry_accountEntry keccak hashed a account
    have hmem := h _ ((hw _).mpr (.inl ⟨a, account, ha, rfl⟩))
    exact hexpected.mp (Option.some.inj (hentry.symm.trans hmem))
  · intro h e he
    rcases (hw e).mp he with ⟨a, account, ha, rfl⟩ | ⟨a, i, location, -, rfl⟩
    · obtain ⟨outcome, hentry, hexpected⟩ := @checkEntry_accountEntry keccak hashed a account
      rw [hentry, hexpected.mpr (h a account ha)]
    · exact checkEntry_hashAccount_slotEntry a i location _

/-- No slot is reported if and only if some slot is there of every contract that has one. -/
theorem check_hashStorage (hw : Stores w tables.plainState) :
    ∃ reports, check keccak .hashStorage tables hashed = some reports ∧
      (reports = [] ↔ ∀ a i, (∃ location, w.storage a i location ≠ default) →
        hashed.hashedStorage.get (hashedSlotKey keccak a i) ≠ none) := by
  obtain ⟨reports, hrun, hiff⟩ := @exists_check keccak tables hashed .hashStorage
    (le_length_plainState hw) fun e he => by
      rcases (hw e).mp he with ⟨a, account, -, rfl⟩ | ⟨a, i, location, -, rfl⟩
      · exact ⟨_, checkEntry_hashStorage_accountEntry a account⟩
      · obtain ⟨outcome, h, -⟩ := checkEntry_slotEntry a i location (w.storage a i location)
        exact ⟨outcome, h⟩
  refine ⟨reports, hrun, hiff.trans ?_⟩
  constructor
  · rintro h a i ⟨location, hne⟩
    obtain ⟨outcome, hentry, hexpected⟩ :=
      @checkEntry_slotEntry keccak hashed a i location (w.storage a i location)
    have hmem := h _ ((hw _).mpr (.inr ⟨a, i, location, hne, rfl⟩))
    exact hexpected.mp (Option.some.inj (hentry.symm.trans hmem))
  · intro h e he
    rcases (hw e).mp he with ⟨a, account, -, rfl⟩ | ⟨a, i, location, hne, rfl⟩
    · exact checkEntry_hashStorage_accountEntry a account
    · obtain ⟨outcome, hentry, hexpected⟩ :=
        @checkEntry_slotEntry keccak hashed a i location (w.storage a i location)
      rw [hentry, hexpected.mpr (h a i ⟨location, hne⟩)]

/-- No code hash is reported if and only if all are there, as they are. -/
theorem check_code (h : WellFormed tables) :
    ∃ reports, check keccak .code tables hashed = some reports ∧
      (reports = [] ↔ ∀ (a : Address) (i : Uint64) (v : Bytes),
        tables.plainContractCode.get (storagePrefix a.val i) = some v →
        hashed.contractCode.get (storagePrefix (keccak a.val).val i) = some v) := by
  obtain ⟨reports, hrun, hiff⟩ := @exists_check keccak tables hashed .code
    (fun e he => by
      obtain ⟨a, i, codeHash, rfl⟩ := h.code e he
      rw [length_storagePrefix]
      decide)
    fun e he => by
      obtain ⟨a, i, codeHash, rfl⟩ := h.code e he
      obtain ⟨outcome, hentry, -⟩ := checkEntry_codeEntry a i codeHash.val
      exact ⟨outcome, hentry⟩
  refine ⟨reports, hrun, hiff.trans ?_⟩
  constructor
  · intro hall a i v hv
    obtain ⟨outcome, hentry, hexpected⟩ := @checkEntry_codeEntry keccak hashed a i v
    have hmem := hall _ (PlainTable.get_eq_some.mp hv)
    exact hexpected.mp (Option.some.inj (hentry.symm.trans hmem))
  · intro hall e he
    obtain ⟨a, i, codeHash, rfl⟩ := h.code e he
    obtain ⟨outcome, hentry, hexpected⟩ := @checkEntry_codeEntry keccak hashed a i codeHash.val
    rw [hentry, hexpected.mpr (hall a i _ (PlainTable.get_eq_some.mpr he))]

end Tables

section Promotion

variable {keccak : Bytes → Bytes32} {w w' : World} {start final : Tables} {addresses : List Address}

/-- Every account that is there is found as it is. -/
theorem get_promoted_account {t : PlainTable}
    (hold : ∀ e, e ∈ t.entries ↔ ∃ a, accountPut keccak w a = some e)
    (hsame : ∀ a ∉ addresses, accountPut keccak w a = accountPut keccak w' a)
    (hinj : ∀ {a a' : Address}, w'.account a ≠ none → w'.account a' ≠ none →
      keccak a.val = keccak a'.val → a = a') {a : Address} {account : Account}
    (ha : w'.account a = some account) :
    (addresses.foldl (fun t a => putSome t (accountPut keccak w' a)) t).get (keccak a.val).val =
      some (account.encodeForStorage false) := by
  have hput : ∀ a a' k v v', accountPut keccak w' a = some (k, v) →
      accountPut keccak w' a' = some (k, v') → v = v' := by
    intro a a' k v v' h h'
    obtain ⟨account, ha, he⟩ := accountPut_eq_some.mp h
    obtain ⟨account', ha', he'⟩ := accountPut_eq_some.mp h'
    obtain ⟨rfl, rfl⟩ := Prod.mk.inj he
    obtain ⟨hk, rfl⟩ := Prod.mk.inj he'
    cases hinj (by simp [ha]) (by simp [ha']) (Subtype.ext hk)
    rw [Option.some.inj (ha.symm.trans ha')]
  have hself : accountPut keccak w' a = some ((keccak a.val).val, account.encodeForStorage false) :=
    accountPut_eq_some.mpr ⟨account, ha, rfl⟩
  rw [get_foldl_putSome hput]
  by_cases hm : a ∈ addresses
  · exact .inl ⟨a, hm, hself⟩
  · refine .inr ⟨fun a' hm' v' h' => ?_, ?_⟩
    · obtain ⟨account', ha', he'⟩ := accountPut_eq_some.mp h'
      cases hinj (by simp [ha]) (by simp [ha']) (Subtype.ext (Prod.mk.inj he').1)
      exact hm hm'
    · rw [PlainTable.get_eq_some, hold]
      exact ⟨a, (hsame a hm).trans hself⟩

/-- Where all code hashes are found as they are, the table is that of a clean promotion: it has no
other keys. -/
theorem promoted_code_eq_iff {t t' : PlainTable}
    (hold : ∀ e, e ∈ t.entries ↔ ∃ (a : Address) (i : Uint64) (v : Bytes),
      start.plainContractCode.get (storagePrefix a.val i) = some v ∧
        e = (storagePrefix (keccak a.val).val i, v))
    (hnew : ∀ e, e ∈ t'.entries ↔ ∃ (a : Address) (i : Uint64) (v : Bytes),
      final.plainContractCode.get (storagePrefix a.val i) = some v ∧
        e = (storagePrefix (keccak a.val).val i, v))
    (hmono : ∀ (a : Address) (i : Uint64),
      start.plainContractCode.get (storagePrefix a.val i) ≠ none →
      final.plainContractCode.get (storagePrefix a.val i) ≠ none) :
    addresses.foldl (fun t a => putSome t (codePut keccak w' final a)) t = t' ↔
      ∀ (a : Address) (i : Uint64) (v : Bytes),
        final.plainContractCode.get (storagePrefix a.val i) = some v →
        (addresses.foldl (fun t a => putSome t (codePut keccak w' final a)) t).get
          (storagePrefix (keccak a.val).val i) = some v := by
  constructor
  · rintro rfl a i v hv
    exact PlainTable.get_eq_some.mpr ((hnew _).mpr ⟨a, i, v, hv, rfl⟩)
  · intro hfound
    -- a key that is in the table is one of the new table
    have hkey : ∀ e ∈
        (addresses.foldl (fun t a => putSome t (codePut keccak w' final a)) t).entries,
        ∃ v, (e.1, v) ∈ t'.entries := by
      have hput (t : PlainTable) (ht : ∀ e ∈ t.entries, ∃ v, (e.1, v) ∈ t'.entries)
          (l : List Address) : ∀ e ∈
            (l.foldl (fun t a => putSome t (codePut keccak w' final a)) t).entries,
            ∃ v, (e.1, v) ∈ t'.entries := by
        induction l generalizing t with
        | nil => exact ht
        | cons a l ih =>
          refine ih _ fun e he => ?_
          rcases (get_putSome _ _).mp (PlainTable.get_eq_some.mpr he) with h | ⟨-, h⟩
          · obtain ⟨account, v, -, -, hv, he'⟩ := codePut_eq_some.mp h
            exact ⟨v, (hnew _).mpr ⟨a, account.incarnation, v, hv, by rw [(Prod.mk.inj he').1]⟩⟩
          · exact ht e (PlainTable.get_eq_some.mp h)
      refine hput t (fun e he => ?_) addresses
      obtain ⟨a, i, v, hv, rfl⟩ := (hold e).mp he
      obtain ⟨u, hu⟩ := Option.ne_none_iff_exists'.mp (hmono a i (by simp [hv]))
      exact ⟨u, (hnew _).mpr ⟨a, i, u, hu, rfl⟩⟩
    have hvalue : ∀ e ∈ t'.entries,
        (addresses.foldl (fun t a => putSome t (codePut keccak w' final a)) t).get e.1 =
          some e.2 := by
      intro e he
      obtain ⟨a, i, v, hv, rfl⟩ := (hnew e).mp he
      exact hfound a i v hv
    refine PlainTable.ext_of_get fun k => Option.ext fun v => ⟨fun h => ?_, fun h => ?_⟩
    · obtain ⟨u, hu⟩ := hkey _ (PlainTable.get_eq_some.mp h)
      rw [Option.some.inj (h.symm.trans (hvalue _ hu))]
      exact PlainTable.get_eq_some.mpr hu
    · exact hvalue _ (PlainTable.get_eq_some.mp h)

/-- A contract has slots under its key if and only if it had some at the start. -/
theorem get_hashedSlotKey_ne_none_iff {t : Table}
    (hold : ∀ e, e ∈ t.entries ↔ ∃ a i location, w.storage a i location ≠ default ∧
      e = (hashedSlotKey keccak a i, location.val ++ zerolessView (w.storage a i location)))
    {a : Address} (hinj : ∀ {a' : Address}, (∃ i location, w.storage a' i location ≠ default) →
      keccak a.val = keccak a'.val → a = a') (i : Uint64) :
    t.get (hashedSlotKey keccak a i) ≠ none ↔ ∃ location, w.storage a i location ≠ default := by
  rw [ne_eq, Table.get_eq_none_iff, not_forall_not]
  constructor
  · rintro ⟨v, hv⟩
    obtain ⟨a', i', location, hne, he⟩ := (hold _).mp hv
    obtain ⟨hhash, rfl⟩ := hashedSlotKey_injective (Prod.mk.inj he).1
    cases hinj ⟨i, location, hne⟩ hhash
    exact ⟨location, hne⟩
  · rintro ⟨location, hne⟩
    exact ⟨_, (hold _).mpr ⟨a, i, location, hne, rfl⟩⟩

end Promotion

section Runs

/-- The contract has a slot. -/
def HasSlot (tables : Tables) (a : Address) (i : Uint64) : Prop :=
  ∃ location, readStorage tables a i location ≠ some default

/-- No contract got its first slot, and a new code hash belongs to the contract that is there
now. -/
structure Unreported (start final : Tables) : Prop where
  slot : ∀ a i, HasSlot final a i → HasSlot start a i
  code : ∀ (a : Address) (i : Uint64) (codeHash : Bytes),
    final.plainContractCode.get (storagePrefix a.val i) = some codeHash →
    start.plainContractCode.get (storagePrefix a.val i) = some codeHash ∨
      i ≠ 0 ∧ ∃ account, readAccount final a = some (some account) ∧ account.incarnation = i

variable {keccak : Bytes → Bytes32} {tables : Tables} {w : World}

theorem Stores.hasSlot_iff (h : Stores w tables.plainState) (a : Address) (i : Uint64) :
    HasSlot tables a i ↔ ∃ location, w.storage a i location ≠ default := by
  simp only [HasSlot, h.readStorage, ne_eq, Option.some.injEq]

theorem Unremoved.unreported {start final : Tables} (h : Unremoved start final) :
    Unreported start final where
  slot a i := by
    rintro ⟨location, hne⟩
    exact ⟨location, by rwa [← h.storage]⟩
  code := h.code

/-- The tables of a clean promotion pass the checks. -/
theorem checkHashState_promoteClean (h : WellFormed tables)
    (hinj : ∀ {a a' : Address}, Present tables a → Present tables a' →
      keccak a.val = keccak a'.val → a = a') :
    ∃ hashed, promoteClean keccak tables = some hashed ∧
      checkHashState keccak tables hashed = some [] := by
  obtain ⟨w, hw⟩ := h.state
  obtain ⟨hashed, hrun, haccounts, hstorage, hcodes⟩ := exists_promoteClean h hw hinj
  obtain ⟨accounts, haccount, haccount_iff⟩ := @check_hashAccount keccak tables w hashed hw
  obtain ⟨storage, hslot, hslot_iff⟩ := @check_hashStorage keccak tables w hashed hw
  obtain ⟨code, hcode, hcode_iff⟩ := @check_code keccak tables hashed h
  have hnil : accounts = [] := haccount_iff.mpr fun a account ha =>
    PlainTable.get_eq_some.mpr ((haccounts _).mpr ⟨a, accountPut_eq_some.mpr ⟨account, ha, rfl⟩⟩)
  have hnil' : storage = [] := hslot_iff.mpr fun a i => by
    rintro ⟨location, hne⟩
    rw [ne_eq, Table.get_eq_none_iff, not_forall_not]
    exact ⟨_, (hstorage _).mpr ⟨a, i, location, hne, rfl⟩⟩
  have hnil'' : code = [] := hcode_iff.mpr fun a i v hv =>
    PlainTable.get_eq_some.mpr ((hcodes _).mpr ⟨a, i, v, hv, rfl⟩)
  subst hnil hnil' hnil''
  refine ⟨hashed, hrun, ?_⟩
  rw [checkHashState, haccount, hslot, hcode]
  rfl

section Unchanged

variable {start : Tables} {batches : List (List ExecutedBlock)} {w' : World}
  {addresses : List Address} (hchanged : ∀ block ∈ batches.flatten, ∀ a initial current,
    .account a initial current ∈ block.2.updates → current ≠ initial → a ∈ addresses)

include hchanged

/-- An address that is not among those with changes has the account that it had. -/
theorem accountPut_eq_of_not_mem (h : WellFormed start) (hw : Stores w start.plainState)
    (hw' : Stores w' (executeBatches start batches).plainState) {a : Address} (ha : a ∉ addresses) :
    accountPut keccak w a = accountPut keccak w' a := by
  have hget : (executeBatches start batches).plainState.get a.val = start.plainState.get a.val := by
    by_contra hne
    obtain ⟨block, hb, initial, current, hu, hc⟩ := h.exists_account_change hne
    exact ha (hchanged block hb a initial current hu hc)
  rw [hw.get, hw'.get] at hget
  have hpair := congrArg (Option.map fun v => (((keccak a.val).val, v) : Entry)) hget
  rw [Option.map_map, Option.map_map] at hpair
  exact hpair.symm

/-- A code hash is put with the account whose code it is. -/
theorem plainContractCode_eq_of_not_mem {a : Address} (ha : a ∉ addresses) (i : Uint64) :
    (executeBatches start batches).plainContractCode.get (storagePrefix a.val i) =
      start.plainContractCode.get (storagePrefix a.val i) := by
  by_contra hne
  obtain ⟨block, hb, a', i', codeHash, bytes, hu, hkey⟩ := exists_code_change hne
  obtain ⟨rfl, rfl⟩ := storagePrefix_injective hkey
  obtain ⟨initial, account, hu, hi, hnew⟩ := block.2.account_mem_of_code_mem hu
  refine ha (hchanged block hb a initial _ hu fun heq => hnew ?_)
  rw [← heq, Option.map_some, hi]

end Unchanged

theorem checkHashState_promoted {start : Tables} (h : WellFormed start)
    {batches : List (List ExecutedBlock)} {progress : Uint64}
    (hnum : ∀ block ∈ batches.flatten, progress.toNat < block.1.toNat)
    (hinj : ∀ {a a' : Address}, Present start a ∨ Present (executeBatches start batches) a →
      Present start a' ∨ Present (executeBatches start batches) a' →
      keccak a.val = keccak a'.val → a = a') :
    ∃ hashed hashed' reports, promoteClean keccak start = some hashed ∧
      promoteIncrementally keccak progress (executeBatches start batches) hashed = some hashed' ∧
      check keccak .hashAccount (executeBatches start batches) hashed' = some [] ∧
      checkHashState keccak (executeBatches start batches) hashed' = some reports ∧
      (reports = [] ↔ Unreported start (executeBatches start batches)) := by
  obtain ⟨w, hw⟩ := h.state
  have h' := h.executeBatches batches
  obtain ⟨w', hw'⟩ := h'.state
  obtain ⟨addresses, hchanged, haccount, hcode_promote⟩ :=
    @exists_promoted keccak start batches progress h hnum w' hw'
  obtain ⟨hashed, hrun, haccounts, hstorage, hcodes⟩ := exists_promoteClean h hw fun ha ha' =>
    hinj (.inl ha) (.inl ha')
  obtain ⟨clean, hrun', haccounts', hstorage', hcodes'⟩ := exists_promoteClean h' hw' fun ha ha' =>
    hinj (.inr ha) (.inr ha')
  obtain ⟨t, ht⟩ : ∃ t, t = addresses.foldl (fun t a => putSome t (accountPut keccak w' a))
    hashed.hashedAccounts := ⟨_, rfl⟩
  obtain ⟨t', ht'⟩ : ∃ t', t' = addresses.foldl (fun t a =>
    putSome t (codePut keccak w' (executeBatches start batches) a)) hashed.contractCode := ⟨_, rfl⟩
  obtain ⟨accounts, haccounts_run, haccounts_iff⟩ :=
    @check_hashAccount keccak _ w' ⟨⟨t, hashed.hashedStorage⟩, t'⟩ hw'
  obtain ⟨storage, hstorage_run, hstorage_iff⟩ :=
    @check_hashStorage keccak _ w' ⟨⟨t, hashed.hashedStorage⟩, t'⟩ hw'
  obtain ⟨code, hcode_run, hcode_iff⟩ := @check_code keccak _ ⟨⟨t, hashed.hashedStorage⟩, t'⟩ h'
  have hnil : accounts = [] := haccounts_iff.mpr fun a account ha => ht ▸
    get_promoted_account haccounts (fun a ha => accountPut_eq_of_not_mem hchanged h hw hw' ha)
      (fun ha ha' => hinj (.inr (hw'.present_of_occupied (.inl ha)))
        (.inr (hw'.present_of_occupied (.inl ha')))) ha
  have hslot : storage = [] ↔
      ∀ a i, HasSlot (executeBatches start batches) a i → HasSlot start a i := by
    rw [hstorage_iff]
    simp only [hw.hasSlot_iff, hw'.hasSlot_iff]
    refine forall_congr' fun a => forall_congr' fun i => forall_congr' fun hs => ?_
    obtain ⟨location, hne⟩ := hs
    exact get_hashedSlotKey_ne_none_iff hstorage (fun ha' =>
      hinj (.inr (hw'.present_of_occupied (.inr ⟨i, location, hne⟩)))
        (.inl (hw.present_of_occupied (.inr ha')))) i
  have hcode : code = [] ↔ ∀ (a : Address) (i : Uint64) (codeHash : Bytes),
      (executeBatches start batches).plainContractCode.get (storagePrefix a.val i) = some codeHash →
      start.plainContractCode.get (storagePrefix a.val i) = some codeHash ∨
        i ≠ 0 ∧ ∃ account, readAccount (executeBatches start batches) a = some (some account) ∧
          account.incarnation = i := by
    simp only [hw'.exists_incarnation_iff]
    have hmono (a : Address) (i : Uint64)
        (hne : start.plainContractCode.get (storagePrefix a.val i) ≠ none) :=
      plainContractCode_ne_none hne batches
    rw [hcode_iff, ht', ← promoted_code_eq_iff hcodes hcodes' hmono]
    exact codes_agree_iff hcodes hcodes' (fun a ha => plainContractCode_eq_of_not_mem hchanged ha)
      hmono fun ha ha' => hinj (.inr (.inr (.inr ha))) (.inr (.inr (.inr ha')))
  subst hnil
  refine ⟨hashed, ⟨⟨t, hashed.hashedStorage⟩, t'⟩, storage ++ code, hrun, ?_, haccounts_run, ?_, ?_⟩
  · rw [promoteIncrementally, haccount, Option.bind_eq_bind, Option.bind_some,
      promote_hashStorage h', Option.bind_some, hcode_promote, ht, ht']
  · rw [checkHashState, haccounts_run, hstorage_run, hcode_run]
    rfl
  · rw [List.append_eq_nil_iff, hslot, hcode]
    exact ⟨fun hs => ⟨hs.1, hs.2⟩, fun hs => ⟨hs.slot, hs.code⟩⟩

/-- After any run of blocks the incremental promotion passes the checks if and only if no contract
got its first slot and every new code hash is of a contract that is there. No account is ever
reported. -/
theorem checkHashState_eq_nil_iff {genesis start final : Tables} (hg : WellFormed genesis)
    {before after : List (List ExecutedBlock)} (hstart : start = executeBatches genesis before)
    (hfinal : final = executeBatches start after) {progress : Uint64}
    (hnum : ∀ block ∈ after.flatten, progress.toNat < block.1.toNat)
    (hinj : ∀ a a' : Address, Present start a ∨ Present final a →
      Present start a' ∨ Present final a' → keccak a.val = keccak a'.val → a = a') :
    ∃ hashed hashed' reports, promoteClean keccak start = some hashed ∧
      promoteIncrementally keccak progress final hashed = some hashed' ∧
      check keccak .hashAccount final hashed' = some [] ∧
      checkHashState keccak final hashed' = some reports ∧
      (reports = [] ↔ Unreported start final) := by
  subst hstart hfinal
  exact checkHashState_promoted (hg.executeBatches before) hnum (hinj _ _)

/-- The check does not find the contract that is destroyed. -/
theorem checkHashState_destroyed :
    ∃ hashed hashed',
      promoteClean promotedKeccak (executeBatches {} contractCreated) = some hashed ∧
      promoteIncrementally promotedKeccak 1 (executeBatches (executeBatches {} contractCreated)
        (contractChangedLater none)) hashed = some hashed' ∧
      checkHashState promotedKeccak (executeBatches (executeBatches {} contractCreated)
        (contractChangedLater none)) hashed' = some [] := by
  obtain ⟨hstart, hfinal⟩ := stores_contractChanged none
  obtain ⟨hashed, hashed', reports, hrun, hrun', -, hcheck, hiff⟩ :=
    @checkHashState_eq_nil_iff promotedKeccak {} _ _ wellFormed_empty contractCreated
      (contractChangedLater none) rfl rfl 1 (fun block hb => by
        cases List.mem_singleton.mp hb
        decide) fun a a' => injective_contractChanged none
  have hnil : reports = [] := by
    refine hiff.mpr ⟨fun a i hs => ?_, fun a i codeHash hcode => ?_⟩
    · rw [hfinal.hasSlot_iff] at hs
      rwa [hstart.hasSlot_iff]
    · left
      by_contra hne
      rw [← hcode] at hne
      obtain ⟨block, hb, a', i', codeHash', bytes, hu, -⟩ := exists_code_change (Ne.symm hne)
      cases List.mem_singleton.mp hb
      cases List.mem_singleton.mp hu
  exact ⟨hashed, hashed', hrun, hrun', hnil ▸ hcheck⟩

end Runs

end Silkworm.Db
