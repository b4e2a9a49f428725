import Silkworm.AccountBounds
import Silkworm.ExecutedBatches
import Silkworm.HashedState

/-!
# The incremental promotion of the hashed state

The hashed tables are brought up to date from the change sets. An account that is gone is not
removed, a slot is looked up under a key that the table of the state does not have, and of the
code hashes only those are found that belong to an account as it is now.
-/

namespace Silkworm.Db
open BigEndian Rlp ViewParsers SortedTables MemoryBuffer

/-- The tables that the stage fills. -/
structure HashStateTables extends HashedTables where
  contractCode : PlainTable := {}
  deriving DecidableEq

/-- Which table is filled. -/
inductive Operation
  | hashAccount
  | hashStorage
  | code
  deriving DecidableEq

/-- The position moves on, maybe past the end. -/
def skip (len : ℕ) : Decoder Unit := fun s => .ok () (s.drop len)

def skipField : Decoder Unit := do
  let len ← fieldLength
  skip len

def extractIncarnation : Decoder Uint64 := do
  let fields ← peek
  removePrefix 1
  ifSet (fields &&& 1) skipField ()
  ifSet (fields &&& 2) skipField ()
  ifSet (fields &&& 4) (do
    let len ← fieldLength
    let be ← substr len
    readStoredUint64 be) 0

def convertToDbFormat (key value : Bytes) : Option Bytes :=
  if key.length = 8 then some (value.take kAddressLength)
  else if key.length < 8 + kStoragePrefixLength ∨ value.length < kHashLength then none
  else some ((key.drop 8).take kStoragePrefixLength ++ value.take kHashLength)

section Stage

variable (keccak : Bytes → Bytes32)

def hashedCodeEntry (e : Entry) : Option Entry :=
  if e.1.length < kStoragePrefixLength then none
  else some ((keccak (e.1.take kAddressLength)).val ++
    (e.1.drop kAddressLength).take kIncarnationLength, e.2)

/-- As in `promoteCleanState`, the key of eight zeros is assumed to be still there. -/
def promoteCleanCode (plainContractCode contractCode : PlainTable) : Option PlainTable := do
  let entries ← (plainContractCode.entries.dropWhile fun e => e.1 < List.replicate 8 0).mapM
    (hashedCodeEntry keccak)
  (etlSorted entries).foldlM (fun t e => putAppend t e.1 e.2) contractCode

/-- Both promotions into cleared tables. -/
def promoteClean (tables : Tables) : Option HashStateTables := do
  let hashed ← promoteCleanState keccak tables.plainState {}
  let contractCode ← promoteCleanCode keccak tables.plainContractCode {}
  some { hashed with contractCode }

/-- The code hash of the incarnation that the account has now. -/
def promoteCode (tables : Tables) (dbKey : Bytes) (hashed : HashStateTables) :
    Option HashStateTables :=
  match tables.plainState.get dbKey with
  | none => some hashed
  | some encodedAccount =>
    match extractIncarnation encodedAccount with
    | .ok incarnation _ =>
      if incarnation = 0 then some hashed
      else
        match tables.plainContractCode.get (storagePrefix (dbKey.take kAddressLength) incarnation) with
        | none => some hashed
        | some codeHash => some { hashed with
            contractCode := hashed.contractCode.put
              (storagePrefix (keccak (dbKey.take kAddressLength)).val incarnation) codeHash }
    | _ => none

/-- One change. -/
def promoteChange (operation : Operation) (tables : Tables) (hashed : HashStateTables) (e : Entry) :
    Option HashStateTables := do
  let dbKey ← convertToDbFormat e.1 e.2
  match operation with
  | .hashAccount =>
    match tables.plainState.get dbKey with
    | none => some hashed
    | some value =>
      some { hashed with hashedAccounts := hashed.hashedAccounts.put (keccak dbKey).val value }
  | .hashStorage =>
    match tables.plainState.get dbKey with
    | none => some hashed
    | some value => some { hashed with
        hashedStorage := hashed.hashedStorage.putDup
          ((keccak (dbKey.take kAddressLength)).val ++
            ((dbKey.drop kAddressLength).take kIncarnationLength ++
              (keccak (dbKey.drop kStoragePrefixLength)).val)) value }
  | .code => promoteCode keccak tables dbKey hashed

/-- `get_tables_for_promote`, the table to read from. -/
def changesetForPromote (operation : Operation) (tables : Tables) : Table :=
  match operation with
  | .hashAccount => tables.plainAccountChangeSet
  | .hashStorage => tables.plainStorageChangeSet
  | .code => tables.plainAccountChangeSet

/-- The changes of the blocks after the last that was processed. -/
def promote (operation : Operation) (progress : Uint64) (tables : Tables)
    (hashed : HashStateTables) : Option HashStateTables :=
  ((changesetForPromote operation tables).entries.dropWhile fun e => e.1 < bigU64 (progress + 1)).foldlM
    (promoteChange keccak operation tables) hashed

def promoteIncrementally (progress : Uint64) (tables : Tables) (hashed : HashStateTables) :
    Option HashStateTables := do
  let hashed ← promote keccak .hashAccount progress tables hashed
  let hashed ← promote keccak .hashStorage progress tables hashed
  promote keccak .code progress tables hashed

end Stage

section Incarnations

theorem skipField_lengthPrefixed {be : Bytes} (h : be.length < 256) (r : Bytes) :
    skipField (lengthPrefixed be ++ r) = .ok () r := by
  rw [skipField, bind_of_ok (fieldLength_lengthPrefixed h r), skip, List.drop_left' rfl]

/-- A field is skipped as far as it is read, whatever follows. -/
theorem skipField_of_reads {f : StoredField} {α : Type} {p : Decoder α} (hp : Reads f p)
    {s r : Bytes} {x : α} (h : p s = .ok x r) (t : Bytes) : skipField (s ++ t) = .ok () (r ++ t) := by
  obtain ⟨be, hword, rfl⟩ := hp.word s x r h
  rw [List.append_assoc, skipField_lengthPrefixed hword.1.length_lt]

theorem ifSet_skipField {f : StoredField} {α : Type} {bit : UInt8} {p : Decoder α} {d : α}
    (hp : Reads f p) {s r : Bytes} {x : α} (h : ifSet bit p d s = .ok x r) (t : Bytes) :
    ifSet bit skipField () (s ++ t) = .ok () (r ++ t) := by
  by_cases hbit : bit ≠ 0
  · rw [ifSet, if_pos hbit] at h ⊢
    exact skipField_of_reads hp h t
  · rw [ifSet, if_neg hbit] at h ⊢
    cases h
    rfl

/-- The number is read from the bytes that its length announces, whatever follows. -/
theorem ifSet_readIncarnation {bit : UInt8} {s r : Bytes} {i : Uint64}
    (h : ifSet bit (storedField readStoredUint64) 0 s = .ok i r) : ∃ r', ∀ t, ifSet bit (do
      let len ← fieldLength
      let be ← substr len
      readStoredUint64 be) 0 (s ++ t) = .ok i (r' ++ t) := by
  by_cases hbit : bit ≠ 0
  · simp only [ifSet, if_pos hbit] at h ⊢
    cases s with
    | nil => cases h
    | cons len s =>
      rw [storedField_cons] at h
      split_ifs at h with hlen
      obtain ⟨x, m, hread, h⟩ := bind_eq_ok.mp h
      obtain ⟨-, m', -, h⟩ := bind_eq_ok.mp h
      cases h
      refine ⟨s, fun t => ?_⟩
      rw [List.cons_append, bind_of_ok (fieldLength_apply _ _), bind_of_ok (substr_apply _ _),
        List.take_append_of_le_length (Nat.not_lt.mp hlen)]
      exact ofExcept_eq_ok.mpr ⟨(ofExcept_eq_ok.mp hread).1, rfl⟩
  · simp only [ifSet, if_neg hbit] at h ⊢
    cases h
    exact ⟨s, fun t => rfl⟩

/-- What the decoder accepts has the same incarnation for both, and nothing is read after it. -/
theorem extractIncarnation_of_decode {s r : Bytes} {account : Account} (hs : s ≠ [])
    (h : decodeAccountFromStorage s = .ok account r) :
    ∃ r', ∀ t, extractIncarnation (s ++ t) = .ok account.incarnation (r' ++ t) := by
  cases s with
  | nil => exact absurd rfl hs
  | cons fields s =>
    rw [decodeAccountFromStorage_cons, decodeAccountFields] at h
    obtain ⟨nonce, s₁, hnonce, h⟩ := bind_eq_ok.mp h
    obtain ⟨balance, s₂, hbalance, h⟩ := bind_eq_ok.mp h
    obtain ⟨incarnation, s₃, hincarnation, h⟩ := bind_eq_ok.mp h
    obtain ⟨codeHash, s₄, -, h⟩ := bind_eq_ok.mp h
    cases h
    obtain ⟨r', hr'⟩ := ifSet_readIncarnation hincarnation
    refine ⟨r', fun t => ?_⟩
    rw [List.cons_append, extractIncarnation, bind_of_ok (peek_cons _ _),
      bind_of_ok (removePrefix_one_cons _ _),
      bind_of_ok (ifSet_skipField (reads_uint64 (.inl rfl)) hnonce t),
      bind_of_ok (ifSet_skipField reads_balance hbalance t), hr']

theorem exists_extractIncarnation (account : Account) (omitCodeHash : Bool) :
    ∃ r, ∀ t, extractIncarnation (account.encodeForStorage omitCodeHash ++ t) =
      .ok account.incarnation (r ++ t) := by
  have hne : account.encodeForStorage omitCodeHash ≠ [] := List.cons_ne_nil _ _
  obtain ⟨s, h⟩ := decodeAccountFromStorage_encodeForStorage account omitCodeHash
  obtain ⟨r, hr⟩ := extractIncarnation_of_decode hne h
  exact ⟨r, hr⟩

/-- The incarnation of an account is found in what is stored of it. -/
theorem extractIncarnation_encodeForStorage (account : Account) (omitCodeHash : Bool) :
    ∃ r, extractIncarnation (account.encodeForStorage omitCodeHash) =
      .ok account.incarnation r := by
  obtain ⟨r, hr⟩ := exists_extractIncarnation account omitCodeHash
  have hnil := hr []
  rw [List.append_nil] at hnil
  exact ⟨_, hnil⟩

/-- The incarnation that is extracted from a stored account is that of the decoded one. Nothing
outside of the encoding is read, so that it does not matter what follows. -/
theorem extractIncarnation_refines_decode (account : Account) (omitCodeHash : Bool) :
    ∃ decoded s r, decodeAccountFromStorage (account.encodeForStorage omitCodeHash) = .ok decoded s ∧
      decoded.incarnation = account.incarnation ∧
      extractIncarnation (account.encodeForStorage omitCodeHash) = .ok account.incarnation r ∧
      ∀ t, extractIncarnation (account.encodeForStorage omitCodeHash ++ t) =
        .ok account.incarnation (r ++ t) := by
  obtain ⟨s, h⟩ := decodeAccountFromStorage_encodeForStorage account omitCodeHash
  obtain ⟨r, hr⟩ := exists_extractIncarnation account omitCodeHash
  refine ⟨_, s, r, h, rfl, ?_, hr⟩
  have hnil := hr []
  rwa [List.append_nil, List.append_nil] at hnil

end Incarnations

section Clean

variable {keccak : Bytes → Bytes32} {code : PlainTable}

def HasCodeHash (code : PlainTable) (a : Address) : Prop :=
  ∃ i v, code.get (storagePrefix a.val i) = some v

theorem hashedCodeKey_injective {a a' : Address} {i i' : Uint64}
    (h : storagePrefix (keccak a.val).val i = storagePrefix (keccak a'.val).val i') :
    keccak a.val = keccak a'.val ∧ i = i' := by
  obtain ⟨hhash, hi⟩ := List.append_inj h
    ((keccak a.val).property.trans (keccak a'.val).property.symm)
  exact ⟨Subtype.ext hhash, bigU64_injective hi⟩

/-- The code hashes are put under hashed keys. -/
theorem exists_promoteCleanCode
    (hcode : ∀ e ∈ code.entries, ∃ (a : Address) (i : Uint64) (codeHash : Bytes32),
      e = (storagePrefix a.val i, codeHash.val))
    (hinj : ∀ {a a' : Address}, HasCodeHash code a → HasCodeHash code a' →
      keccak a.val = keccak a'.val → a = a') :
    ∃ t, promoteCleanCode keccak code {} = some t ∧ ∀ e, e ∈ t.entries ↔
      ∃ (a : Address) (i : Uint64) (v : Bytes), code.get (storagePrefix a.val i) = some v ∧
        e = (storagePrefix (keccak a.val).val i, v) := by
  have hentry (a : Address) (i : Uint64) (v : Bytes) :
      hashedCodeEntry keccak (storagePrefix a.val i, v) =
        some (storagePrefix (keccak a.val).val i, v) := by
    have hlen := length_storagePrefix a i
    have hinc : (bigU64 i).take kIncarnationLength = bigU64 i :=
      List.take_of_length_le (length_bigU64 i).le
    rw [hashedCodeEntry, if_neg (by rw [hlen]; exact lt_irrefl _), storagePrefix,
      List.take_left' a.property, List.drop_left' a.property, hinc]
    rfl
  have hmem (x : Entry) : x ∈ code.entries.filterMap (hashedCodeEntry keccak) ↔
      ∃ (a : Address) (i : Uint64) (v : Bytes), code.get (storagePrefix a.val i) = some v ∧
        x = (storagePrefix (keccak a.val).val i, v) := by
    rw [List.mem_filterMap]
    constructor
    · rintro ⟨e, he, hx⟩
      obtain ⟨a, i, codeHash, rfl⟩ := hcode e he
      rw [hentry] at hx
      exact ⟨a, i, _, PlainTable.get_eq_some.mpr he, (Option.some.inj hx).symm⟩
    · rintro ⟨a, i, v, hv, rfl⟩
      exact ⟨_, PlainTable.get_eq_some.mp hv, hentry a i v⟩
  have hall : (code.entries.dropWhile fun e => e.1 < List.replicate 8 0) = code.entries := by
    refine dropWhile_zeros fun e he => ?_
    obtain ⟨a, i, codeHash, rfl⟩ := hcode e he
    rw [length_storagePrefix]
    decide
  have hsome : ∀ e ∈ code.entries, ∃ x, hashedCodeEntry keccak e = some x := by
    intro e he
    obtain ⟨a, i, codeHash, rfl⟩ := hcode e he
    exact ⟨_, hentry a i _⟩
  have hkeys : ∀ x ∈ code.entries.filterMap (hashedCodeEntry keccak),
      ∀ y ∈ code.entries.filterMap (hashedCodeEntry keccak), x.1 = y.1 → x = y := by
    intro x hx y hy heq
    obtain ⟨a, i, v, hv, rfl⟩ := (hmem x).mp hx
    obtain ⟨a', i', v', hv', rfl⟩ := (hmem y).mp hy
    obtain ⟨hhash, rfl⟩ := hashedCodeKey_injective heq
    cases hinj ⟨i, v, hv⟩ ⟨i, v', hv'⟩ hhash
    rw [Option.some.inj (hv.symm.trans hv')]
  have hnodup : (code.entries.filterMap (hashedCodeEntry keccak)).Nodup := by
    refine nodup_filterMap code.nodup_entries fun e he e' he' z hz hz' => ?_
    obtain ⟨a, i, codeHash, rfl⟩ := hcode e he
    obtain ⟨a', i', codeHash', rfl⟩ := hcode e' he'
    rw [hentry] at hz hz'
    obtain ⟨hkey, hvalue⟩ := Prod.mk.inj (Option.some.inj (hz.trans hz'.symm))
    obtain ⟨hhash, rfl⟩ := hashedCodeKey_injective hkey
    cases hinj ⟨i, _, PlainTable.get_eq_some.mpr he⟩ ⟨i, _, PlainTable.get_eq_some.mpr he'⟩ hhash
    rw [hvalue]
  obtain ⟨t, hload, hmemt⟩ := exists_load hnodup hkeys
  refine ⟨t, ?_, fun e => (hmemt e).trans (hmem e)⟩
  rw [promoteCleanCode, hall, mapM_eq_filterMap hsome]
  exact hload

end Clean

section Changes

variable (keccak : Bytes → Bytes32) (w : World) (tables : Tables)

/-- What is put for a changed account. -/
def accountPut (a : Address) : Option Entry :=
  (w.account a).map fun account => ((keccak a.val).val, account.encodeForStorage false)

/-- What is put for the code of a changed account. -/
def codePut (a : Address) : Option Entry :=
  (w.account a).bind fun account =>
    if account.incarnation = 0 then none
    else (tables.plainContractCode.get (storagePrefix a.val account.incarnation)).map fun v =>
      (storagePrefix (keccak a.val).val account.incarnation, v)

def putSome (t : PlainTable) : Option Entry → PlainTable
  | none => t
  | some e => t.put e.1 e.2

theorem get_putSome (t : PlainTable) (x : Option Entry) {k v : Bytes} :
    (putSome t x).get k = some v ↔ x = some (k, v) ∨ (∀ v, x ≠ some (k, v)) ∧ t.get k = some v := by
  cases x with
  | none => simp [putSome]
  | some e =>
    obtain ⟨k', v'⟩ := e
    rw [putSome, PlainTable.get_put]
    by_cases hk : k = k'
    · subst hk
      simp
    · rw [if_neg hk]
      simp [Ne.symm hk]

/-- Of the values that are put under a key, which are the same, one is there in the end. -/
theorem get_foldl_putSome {X : Type} {put : X → Option Entry}
    (hput : ∀ x x' k v v', put x = some (k, v) → put x' = some (k, v') → v = v') (l : List X)
    (t : PlainTable) {k v : Bytes} :
    (l.foldl (fun t x => putSome t (put x)) t).get k = some v ↔
      (∃ x ∈ l, put x = some (k, v)) ∨ (∀ x ∈ l, ∀ v, put x ≠ some (k, v)) ∧ t.get k = some v := by
  induction l generalizing t with
  | nil => simp
  | cons x l ih =>
    rw [List.foldl_cons, ih, get_putSome]
    simp only [List.exists_mem_cons_iff, List.forall_mem_cons]
    constructor
    · rintro (h | ⟨hl, h | ⟨hx, h⟩⟩)
      · exact .inl (.inr h)
      · exact .inl (.inl h)
      · exact .inr ⟨⟨hx, hl⟩, h⟩
    · rintro ((h | h) | ⟨⟨hx, hl⟩, h⟩)
      · by_cases hex : ∃ y ∈ l, ∃ v', put y = some (k, v')
        · obtain ⟨y, hy, v', hv'⟩ := hex
          cases hput x y k v v' h hv'
          exact .inl ⟨y, hy, hv'⟩
        · push Not at hex
          exact .inr ⟨hex, .inl h⟩
      · exact .inl h
      · exact .inr ⟨hl, .inr ⟨hx, h⟩⟩

variable {keccak w tables} (hw : Stores w tables.plainState) (hashed : HashStateTables)

theorem convertToDbFormat_account (n : Uint64) (a : Address) (bytes : Bytes) :
    convertToDbFormat (blockKey n) (a.val ++ bytes) = some a.val := by
  have hlen : (blockKey n).length = 8 := length_bigU64 n
  rw [convertToDbFormat, if_pos hlen, List.take_left' a.property]

include hw

theorem promoteChange_hashAccount (n : Uint64) (a : Address) (bytes : Bytes) :
    promoteChange keccak .hashAccount tables hashed (blockKey n, a.val ++ bytes) =
      some { hashed with hashedAccounts := putSome hashed.hashedAccounts (accountPut keccak w a) } := by
  rw [promoteChange, convertToDbFormat_account, Option.bind_eq_bind, Option.bind_some, hw.get,
    accountPut]
  cases w.account a <;> rfl

theorem promoteChange_code (n : Uint64) (a : Address) (bytes : Bytes) :
    promoteChange keccak .code tables hashed (blockKey n, a.val ++ bytes) =
      some { hashed with contractCode := putSome hashed.contractCode (codePut keccak w tables a) } := by
  rw [promoteChange, convertToDbFormat_account, Option.bind_eq_bind, Option.bind_some]
  dsimp only
  rw [promoteCode, hw.get, codePut]
  cases w.account a with
  | none => rfl
  | some account =>
    obtain ⟨r, hr⟩ := extractIncarnation_encodeForStorage account false
    rw [Option.map_some, Option.bind_some]
    dsimp only
    rw [hr]
    dsimp only
    rw [List.take_of_length_le a.property.le]
    split_ifs with h0
    · rfl
    · cases tables.plainContractCode.get (storagePrefix a.val account.incarnation) <;> rfl

/-- There is no slot under the key that is looked up. -/
theorem promoteChange_hashStorage (n : Uint64) (a : Address) (i : Uint64) (location : Bytes32)
    (bytes : Bytes) :
    promoteChange keccak .hashStorage tables hashed
      (storageChangeKey n a i, location.val ++ bytes) = some hashed := by
  have hlen : (storageChangeKey n a i).length = 8 + kStoragePrefixLength := by
    rw [storageChangeKey, List.length_append, length_bigU64, length_storagePrefix]
  have hkey : convertToDbFormat (storageChangeKey n a i) (location.val ++ bytes) =
      some (storagePrefix a.val i ++ location.val) := by
    rw [convertToDbFormat, if_neg (by rw [hlen]; decide), if_neg, storageChangeKey,
      List.drop_left' (length_bigU64 n), List.take_of_length_le (length_storagePrefix a i).le,
      List.take_left' location.property]
    rw [hlen, List.length_append, location.property]
    omega
  have hnone : tables.plainState.get (storagePrefix a.val i ++ location.val) = none := by
    rw [Table.get_eq_none_iff]
    intro v hv
    rcases (hw _).mp hv with ⟨a', account, -, he⟩ | ⟨a', i', location', -, he⟩
    · have := congrArg List.length (Prod.mk.inj he).1
      rw [List.length_append, length_storagePrefix, location.property, a'.property] at this
      exact absurd this (by decide)
    · have := congrArg List.length (Prod.mk.inj he).1
      rw [List.length_append, length_storagePrefix, location.property, length_storagePrefix] at this
      exact absurd this (by decide)
  rw [promoteChange, hkey, Option.bind_eq_bind, Option.bind_some, hnone]

end Changes

section Loops

variable {keccak : Bytes → Bytes32} {tables : Tables}

/-- The loop over the changes of accounts is one over addresses. -/
theorem foldlM_promoteChange {operation : Operation}
    {step : HashStateTables → Address → HashStateTables}
    (hstep : ∀ hashed n (a : Address) bytes,
      promoteChange keccak operation tables hashed (blockKey n, a.val ++ bytes) = some (step hashed a))
    (changes : List (Uint64 × Address × Bytes)) (hashed : HashStateTables) :
    (changes.map fun x => (blockKey x.1, x.2.1.val ++ x.2.2)).foldlM
        (promoteChange keccak operation tables) hashed =
      some ((changes.map fun x => x.2.1).foldl step hashed) := by
  induction changes generalizing hashed with
  | nil => rfl
  | cons x changes ih =>
    rw [List.map_cons, List.foldlM_cons, hstep]
    exact ih _

theorem foldl_hashedAccounts (put : Address → Option Entry) (l : List Address)
    (hashed : HashStateTables) :
    l.foldl (fun (x : HashStateTables) a =>
        { x with hashedAccounts := putSome x.hashedAccounts (put a) }) hashed =
      { hashed with
        hashedAccounts := l.foldl (fun t a => putSome t (put a)) hashed.hashedAccounts } := by
  induction l generalizing hashed with
  | nil => rfl
  | cons a l ih => exact ih _

theorem foldl_contractCode (put : Address → Option Entry) (l : List Address)
    (hashed : HashStateTables) :
    l.foldl (fun (x : HashStateTables) a =>
        { x with contractCode := putSome x.contractCode (put a) }) hashed =
      { hashed with
        contractCode := l.foldl (fun t a => putSome t (put a)) hashed.contractCode } := by
  induction l generalizing hashed with
  | nil => rfl
  | cons a l ih => exact ih _

/-- The addresses whose changes are promoted, all those changed after the last promotion among
them. -/
theorem exists_promoted {start : Tables} {batches : List (List ExecutedBlock)} {progress : Uint64}
    (h : WellFormed start) (hnum : ∀ block ∈ batches.flatten, progress.toNat < block.1.toNat)
    {w : World} (hw : Stores w (executeBatches start batches).plainState) :
    ∃ addresses : List Address,
      (∀ block ∈ batches.flatten, ∀ a initial current,
        .account a initial current ∈ block.2.updates → current ≠ initial → a ∈ addresses) ∧
      (∀ hashed, promote keccak .hashAccount progress (executeBatches start batches) hashed =
        some { hashed with hashedAccounts := addresses.foldl (fun t a =>
          putSome t (accountPut keccak w a)) hashed.hashedAccounts }) ∧
      ∀ hashed, promote keccak .code progress (executeBatches start batches) hashed =
        some { hashed with contractCode := addresses.foldl (fun t a =>
          putSome t (codePut keccak w (executeBatches start batches) a)) hashed.contractCode } := by
  have hformat := (h.executeBatches batches).accountChanges
  have hentries : ∀ e ∈ (executeBatches start batches).plainAccountChangeSet.entries.dropWhile
      fun e => e.1 < bigU64 (progress + 1), ∃ x : Uint64 × Address × Bytes,
        True ∧ e = (blockKey x.1, x.2.1.val ++ x.2.2) := by
    intro e he
    obtain ⟨n, a, bytes, rfl⟩ := hformat e (List.dropWhile_subset _ he)
    exact ⟨(n, a, bytes), trivial, rfl⟩
  obtain ⟨changes, hl, -⟩ := exists_eq_map hentries
  refine ⟨changes.map fun x => x.2.1, fun block hb a initial current hm hc => ?_, fun hashed => ?_,
    fun hashed => ?_⟩
  · obtain ⟨bytes, hbytes⟩ : ∃ bytes, ∀ e, accountChangeEntry block.1 (.account a) bytes = some e →
        e ∈ (executeBatches start batches).plainAccountChangeSet.entries :=
      exists_mem_of_changes mem_accountChanges_flush hb hm hc rfl
    have hle : ¬blockKey block.1 < bigU64 (progress + 1) := by
      have := hnum block hb
      rw [blockKey, bigU64_lt_iff]
      have hlt := block.1.isLt
      have hsucc : (progress + 1).toNat = progress.toNat + 1 := by
        rw [BitVec.toNat_add]
        exact Nat.mod_eq_of_lt (by simp; omega)
      omega
    have hdrop := mem_dropWhile_of_not (p := fun e => decide (e.1 < bigU64 (progress + 1)))
      (hbytes _ rfl) (by simpa using hle)
    rw [hl, List.mem_map] at hdrop
    obtain ⟨x, hx, heq⟩ := hdrop
    obtain ⟨ha, -⟩ := List.append_inj (Prod.mk.inj heq).2 (x.2.1.property.trans a.property.symm)
    exact List.mem_map.mpr ⟨x, hx, Subtype.ext ha⟩
  · rw [promote, changesetForPromote, hl, foldlM_promoteChange fun hashed => promoteChange_hashAccount hw hashed]
    refine congrArg some ?_
    exact foldl_hashedAccounts _ _ hashed
  · rw [promote, changesetForPromote, hl, foldlM_promoteChange fun hashed => promoteChange_code hw hashed]
    refine congrArg some ?_
    exact foldl_contractCode _ _ hashed

/-- The slots are left as they are. -/
theorem promote_hashStorage {start : Tables} (h : WellFormed start) (progress : Uint64)
    (hashed : HashStateTables) : promote keccak .hashStorage progress start hashed = some hashed := by
  obtain ⟨w, hw⟩ := h.state
  rw [promote, changesetForPromote]
  have hformat : ∀ e ∈ start.plainStorageChangeSet.entries.dropWhile fun e =>
      e.1 < bigU64 (progress + 1),
      promoteChange keccak .hashStorage start hashed e = some hashed := by
    intro e he
    obtain ⟨n, a, i, location, bytes, rfl⟩ := h.storageChanges e (List.dropWhile_subset _ he)
    exact promoteChange_hashStorage hw hashed n a i location bytes
  generalize start.plainStorageChangeSet.entries.dropWhile (fun e =>
    e.1 < bigU64 (progress + 1)) = l at hformat
  induction l with
  | nil => rfl
  | cons e l ih =>
    obtain ⟨he, hl⟩ := List.forall_mem_cons.mp hformat
    rw [List.foldlM_cons, he]
    exact ih hl

end Loops

end Silkworm.Db
