import Silkworm.StateTables
import Silkworm.WrittenUpdates

/-!
# Flushes between batches of blocks

A buffer is flushed after a batch of blocks, and the next batch reads the tables. What it reads
is what the old buffer returned, as long as an account with an empty code is not given a code
hash that the tables hold for its incarnation.
-/

namespace Silkworm.Db
open SortedTables MemoryBuffer

/-- An account was updated to an incarnation. -/
def Used (us : List Update) (a : Address) (incarnation : Uint64) : Prop :=
  ∃ initial account, .account a initial (some account) ∈ us ∧ account.incarnation = incarnation

/-- The code of a contract is set at most once, and a contract is created with an incarnation
that was never used at its address. -/
def KeepsCode (us : List Update) : Update → Prop
  | .account a initial (some account) => account.incarnation ≠ 0 →
    if initial.map Account.incarnation = some account.incarnation then
      initial.map Account.codeHash = some kEmptyHash ∨
        initial.map Account.codeHash = some account.codeHash
    else ¬Used us a account.incarnation
  | _ => True

namespace Buffer

variable (b : Buffer)

def world : World where
  account a := (b.readAccount a).getD none
  storage a i location := (b.readStorage a i location).getD default

/-- A new buffer over the tables after the flush. -/
def reopen : Buffer := { txn := b.writeToDb.txn }

end Buffer

/-- The buffers over tables that hold nothing else than what was flushed into them, with the
updates that were made so far. -/
inductive Reaches : List Update → Buffer → Prop
  | start : Reaches [] { txn := some {} }
  | block {us : List Update} {b : Buffer} (h : Reaches us b) (n : Uint64) (s : IntraBlockState)
    (hr : ∀ u ∈ s.updates, u.Reports b.world) (hk : ∀ u ∈ s.updates, KeepsCode us u) :
    Reaches (us ++ s.updates) (s.writeToDb n b).1
  | flush {us : List Update} {b : Buffer} (h : Reaches us b) : Reaches us b.writeToDb
  | reopen {us : List Update} {b : Buffer} (h : Reaches us b) : Reaches us b.reopen

/-- There is a code hash for the incarnation of a contract. -/
def HasCode (tables : Tables) (b : Buffer) (a : Address) (i : Uint64) : Prop :=
  tables.plainContractCode.get (storagePrefix a.val i) ≠ none ∨
    b.maps.storagePrefixToCodeHash.find (storagePrefix a.val i) ≠ none

/-- The tables hold a world, which the buffer changes, and no code hash for an account without
code. -/
structure Intact (us : List Update) (tables : Tables) (w : World) (b : Buffer) : Prop where
  txn : b.maps.txn = some tables
  stores : Stores w tables.plainState
  incarnation : ∀ (a : Address) value, tables.incarnationMap.get a.val = some value →
    ∃ i, value = bigU64 i
  used : ∀ a i, HasCode tables b a i → Used us a i
  noCode : ∀ a account, (b.overlay w).account a = some account → account.incarnation ≠ 0 →
    account.codeHash = kEmptyHash → ¬HasCode tables b a account.incarnation

section Reads

variable {us : List Update} {tables : Tables} {w : World} {b : Buffer}

theorem Intact.restoreCodeHash (h : Intact us tables w b) {a : Address} {account : Account}
    (ha : (b.overlay w).account a = some account) : restoreCodeHash tables a account = account := by
  rw [Db.restoreCodeHash]
  split_ifs with hc
  · have hnone := h.noCode a account ha hc.1 hc.2
    rw [HasCode, not_or, not_not] at hnone
    rw [hnone.1]
  · rfl

theorem Intact.readAccount (h : Intact us tables w b) (a : Address) :
    b.readAccount a = some ((b.overlay w).account a) := by
  rw [b.readAccount_eq, h.txn]
  have hover : (b.overlay w).account a = (b.maps.accounts.find a).getD (w.account a) := rfl
  cases hf : b.maps.accounts.find a with
  | some account =>
    rw [hover, hf]
    rfl
  | none =>
    rw [hf, Option.getD_none] at hover
    dsimp only
    rw [h.stores.readAccount, hover]
    cases ha : w.account a with
    | none => rfl
    | some account => rw [Option.map_some, h.restoreCodeHash (hover.trans ha)]

theorem Intact.readStorage (h : Intact us tables w b) (a : Address) (i : Uint64)
    (location : Bytes32) :
    b.readStorage a i location = some ((b.overlay w).storage a i location) := by
  rw [b.readStorage_eq, h.txn]
  have hover : (b.overlay w).storage a i location =
      (b.maps.storage.find a i location).getD (w.storage a i location) := rfl
  cases hf : b.maps.storage.find a i location with
  | some value =>
    rw [hover, hf]
    rfl
  | none =>
    dsimp only
    rw [h.stores.readStorage, hover, hf]
    rfl

theorem Intact.world (h : Intact us tables w b) : b.world = b.overlay w := by
  ext1
  · funext a
    exact congrArg (Option.getD · none) (h.readAccount a)
  · funext a i location
    exact congrArg (Option.getD · default) (h.readStorage a i location)

/-- The bytes of an incarnation are read back. -/
theorem readPreviousIncarnation_bigU64 {a : Address} {i : Uint64}
    (h : tables.incarnationMap.get a.val = some (bigU64 i)) :
    readPreviousIncarnation tables a = some (some i) := by
  rw [readPreviousIncarnation, h]
  dsimp only
  rw [if_pos (length_bigU64 i), bigU64, BigEndian.ofBigEndian_fixedBigEndian, BitVec.ofNat_toNat,
    BitVec.setWidth_eq]

end Reads

section Updates

variable {us : List Update} {tables : Tables} {w : World} {b : Buffer}

theorem overlay_updateAccount {a : Address} {initial : Option Account}
    (hi : initial = (b.overlay w).account a) (current : Option Account) :
    (b.updateAccount a initial current).overlay w =
      Update.onWorld (b.overlay w) (.account a initial current) := by
  ext1
  · funext a'
    simp only [Buffer.overlay, Update.onWorld, b.maps_updateAccount] at hi ⊢
    by_cases heq : current = initial
    · rw [if_pos heq]
      split_ifs with ha
      · rw [ha, heq, hi]
      · rfl
    · rw [if_neg heq, HashMap.find_set]
      split_ifs <;> rfl
  · funext a' i location
    simp only [Buffer.overlay, Update.onWorld, b.maps_updateAccount]

theorem overlay_updateStorage {a : Address} {i : Uint64} {location initial : Bytes32}
    (hi : initial = (b.overlay w).storage a i location) (current : Bytes32) :
    (b.updateStorage a i location initial current).overlay w =
      Update.onWorld (b.overlay w) (.storage a i location initial current) := by
  ext1
  · funext a'
    simp only [Buffer.overlay, Update.onWorld, b.maps_updateStorage]
    split_ifs <;> rfl
  · funext a' i' location'
    simp only [Buffer.overlay, Update.onWorld, b.maps_updateStorage] at hi ⊢
    by_cases heq : current = initial
    · rw [if_pos heq]
      split_ifs with hk
      · cases hk
        rw [heq, hi]
      · rfl
    · rw [if_neg heq]
      dsimp only
      rw [StorageMap.find_set]
      split_ifs <;> rfl

theorem overlay_updateAccountCode (w : World) (a : Address) (i : Uint64) (codeHash : Bytes32)
    (bytes : Bytes) : (b.updateAccountCode a i codeHash bytes).overlay w = b.overlay w := by
  ext1
  · funext a'
    simp only [Buffer.overlay, b.maps_updateAccountCode]
  · funext a' i' location
    simp only [Buffer.overlay, b.maps_updateAccountCode]

theorem overlay_issue {u : Update} (hu : u.Reports (b.overlay w)) :
    (u.issue b).overlay w = u.onWorld (b.overlay w) := by
  cases u with
  | account a initial current => exact overlay_updateAccount hu current
  | code a i codeHash bytes => exact overlay_updateAccountCode w a i codeHash bytes
  | storage a i location initial current => exact overlay_updateStorage hu current

theorem overlay_foldl {vs : List Update} (hv : Update.Current (b.overlay w) vs) :
    (vs.foldl Update.issue b).overlay w = vs.foldl Update.onWorld (b.overlay w) := by
  induction vs generalizing b with
  | nil => rfl
  | cons v vs ih =>
    have hover := overlay_issue hv.1
    rw [List.foldl_cons, List.foldl_cons, ← hover]
    exact ih (by rw [hover]; exact hv.2)

theorem Used.append {a : Address} {i : Uint64} (h : Used us a i) (vs : List Update) :
    Used (us ++ vs) a i := by
  obtain ⟨initial, account, hm, hi⟩ := h
  exact ⟨initial, account, List.mem_append_left _ hm, hi⟩

theorem Intact.updateStorage (h : Intact us tables w b) {a : Address} {i : Uint64}
    {location initial : Bytes32} (hi : initial = (b.overlay w).storage a i location)
    (current : Bytes32) :
    Intact (us ++ [.storage a i location initial current]) tables w
      (b.updateStorage a i location initial current) := by
  have hmaps := b.maps_updateStorage a i location initial current
  have hcode : (b.updateStorage a i location initial current).maps.storagePrefixToCodeHash =
      b.maps.storagePrefixToCodeHash := by
    rw [hmaps]
    split_ifs <;> rfl
  refine ⟨?_, h.stores, h.incarnation, fun a' i' hc => ?_, fun a' account ha hne he hc => ?_⟩
  · rw [hmaps]
    split_ifs <;> exact h.txn
  · rw [HasCode, hcode] at hc
    exact (h.used a' i' hc).append _
  · rw [overlay_updateStorage hi] at ha
    rw [HasCode, hcode] at hc
    exact h.noCode a' account ha hne he hc

theorem Intact.updateAccount (h : Intact us tables w b) {a : Address} {initial : Option Account}
    (hi : initial = (b.overlay w).account a) {current : Option Account}
    (hk : KeepsCode us (.account a initial current)) :
    Intact (us ++ [.account a initial current]) tables w (b.updateAccount a initial current) := by
  have hmaps := b.maps_updateAccount a initial current
  have hcode : (b.updateAccount a initial current).maps.storagePrefixToCodeHash =
      b.maps.storagePrefixToCodeHash := by rw [hmaps]
  refine ⟨?_, h.stores, h.incarnation, fun a' i' hc => ?_, fun a' account ha hne he hc => ?_⟩
  · rw [hmaps]
    exact h.txn
  · rw [HasCode, hcode] at hc
    exact (h.used a' i' hc).append _
  · rw [overlay_updateAccount hi] at ha
    rw [HasCode, hcode] at hc
    simp only [Update.onWorld] at ha
    split_ifs at ha with heq
    · rw [heq] at hc
      subst ha
      have hk := hk hne
      split_ifs at hk with hinc
      · -- the account had no code before
        obtain ⟨account', rfl, hsame⟩ := Option.map_eq_some_iff.mp hinc
        rw [he, or_self] at hk
        rw [← hsame] at hne hc
        exact h.noCode a account' hi.symm hne (Option.some.inj hk) hc
      · exact hk (h.used a _ hc)
    · exact h.noCode a' account ha hne he hc

theorem Intact.updateAccountCode (h : Intact us tables w b) {a : Address} {account : Account}
    (ha : (b.overlay w).account a = some account) (hne : account.codeHash ≠ kEmptyHash)
    (hu : Used us a account.incarnation) (bytes : Bytes) :
    Intact (us ++ [.code a account.incarnation account.codeHash bytes]) tables w
      (b.updateAccountCode a account.incarnation account.codeHash bytes) := by
  have hmaps := b.maps_updateAccountCode a account.incarnation account.codeHash bytes
  have hcode {a' : Address} {i' : Uint64}
      (hc : HasCode tables (b.updateAccountCode a account.incarnation account.codeHash bytes) a' i') :
      a' = a ∧ i' = account.incarnation ∨ HasCode tables b a' i' := by
    rw [HasCode, hmaps] at hc
    rcases hc with hc | hc
    · exact .inr (.inl hc)
    · dsimp only at hc
      rw [HashMap.find_set] at hc
      split_ifs at hc with hkey
      · exact .inl (storagePrefix_injective hkey)
      · exact .inr (.inr hc)
  refine ⟨?_, h.stores, h.incarnation, fun a' i' hc => ?_, fun a' account' ha' hne' he hc => ?_⟩
  · rw [hmaps]
    exact h.txn
  · rcases hcode hc with ⟨rfl, rfl⟩ | hc
    · exact hu.append _
    · exact (h.used a' i' hc).append _
  · rw [overlay_updateAccountCode] at ha'
    rcases hcode hc with ⟨rfl, -⟩ | hc
    · rw [Option.some.inj (ha'.symm.trans ha)] at he
      exact hne he
    · exact h.noCode a' account' ha' hne' he hc

/-- The account of an object and its code are written one after the other. -/
theorem Intact.object (h : Intact us tables w b) (s : IntraBlockState) {a : Address} {obj : Object}
    (hi : obj.initial = (b.overlay w).account a) (hk : KeepsCode us (.account a obj.initial obj.current)) :
    Intact (us ++ .account a obj.initial obj.current :: s.codeUpdates a obj) tables w
      ((Update.account a obj.initial obj.current :: s.codeUpdates a obj).foldl Update.issue b) := by
  have haccount := h.updateAccount hi hk
  rw [IntraBlockState.codeUpdates]
  cases hc : obj.current with
  | none =>
    rw [hc] at haccount
    exact haccount
  | some account =>
    rw [hc] at haccount
    dsimp only
    split_ifs with hcode
    · have hself : ((b.updateAccount a obj.initial (some account)).overlay w).account a =
          some account := by
        rw [overlay_updateAccount hi]
        exact if_pos rfl
      have hused : Used (us ++ [.account a obj.initial (some account)]) a account.incarnation :=
        ⟨_, _, List.mem_append_right _ List.mem_cons_self, rfl⟩
      have hboth := haccount.updateAccountCode hself hcode.1 hused
        (s.code.findD account.codeHash [])
      rw [List.append_assoc] at hboth
      exact hboth
    · exact haccount

/-- Further updates that do not use the incarnation of a new contract. -/
theorem KeepsCode.of_used {us' : List Update} {u : Update} (h : KeepsCode us u)
    (hu : ∀ a initial account, u = .account a initial (some account) →
      Used us' a account.incarnation → Used us a account.incarnation) : KeepsCode us' u := by
  rcases u with ⟨a, initial, - | account⟩ | - | -
  · trivial
  · intro hne
    have hk := h hne
    split_ifs at hk ⊢ with hsame
    · exact hk
    · exact fun hused => hk (hu a initial account rfl hused)
  · trivial
  · trivial

theorem Used.of_append {vs : List Update} {a : Address} {i : Uint64} (h : Used (us ++ vs) a i)
    (hv : ∀ initial account, .account a initial (some account) ∉ vs) : Used us a i := by
  obtain ⟨initial, account, hm, hi⟩ := h
  rcases List.mem_append.mp hm with hm | hm
  · exact ⟨initial, account, hm, hi⟩
  · exact absurd hm (hv initial account)

/-- The updates of an object are at its address. -/
theorem account_not_mem_object {s : IntraBlockState} {a a' : Address} {obj : Object} (hne : a' ≠ a)
    (initial current : Option Account) :
    Update.account a' initial current ∉
      Update.account a obj.initial obj.current :: s.codeUpdates a obj := by
  intro hm
  rcases List.mem_cons.mp hm with hm | hm
  · exact hne (Update.account.inj hm).1
  · obtain ⟨i, codeHash, bytes, hu⟩ := s.codeUpdates_eq hm
    cases hu

theorem Intact.objects (h : Intact us tables w b) (s : IntraBlockState)
    {l : List (Address × Object)} (hl : (l.map Prod.fst).Nodup)
    (hi : ∀ e ∈ l, e.2.initial = (b.overlay w).account e.1)
    (hk : ∀ e ∈ l, KeepsCode us (.account e.1 e.2.initial e.2.current)) :
    Intact (us ++ l.flatMap fun e => .account e.1 e.2.initial e.2.current :: s.codeUpdates e.1 e.2)
      tables w ((l.flatMap fun e => Update.account e.1 e.2.initial e.2.current ::
        s.codeUpdates e.1 e.2).foldl Update.issue b) := by
  induction l generalizing us b with
  | nil =>
    rw [List.flatMap_nil, List.append_nil]
    exact h
  | cons e l ih =>
    rw [List.map_cons, List.nodup_cons] at hl
    have hhead := h.object s (hi e List.mem_cons_self) (hk e List.mem_cons_self)
    have hother (e' : Address × Object) (he' : e' ∈ l) : e'.1 ≠ e.1 := fun heq =>
      hl.1 (heq ▸ List.mem_map_of_mem he')
    rw [List.flatMap_cons, ← List.append_assoc, List.foldl_append]
    refine ih hhead hl.2 (fun e' he' => ?_) fun e' he' => ?_
    · have hcurrent : Update.Current (b.overlay w)
          (.account e.1 e.2.initial e.2.current :: s.codeUpdates e.1 e.2) := by
        refine ⟨hi e List.mem_cons_self, ?_⟩
        refine Update.current_of_reports (fun u hu => ?_) ?_
        · obtain ⟨i, codeHash, bytes, rfl⟩ := s.codeUpdates_eq hu
          trivial
        · refine List.pairwise_of_forall_mem_list fun u hu v hv => ?_
          obtain ⟨i, codeHash, bytes, rfl⟩ := s.codeUpdates_eq hu
          cases v <;> exact id
      rw [overlay_foldl hcurrent, account_foldl_of_not_mem (account_not_mem_object (hother e' he'))]
      exact hi e' (List.mem_cons_of_mem _ he')
    · refine (hk e' (List.mem_cons_of_mem _ he')).of_used fun a initial account heq hused => ?_
      refine hused.of_append fun initial' account' => account_not_mem_object ?_ _ _
      rw [← (Update.account.inj heq).1]
      exact hother e' he'

theorem Intact.slots (h : Intact us tables w b) {vs : List Update}
    (hv : Update.Current (b.overlay w) vs)
    (hs : ∀ v ∈ vs, ∃ a i location initial current, v = .storage a i location initial current) :
    Intact (us ++ vs) tables w (vs.foldl Update.issue b) := by
  induction vs generalizing us b with
  | nil =>
    rw [List.append_nil]
    exact h
  | cons v vs ih =>
    obtain ⟨a, i, location, initial, current, rfl⟩ := hs v List.mem_cons_self
    have hhead := h.updateStorage hv.1 current
    have hover := overlay_updateStorage hv.1 current
    rw [List.append_cons]
    refine ih hhead ?_ fun v hm => hs v (List.mem_cons_of_mem _ hm)
    exact (congrArg (Update.Current · vs) hover).mpr hv.2

theorem Intact.beginBlock (h : Intact us tables w b) (n : Uint64) :
    Intact us tables w (b.beginBlock n) := ⟨h.txn, h.stores, h.incarnation, h.used, h.noCode⟩

theorem Intact.block (h : Intact us tables w b) (n : Uint64) {s : IntraBlockState}
    (hr : ∀ u ∈ s.updates, u.Reports b.world) (hk : ∀ u ∈ s.updates, KeepsCode us u) :
    Intact (us ++ s.updates) tables w (s.writeToDb n b).1 := by
  rw [h.world] at hr
  have hcurrent : Update.Current (b.overlay w) s.storageUpdates := by
    refine Update.current_of_reports (fun u hu => hr u (List.mem_append_left _ hu)) ?_
    exact (List.pairwise_append.mp s.pairwise_updates).1
  have hobject {e : Address × Object} (he : e ∈ s.objects.toList) :
      .account e.1 e.2.initial e.2.current ∈ s.updates :=
    List.mem_append_right _ (List.mem_flatMap.mpr ⟨e, he, List.mem_cons_self⟩)
  have hslots : ∀ u ∈ s.storageUpdates, ∃ a i location initial current,
      u = .storage a i location initial current := fun u hu => s.storageUpdates_eq hu
  have hno (a : Address) (initial current : Option Account) :
      .account a initial current ∉ s.storageUpdates := by
    intro hm
    obtain ⟨_, _, _, _, _, heq⟩ := hslots _ hm
    cases heq
  rw [s.writeToDb_fst, IntraBlockState.updates, List.foldl_append, ← List.append_assoc]
  refine ((h.beginBlock n).slots hcurrent hslots).objects s s.objects.keys_toList_nodup
    (fun e he => ?_) fun e he => ?_
  · have hover := overlay_foldl (b := b.beginBlock n) hcurrent
    rw [hover, account_foldl_of_not_mem (hno e.1)]
    exact hr _ (hobject he)
  · refine (hk _ (hobject he)).of_used fun a initial account _ hused => ?_
    exact hused.of_append fun initial account => hno a initial (some account)

end Updates

section Flush

variable {us : List Update} {tables : Tables} {w : World} {b : Buffer}

/-- The entries of a map are put into a table. -/
theorem get_foldl_put {K V : Type} [DecidableEq K] {key : K → Bytes}
    (hkey : ∀ k k', key k = key k' → k = k') (value : V → Bytes) (m : HashMap K V) (t : PlainTable)
    (k : K) :
    (m.toList.foldl (fun t e => t.put (key e.1) (value e.2)) t).get (key k) =
      ((m.find k).map value).or (t.get (key k)) := by
  have hstep (t : PlainTable) (k : K) (v : V) (k' : K) :
      (t.put (key k) (value v)).get (key k') =
        if k' = k then some (value v) else t.get (key k') := by
    rw [PlainTable.get_put]
    split_ifs with h h' h'
    · rfl
    · exact absurd (hkey _ _ h) h'
    · exact absurd (congrArg key h') h
    · rfl
  have hread := HashMap.read_foldl_toList (f := fun t e => PlainTable.put t (key e.1) (value e.2))
    (fun t k => t.get (key k)) (fun _ v _ => some (value v)) hstep m t k
  refine hread.trans ?_
  cases m.find k <;> rfl

theorem get_incarnationMap_flush (a : Address) :
    (b.flush tables).incarnationMap.get a.val =
      ((b.maps.incarnations.find a).map bigU64).or (tables.incarnationMap.get a.val) :=
  get_foldl_put (fun _ _ => Subtype.ext) bigU64 b.incarnations tables.incarnationMap a

theorem get_code_flush (codeHash : Bytes32) :
    (b.flush tables).code.get codeHash.val =
      ((b.maps.hashToCode.find codeHash).map id).or (tables.code.get codeHash.val) :=
  get_foldl_put (fun _ _ => Subtype.ext) id b.hashToCode tables.code codeHash

theorem get_plainContractCode_flush (key : Bytes) :
    (b.flush tables).plainContractCode.get key =
      ((b.maps.storagePrefixToCodeHash.find key).map Subtype.val).or
        (tables.plainContractCode.get key) :=
  get_foldl_put (fun _ _ => id) Subtype.val b.storagePrefixToCodeHash tables.plainContractCode key

theorem hasCode_flush {b' : Buffer} {a : Address} {i : Uint64}
    (hb' : ∀ key, b'.maps.storagePrefixToCodeHash.find key ≠ none →
      b.maps.storagePrefixToCodeHash.find key ≠ none)
    (h : HasCode (b.flush tables) b' a i) : HasCode tables b a i := by
  rcases h with h | h
  · rw [get_plainContractCode_flush] at h
    cases hf : b.maps.storagePrefixToCodeHash.find (storagePrefix a.val i) with
    | some codeHash =>
      refine .inr ?_
      rw [hf]
      exact Option.some_ne_none codeHash
    | none =>
      rw [hf] at h
      exact .inl h
  · exact .inr (hb' _ h)

/-- The tables after the flush, behind a buffer through which the same world is seen. -/
theorem Intact.flushed (h : Intact us tables w b) {b' : Buffer}
    (ht : b'.maps.txn = some (b.flush tables)) (hover : b'.overlay (b.overlay w) = b.overlay w)
    (hb' : ∀ key, b'.maps.storagePrefixToCodeHash.find key ≠ none →
      b.maps.storagePrefixToCodeHash.find key ≠ none) :
    Intact us (b.flush tables) (b.overlay w) b' := by
  refine ⟨ht, b.stores_writeToStateTable h.stores, fun a value hv => ?_,
    fun a i hc => h.used a i (hasCode_flush hb' hc), fun a account ha hne he hc => ?_⟩
  · rw [get_incarnationMap_flush] at hv
    cases hf : b.maps.incarnations.find a with
    | some i =>
      rw [hf] at hv
      exact ⟨i, (Option.some.inj hv).symm⟩
    | none =>
      rw [hf] at hv
      exact h.incarnation a value hv
  · rw [hover] at ha
    exact h.noCode a account ha hne he (hasCode_flush hb' hc)

theorem Intact.flush (h : Intact us tables w b) :
    Intact us (b.flush tables) (b.overlay w) b.writeToDb := by
  refine h.flushed ?_ ?_ fun _ => id
  · exact congrArg (Option.map b.flush) h.txn
  · ext1
    · funext a
      change (b.maps.accounts.find a).getD ((b.maps.accounts.find a).getD _) =
        (b.maps.accounts.find a).getD _
      cases b.maps.accounts.find a <;> rfl
    · funext a i location
      change (b.maps.storage.find a i location).getD ((b.maps.storage.find a i location).getD _) =
        (b.maps.storage.find a i location).getD _
      cases b.maps.storage.find a i location <;> rfl

theorem Intact.reopen (h : Intact us tables w b) :
    Intact us (b.flush tables) (b.overlay w) b.reopen := by
  refine h.flushed ?_ rfl fun key hne => absurd rfl hne
  exact congrArg (Option.map b.flush) h.txn

theorem Intact.previousIncarnation_reopen (h : Intact us tables w b) (a : Address) :
    ∃ i, b.previousIncarnation a = some i ∧ b.reopen.previousIncarnation a = some i := by
  have hnew : b.reopen.previousIncarnation a =
      (readPreviousIncarnation (b.flush tables) a).map fun x => x.getD 0 := by
    rw [b.reopen.previousIncarnation_eq, h.reopen.txn]
    rfl
  have hget : (b.flush tables).incarnationMap.get a.val = _ := get_incarnationMap_flush a
  rw [hnew, b.previousIncarnation_eq, h.txn]
  cases hf : b.maps.incarnations.find a with
  | some i =>
    rw [hf] at hget
    rw [readPreviousIncarnation_bigU64 hget]
    exact ⟨i, rfl, rfl⟩
  | none =>
    rw [hf] at hget
    cases ht : tables.incarnationMap.get a.val with
    | none =>
      rw [ht] at hget
      refine ⟨0, ?_, ?_⟩
      · simp only [readPreviousIncarnation, ht]
        rfl
      · simp only [readPreviousIncarnation, hget]
        rfl
    | some value =>
      obtain ⟨i, rfl⟩ := h.incarnation a value ht
      rw [ht] at hget
      rw [readPreviousIncarnation_bigU64 hget]
      dsimp only
      rw [readPreviousIncarnation_bigU64 ht]
      exact ⟨i, rfl, rfl⟩

theorem Reaches.intact (h : Reaches us b) : ∃ tables w, Intact us tables w b := by
  induction h with
  | start =>
    refine ⟨{}, _, rfl, stores_empty, fun a value h => ?_, fun a i h => ?_, fun a account h => ?_⟩
    · cases h
    · rcases h with h | h <;> exact absurd rfl h
    · cases h
  | block _ n s hr hk ih =>
    obtain ⟨tables, w, h⟩ := ih
    exact ⟨tables, w, h.block n hr hk⟩
  | flush _ ih =>
    obtain ⟨tables, w, h⟩ := ih
    exact ⟨_, _, h.flush⟩
  | reopen _ ih =>
    obtain ⟨tables, w, h⟩ := ih
    exact ⟨_, _, h.reopen⟩

/-- A new buffer over the tables after the flush reads what the old one did. -/
theorem reads_reopen (h : Reaches us b) :
    (∀ a, ∃ account, b.readAccount a = some account ∧ b.reopen.readAccount a = some account) ∧
    (∀ a i location, ∃ value, b.readStorage a i location = some value ∧
      b.reopen.readStorage a i location = some value) ∧
    (∀ codeHash, b.reopen.readCode codeHash = b.readCode codeHash) ∧
    ∀ a, ∃ i, b.previousIncarnation a = some i ∧ b.reopen.previousIncarnation a = some i := by
  obtain ⟨tables, w, h⟩ := h.intact
  have hnew := h.reopen
  refine ⟨fun a => ⟨_, h.readAccount a, hnew.readAccount a⟩, fun a i location =>
    ⟨_, h.readStorage a i location, hnew.readStorage a i location⟩, fun codeHash => ?_, fun a => ?_⟩
  · rw [b.readCode_eq, b.reopen.readCode_eq, h.txn, hnew.txn]
    change ((b.flush tables).code.get codeHash.val).getD [] = _
    rw [get_code_flush]
    cases b.maps.hashToCode.find codeHash <;> rfl
  · exact h.previousIncarnation_reopen a

end Flush

section Examples

def codeHashOne : Bytes32 := FixedBytes.ofByte 31 1

def contract (balance : Uint256) : Account := { balance, incarnation := 1, codeHash := codeHashOne }

/-- The account and the slot of a contract are written. -/
def contractWritten (initial : Option Account) (balance : Uint256) (value value' : Bytes32) :
    IntraBlockState where
  objects := HashMap.set ∅ default { initial, current := some (contract balance) }
  storage := HashMap.set ∅ default
    { committed := HashMap.set ∅ default { initial := value, original := value' } }
  code := HashMap.set ∅ codeHashOne [0x60]

theorem forall_updates_contractWritten {initial : Option Account} {balance : Uint256}
    {value value' : Bytes32} {P : Update → Prop}
    (hc : ∀ i codeHash bytes, P (.code default i codeHash bytes))
    (hs : P (.storage default 1 default value value'))
    (ha : P (.account default initial (some (contract balance)))) :
    ∀ u ∈ (contractWritten initial balance value value').updates, P u := by
  intro u hu
  rcases List.mem_append.mp hu with hu | hu
  · cases List.mem_singleton.mp hu
    exact hs
  · obtain ⟨e, he, hu⟩ := List.mem_flatMap.mp hu
    cases List.mem_singleton.mp he
    rcases List.mem_cons.mp hu with rfl | hu
    · exact ha
    · obtain ⟨i, codeHash, bytes, rfl⟩ := IntraBlockState.codeUpdates_eq _ hu
      exact hc i codeHash bytes

/-- A contract is created with a slot. -/
def firstBatch : Buffer := ((contractWritten none 1 default codeHashOne).writeToDb 1
  ({ txn := some {} } : Buffer)).1

/-- The contract is paid and clears its slot. -/
def secondBatch : Buffer :=
  ((contractWritten (some (contract 1)) 2 codeHashOne default).writeToDb 2 firstBatch.reopen).1

/-- The contract is read from the tables after each of the batches. -/
theorem reads_reopen_contract :
    (∃ us, Reaches us secondBatch) ∧
    firstBatch.reopen.readAccount default = some (some (contract 1)) ∧
    firstBatch.reopen.readStorage default 1 default = some codeHashOne ∧
    secondBatch.reopen.readAccount default = some (some (contract 2)) ∧
    secondBatch.reopen.readStorage default 1 default = some default ∧
    secondBatch.reopen.readCode codeHashOne = [0x60] := by
  obtain ⟨us, hfirst⟩ : ∃ us, Reaches us firstBatch := by
    refine ⟨_, .block .start 1 (contractWritten none 1 default codeHashOne) ?_ ?_⟩
    · exact forall_updates_contractWritten (fun _ _ _ => trivial) rfl rfl
    · refine forall_updates_contractWritten (fun _ _ _ => trivial) trivial fun _ => ?_
      rintro ⟨initial, account, hm, -⟩
      cases hm
  have hreads := reads_reopen hfirst
  have haccount : firstBatch.reopen.readAccount default = some (some (contract 1)) := by
    obtain ⟨account, hold, hnew⟩ := hreads.1 default
    exact hnew.trans (hold.symm.trans rfl)
  have hslot : firstBatch.reopen.readStorage default 1 default = some codeHashOne := by
    obtain ⟨value, hold, hnew⟩ := hreads.2.1 default 1 default
    exact hnew.trans (hold.symm.trans rfl)
  obtain ⟨us', hsecond⟩ : ∃ us, Reaches us secondBatch := by
    refine ⟨_, .block hfirst.reopen 2
      (contractWritten (some (contract 1)) 2 codeHashOne default) ?_ ?_⟩
    · refine forall_updates_contractWritten (fun _ _ _ => trivial) ?_ ?_
      · exact (congrArg (Option.getD · default) hslot).symm
      · exact (congrArg (Option.getD · none) haccount).symm
    · exact forall_updates_contractWritten (fun _ _ _ => trivial) trivial fun _ => .inr rfl
  obtain ⟨haccounts, hslots, hcode, -⟩ := reads_reopen hsecond
  refine ⟨⟨_, hsecond⟩, haccount, hslot, ?_, ?_, ?_⟩
  · obtain ⟨account, hold, hnew⟩ := haccounts default
    exact hnew.trans (hold.symm.trans rfl)
  · obtain ⟨value, hold, hnew⟩ := hslots default 1 default
    exact hnew.trans (hold.symm.trans rfl)
  · exact (hcode codeHashOne).trans rfl

end Examples

end Silkworm.Db
