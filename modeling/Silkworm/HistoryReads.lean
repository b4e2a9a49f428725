import Silkworm.AccountHistory

/-!
# Reading the history of accounts

The first key from the address and a block number on belongs to the chunk of the next block that
changed the account, if there is one. The change set of that block has the account as the block
found it, and no block before has changed it since.
-/

namespace Silkworm.Db
open BigEndian SortedTables ChunkedSets MemoryBuffer

section Seeks

theorem seek_eq_some {t : PlainTable} {key : Bytes} {e : Entry} (he : e ∈ t.entries)
    (hkey : ¬e.1 < key) (hmin : ∀ e' ∈ t.entries, ¬e'.1 < key → ¬e'.1 < e.1) :
    seek t.toTable key = some e := by
  obtain ⟨before, after, hsplit⟩ := List.append_of_mem he
  rw [seek, List.find?_eq_some_iff_append]
  refine ⟨by simpa using hkey, before, after, hsplit, fun e' he' => ?_⟩
  have hmem : e' ∈ t.entries := by
    rw [hsplit]
    exact List.mem_append_left _ he'
  have hsorted := t.sorted
  rw [hsplit] at hsorted
  have hlt : e'.1 < e.1 := by
    rcases (List.pairwise_append.mp hsorted).2.2 e' he' e List.mem_cons_self with h | ⟨heq, h⟩
    · exact h
    · -- a key has one value
      have : e'.2 = e.2 := t.single e.1 e'.2 e.2 (heq ▸ hmem) he
      rw [this] at h
      exact absurd h (List.lt_irrefl _)
  have hbelow : e'.1 < key := by
    by_contra hnot
    exact hmin e' hmem hnot hlt
  simpa using hbelow

theorem seekBitmap_eq_some {s : Finset ℕ} {m n : ℕ} (hm : m ∈ s) (hn : n ≤ m)
    (hmin : ∀ x ∈ s, n ≤ x → m ≤ x) : seekBitmap s n = some m := by
  have hmem : m ∈ s.sort (· ≤ ·) := (Finset.mem_sort _).mpr hm
  obtain ⟨before, after, hsplit⟩ := List.append_of_mem hmem
  have hsorted := s.sortedLT_sort.pairwise
  rw [seekBitmap, List.find?_eq_some_iff_append]
  refine ⟨by simpa using hn, before, after, hsplit, fun x hx => ?_⟩
  rw [hsplit] at hsorted
  have hlt := (List.pairwise_append.mp hsorted).2.2 x hx m List.mem_cons_self
  have hxs : x ∈ s := by
    rw [← Finset.mem_sort (· ≤ ·), hsplit]
    exact List.mem_append_left _ hx
  have hbelow : x < n := by
    by_contra hnot
    exact absurd (hmin x hxs (not_lt.mp hnot)) (not_le.mpr hlt)
  simpa using hbelow

theorem seekBitmap_eq_none {s : Finset ℕ} {n : ℕ} (h : ∀ x ∈ s, x < n) : seekBitmap s n = none := by
  rw [seekBitmap, List.find?_eq_none]
  intro x hx
  simpa using h x ((Finset.mem_sort _).mp hx)

end Seeks

section Lookups

variable {r : Roaring} {tables : Tables} {index : PlainTable} {s : Address → Finset ℕ}
  (h : Indexed r index s) {a : Address} {n : Uint64}

theorem accountHistoryKey_eq (a : Address) (n : Uint64) :
    accountHistoryKey a n = chunkIndex a.val n.toNat := by
  rw [accountHistoryKey, chunkIndex, BitVec.ofNat_toNat, BitVec.setWidth_eq]

theorem toNat_le_kLastChunk (n : Uint64) : n.toNat ≤ kLastChunk := by
  have := n.isLt
  unfold kLastChunk
  omega

theorem chunkIndex_isPrefix_iff {a a' : Address} {k : ℕ} :
    a.val.isPrefixOf (chunkIndex a'.val k) = true ↔ a' = a := by
  rw [List.isPrefixOf_iff_prefix, chunkIndex]
  constructor
  · rintro ⟨rest, hrest⟩
    exact Subtype.ext (List.append_inj hrest (a.property.trans a'.property.symm)).1.symm
  · rintro rfl
    exact List.prefix_append _ _

/-- The keys from the address and a number on. -/
theorem chunkIndex_not_lt {a a' : Address} {k m : ℕ} (hk : k ≤ kLastChunk) (hm : m ≤ kLastChunk) :
    ¬chunkIndex a'.val k < chunkIndex a.val m ↔ a.val < a'.val ∨ a' = a ∧ m ≤ k := by
  have hlen (a a' : Address) : a.val.length = a'.val.length := a.property.trans a'.property.symm
  rcases SortedTables.lt_or_eq_or_gt a.val a'.val with hlt | heq | hgt
  · exact iff_of_true (List.lt_asymm (chunkIndex_lt_of_lt hlt (hlen a a') m k)) (.inl hlt)
  · cases Subtype.ext heq
    constructor
    · intro hnot
      refine .inr ⟨rfl, ?_⟩
      by_contra hlt
      exact hnot (chunkIndex_lt (not_le.mp hlt) hm)
    · rintro (hlt | ⟨-, hle⟩) hlt'
      · exact List.lt_irrefl _ hlt
      · rcases hle.lt_or_eq with hmk | rfl
        · exact List.lt_asymm hlt' (chunkIndex_lt hmk hk)
        · exact List.lt_irrefl _ hlt'
  · refine iff_of_false (not_not.mpr (chunkIndex_lt_of_lt hgt (hlen a' a) k m)) ?_
    rintro (hlt | ⟨rfl, -⟩)
    · exact List.lt_asymm hlt hgt
    · exact List.lt_irrefl _ hgt

include h

/-- The next block that changed the account is found. -/
theorem historicalAccount_of_least {m : ℕ} (hm : m ∈ s a) (hn : n.toNat ≤ m)
    (hmin : ∀ x ∈ s a, n.toNat ≤ x → m ≤ x) (hs : ∀ x ∈ s a, x ≤ kLastChunk) :
    historicalAccount r tables index a n =
      some (tables.plainAccountChangeSet.getSuffix (blockKey (BitVec.ofNat 64 m)) a.val) := by
  obtain ⟨k, c, hnk, hc, hmc, hfirst⟩ := (h.holds a).chunks.exists_chunk hs hm hn hmin
  have hk := chunkMap_bound hc
  have hsub := (h.holds a).chunks.subset hc
  rw [chunkMap, if_pos hk, Option.bind_eq_some_iff] at hc
  obtain ⟨v, hv, hread⟩ := hc
  have hseek : seek index.toTable (chunkIndex a.val n.toNat) = some (chunkIndex a.val k, v) := by
    refine seek_eq_some (PlainTable.get_eq_some.mp hv)
      ((chunkIndex_not_lt hk (toNat_le_kLastChunk n)).mpr (.inr ⟨rfl, hnk⟩)) fun e he hnot => ?_
    obtain ⟨a', k', hk', hkey⟩ := h.format e he
    rw [hkey] at hnot ⊢
    refine (chunkIndex_not_lt hk' hk).mpr ?_
    rcases (chunkIndex_not_lt hk' (toNat_le_kLastChunk n)).mp hnot with hlt | ⟨rfl, hle⟩
    · exact .inl hlt
    · refine .inr ⟨rfl, hfirst k' hle ?_⟩
      have hget : index.get (chunkIndex a'.val k') = some e.2 := by
        rw [PlainTable.get_eq_some, ← hkey]
        exact he
      obtain ⟨c', hc'⟩ := (h.holds a').readable k' hk' e.2 hget
      rw [chunkMap, if_pos hk', hget, Option.bind_some, hc']
      exact Option.some_ne_none c'
  rw [historicalAccount, accountHistoryKey_eq, hseek]
  dsimp only
  rw [if_pos (chunkIndex_isPrefix_iff.mpr rfl), hread, Option.bind_eq_bind, Option.bind_some,
    seekBitmap_eq_some hmc hn fun x hx => hmin x (hsub hx)]

/-- There is no block that changed the account since. -/
theorem historicalAccount_of_forall_lt (hlt : ∀ m ∈ s a, m < n.toNat) :
    historicalAccount r tables index a n = some none := by
  rw [historicalAccount]
  cases hseek : seek index.toTable (accountHistoryKey a n) with
  | none => rfl
  | some e =>
    have he : e ∈ index.entries := List.mem_of_find?_eq_some hseek
    obtain ⟨a', k, hk, hkey⟩ := h.format e he
    dsimp only
    split_ifs with hprefix
    · rw [hkey, chunkIndex_isPrefix_iff] at hprefix
      subst hprefix
      have hget : index.get (chunkIndex a'.val k) = some e.2 := by
        rw [PlainTable.get_eq_some, ← hkey]
        exact he
      obtain ⟨c, hread⟩ := (h.holds a').readable k hk e.2 hget
      have hc : chunkMap r index a'.val k = some c := by
        rw [chunkMap, if_pos hk, hget, Option.bind_some, hread]
      have hnone : seekBitmap c n.toNat = none :=
        seekBitmap_eq_none fun x hx => hlt x ((h.holds a').chunks.subset hc hx)
      rw [hread, Option.bind_eq_bind, Option.bind_some, hnone]
    · rfl

end Lookups

section Worlds

variable {w : World} {block : ExecutedBlock} {blocks : List ExecutedBlock} {a : Address}

def ChangesAccount (block : ExecutedBlock) (a : Address) : Prop :=
  ∃ initial current, .account a initial current ∈ block.2.updates ∧ current ≠ initial

/-- The world at the beginning of a block. -/
def worldAt (w : World) (blocks : List ExecutedBlock) (n : ℕ) : World :=
  afterBlocks w (blocks.filter fun block => block.1.toNat < n)

theorem account_foldl_of_unchanged {us : List Update} {account : Option Account}
    (hw : w.account a = account)
    (h : ∀ initial current, .account a initial current ∈ us → current = account) :
    (us.foldl Update.onWorld w).account a = account := by
  induction us generalizing w with
  | nil => exact hw
  | cons u us ih =>
    refine ih ?_ fun initial current hm => h initial current (List.mem_cons_of_mem _ hm)
    cases u with
    | account a' initial current =>
      rw [Update.onWorld]
      dsimp only
      split_ifs with ha
      · subst ha
        exact h initial current List.mem_cons_self
      · exact hw
    | code a' i codeHash bytes => exact hw
    | storage a' i location initial current => exact hw

theorem account_afterBlock (hr : ∀ u ∈ block.2.updates, u.Reports w)
    (h : ¬ChangesAccount block a) : (afterBlock w block).account a = w.account a := by
  refine account_foldl_of_unchanged rfl fun initial current hm => ?_
  by_contra hne
  have hinitial : initial = w.account a := hr _ hm
  exact h ⟨initial, current, hm, fun heq => hne (heq.trans hinitial)⟩

theorem filter_eq_nil_of_le {n : ℕ} (hfirst : ∀ b ∈ blocks, block.1.toNat < b.1.toNat)
    (hn : n ≤ block.1.toNat) : (blocks.filter fun b => decide (b.1.toNat < n)) = [] := by
  rw [List.filter_eq_nil_iff]
  intro b hb
  have := hfirst b hb
  simp only [decide_eq_true_eq]
  omega

/-- Between two blocks none of which changed the account it stays as it is. -/
theorem account_worldAt (hf : Faithful w blocks)
    (hsorted : blocks.Pairwise fun block block' => block.1.toNat < block'.1.toNat) {n m : ℕ}
    (hnm : n ≤ m) (h : ∀ block ∈ blocks, n ≤ block.1.toNat → block.1.toNat < m →
      ¬ChangesAccount block a) :
    (worldAt w blocks n).account a = (worldAt w blocks m).account a := by
  induction blocks generalizing w with
  | nil => rfl
  | cons block blocks ih =>
    obtain ⟨hfirst, hsorted⟩ := List.pairwise_cons.mp hsorted
    have hrest := ih hf.2 hsorted fun b hb => h b (List.mem_cons_of_mem _ hb)
    rw [worldAt, worldAt, List.filter_cons, List.filter_cons]
    by_cases hn : block.1.toNat < n
    · rw [if_pos (by simpa using hn), if_pos (by simpa using hn.trans_le hnm)]
      exact hrest
    · rw [if_neg (by simpa using hn)]
      have hnone := filter_eq_nil_of_le hfirst (not_lt.mp hn)
      by_cases hm : block.1.toNat < m
      · -- the account is not changed by this block
        have hsame := account_afterBlock hf.1 (h block List.mem_cons_self (not_lt.mp hn) hm)
        rw [if_pos (by simpa using hm), hnone]
        rw [worldAt, hnone] at hrest
        exact hsame.symm.trans hrest
      · rw [if_neg (by simpa using hm), hnone, filter_eq_nil_of_le hfirst (not_lt.mp hm)]

/-- A block reports the world at its beginning. -/
theorem reports_worldAt (hf : Faithful w blocks)
    (hsorted : blocks.Pairwise fun block block' => block.1.toNat < block'.1.toNat)
    (hb : block ∈ blocks) : ∀ u ∈ block.2.updates, u.Reports (worldAt w blocks block.1.toNat) := by
  induction blocks generalizing w with
  | nil => cases hb
  | cons first blocks ih =>
    obtain ⟨hfirst, hsorted⟩ := List.pairwise_cons.mp hsorted
    rw [worldAt, List.filter_cons]
    rcases List.mem_cons.mp hb with rfl | hb
    · rw [if_neg (by simp), filter_eq_nil_of_le hfirst le_rfl]
      exact hf.1
    · rw [if_pos (by simpa using hfirst block hb)]
      exact ih hf.2 hsorted hb

theorem worldAt_of_forall_lt {n : ℕ} (h : ∀ block ∈ blocks, block.1.toNat < n) :
    worldAt w blocks n = afterBlocks w blocks := by
  rw [worldAt, List.filter_eq_self.mpr fun block hb => by simpa using h block hb]

end Worlds

/-- What a change set keeps of an account in any case. -/
def values (account : Account) : Uint64 × Uint256 × Uint64 :=
  (account.nonce, account.balance, account.incarnation)

theorem values_restoreCodeHash (tables : Tables) (a : Address) (account : Account) :
    values (restoreCodeHash tables a account) = values account := by
  rw [restoreCodeHash]
  split_ifs
  · cases tables.plainContractCode.get (storagePrefix a.val account.incarnation) with
    | none => rfl
    | some hash =>
      dsimp only
      split_ifs <;> rfl
  · rfl

/-- No two blocks have the same number. -/
theorem eq_of_number {blocks : List ExecutedBlock} {block block' : ExecutedBlock}
    (hsorted : blocks.Pairwise fun block block' => block.1.toNat < block'.1.toNat)
    (hb : block ∈ blocks) (hb' : block' ∈ blocks) (h : block.1 = block'.1) : block = block' := by
  have hne : blocks.Pairwise fun block block' => block.1 ≠ block'.1 :=
    hsorted.imp fun hlt heq => absurd (congrArg BitVec.toNat heq) hlt.ne
  have hsymm : Std.Symm fun block block' : ExecutedBlock => block.1 ≠ block'.1 :=
    ⟨fun _ _ hxy => hxy.symm⟩
  by_contra hblock
  exact hne.forall hb hb' hblock h

/-- A block updates an account once. -/
theorem eq_of_account_mem {state : IntraBlockState} {a : Address}
    {initial current initial' current' : Option Account}
    (h : .account a initial current ∈ state.updates)
    (h' : .account a initial' current' ∈ state.updates) : current = current' := by
  have hsymm : Std.Symm fun u v : Update => ¬u.SameKey v := ⟨fun u v huv hvu => huv hvu.symm⟩
  by_contra hne
  refine state.pairwise_updates.forall h h' (fun heq => ?_) rfl
  cases heq
  exact hne rfl

/-- The bytes of an account are not empty, and its values are read from them. -/
theorem exists_decode_encode (tables : Tables) (a : Address) (account : Account)
    (omitCodeHash : Bool) :
    ∃ (b : UInt8) (bytes : Bytes) (account' : Account) (rest : Bytes),
      account.encodeForStorage omitCodeHash = b :: bytes ∧
      decodeAccountFromStorage (b :: bytes) = .ok account' rest ∧
      values (restoreCodeHash tables a account') = values account := by
  obtain ⟨rest, hrest⟩ := decodeAccountFromStorage_encodeForStorage account omitCodeHash
  exact ⟨_, _, _, rest, rfl, hrest, values_restoreCodeHash ..⟩

section Reads

variable {r : Roaring} {tables : Tables} {w : World} (hstores : Stores w tables.plainState)
  (hempty : tables.plainAccountChangeSet.entries = []) {batches : List (List ExecutedBlock)}
  (hf : Faithful w batches.flatten)
  (hsorted : batches.flatten.Pairwise fun block block' => block.1.toNat < block'.1.toNat)

theorem hasChange_of_changesAccount {block : ExecutedBlock} (hb : block ∈ batches.flatten)
    {a : Address} (h : ChangesAccount block a) :
    HasChange (executeBatches tables batches).plainAccountChangeSet.entries a block.1.toNat := by
  obtain ⟨initial, current, hm, hne⟩ := h
  obtain ⟨bytes, hbytes⟩ : ∃ bytes, ∀ e, accountChangeEntry block.1 (.account a) bytes = some e →
      e ∈ (executeBatches tables batches).plainAccountChangeSet.entries :=
    exists_mem_of_changes mem_accountChanges_flush hb hm hne rfl
  exact ⟨block.1, bytes, hbytes _ rfl, rfl⟩

include hempty

/-- A change set has the account that the block found. -/
theorem exists_account_of_mem {n : Uint64} {a : Address} {bytes : Bytes}
    (h : (blockKey n, a.val ++ bytes) ∈
      (executeBatches tables batches).plainAccountChangeSet.entries) :
    ∃ block ∈ batches.flatten, block.1 = n ∧ ∃ initial current,
      .account a initial current ∈ block.2.updates ∧ bytes = encodedInitial initial current := by
  rcases exists_update_of_mem mem_accountChanges_flush h with hold | ⟨block, hb, u, hu, k, bytes', hc, he⟩
  · rw [hempty] at hold
    cases hold
  · cases u with
    | account a' initial current =>
      cases hc
      obtain ⟨hn, hv⟩ := Prod.mk.inj (Option.some.inj he)
      obtain ⟨ha, hbytes⟩ := List.append_inj hv (a'.property.trans a.property.symm)
      cases Subtype.ext ha
      exact ⟨block, hb, bigU64_injective hn, initial, current, hu, hbytes.symm⟩
    | code a' i codeHash bytes => cases hc
    | storage a' i location initial current =>
      cases hc
      cases he

theorem accountChanges_executeBatches :
    AccountChanges (executeBatches tables batches).plainAccountChangeSet.entries := by
  intro e he
  rcases exists_update_of_mem mem_accountChanges_flush he with hold | ⟨block, -, u, -, k, bytes, -, hk⟩
  · rw [hempty] at hold
    cases hold
  · cases k with
    | account a => exact ⟨block.1, a, bytes, (Option.some.inj hk).symm⟩
    | slot a i location => cases hk

theorem exists_block_of_hasChange {a : Address} {m : ℕ}
    (h : HasChange (executeBatches tables batches).plainAccountChangeSet.entries a m) :
    ∃ block ∈ batches.flatten, block.1.toNat = m := by
  obtain ⟨n, bytes, hm, rfl⟩ := h
  obtain ⟨block, hb, rfl, -⟩ := exists_account_of_mem hempty hm
  exact ⟨block, hb, rfl⟩

include hsorted hf

/-- The account as the block found it is read in the change set. -/
theorem getSuffix_accountChanges {n : Uint64} {a : Address}
    (h : HasChange (executeBatches tables batches).plainAccountChangeSet.entries a n.toNat) :
    ∃ current : Option Account,
      (executeBatches tables batches).plainAccountChangeSet.getSuffix (blockKey n) a.val =
        some (encodedInitial ((worldAt w batches.flatten n.toNat).account a) current) := by
  have hinitial {bytes : Bytes} (hm : (blockKey n, a.val ++ bytes) ∈
      (executeBatches tables batches).plainAccountChangeSet.entries) :
      ∃ block ∈ batches.flatten, block.1 = n ∧ ∃ current,
        .account a ((worldAt w batches.flatten n.toNat).account a) current ∈ block.2.updates ∧
        bytes = encodedInitial ((worldAt w batches.flatten n.toNat).account a) current := by
    obtain ⟨block, hb, rfl, initial, current, hu, hbytes⟩ := exists_account_of_mem hempty hm
    have hreport : initial = _ := reports_worldAt hf hsorted hb _ hu
    rw [← hreport]
    exact ⟨block, hb, rfl, current, hu, hbytes⟩
  have huniq : ∀ v v', (blockKey n, a.val ++ v) ∈
      (executeBatches tables batches).plainAccountChangeSet.entries →
      (blockKey n, a.val ++ v') ∈
      (executeBatches tables batches).plainAccountChangeSet.entries → v = v' := by
    intro v v' hv hv'
    obtain ⟨block, hb, hn, current, hu, rfl⟩ := hinitial hv
    obtain ⟨block', hb', hn', current', hu', rfl⟩ := hinitial hv'
    cases eq_of_number hsorted hb hb' (hn.trans hn'.symm)
    rw [eq_of_account_mem hu hu']
  obtain ⟨n', bytes, hm, hn⟩ := h
  cases BitVec.eq_of_toNat_eq hn
  obtain ⟨block, hb, hn, current, hu, rfl⟩ := hinitial hm
  exact ⟨current, (Table.getSuffix_eq_some_iff huniq).mpr hm⟩

include hstores

/-- An account is read as it was at the beginning of a block. -/
theorem exists_readAccountAt {index : PlainTable} {s : Address → Finset ℕ} (h : Indexed r index s)
    (hs : ∀ a m, m ∈ s a ↔
      HasChange (executeBatches tables batches).plainAccountChangeSet.entries a m)
    (a : Address) (n : Uint64) :
    ∃ account, readAccountAt r (executeBatches tables batches) index a n = some account ∧
      account.map values = ((worldAt w batches.flatten n.toNat).account a).map values := by
  have hbound : ∀ x ∈ s a, x ≤ kLastChunk := by
    intro x hx
    obtain ⟨block, -, rfl⟩ := exists_block_of_hasChange hempty ((hs a x).mp hx)
    exact toNat_le_kLastChunk block.1
  by_cases hlater : ∃ m, m ∈ s a ∧ n.toNat ≤ m
  · obtain ⟨hm, hn⟩ := Nat.find_spec hlater
    have hmin : ∀ x ∈ s a, n.toNat ≤ x → Nat.find hlater ≤ x := fun x hx hnx =>
      Nat.find_min' hlater ⟨hx, hnx⟩
    generalize Nat.find hlater = m at hm hn hmin
    obtain ⟨block, hb, rfl⟩ := exists_block_of_hasChange hempty ((hs a m).mp hm)
    obtain ⟨current, hread⟩ := getSuffix_accountChanges hempty hf hsorted ((hs a _).mp hm)
    -- the account is the same at the next block that changed it
    have hsame := account_worldAt (a := a) hf hsorted hn fun b hb hnb hlt hc => by
      have := hmin b.1.toNat ((hs a _).mpr (hasChange_of_changesAccount hb hc)) hnb
      omega
    rw [readAccountAt, historicalAccount_of_least h hm hn hmin hbound, BitVec.ofNat_toNat,
      BitVec.setWidth_eq, hread, hsame]
    cases (worldAt w batches.flatten block.1.toNat).account a with
    | none => exact ⟨none, rfl, rfl⟩
    | some account =>
      obtain ⟨b, bytes, account', rest, hencode, hdecode, hvalues⟩ := exists_decode_encode
        (executeBatches tables batches) a account current.isSome
      rw [encodedInitial, Option.map_some, Option.getD_some, hencode]
      refine ⟨some (restoreCodeHash (executeBatches tables batches) a account'), ?_,
        congrArg some hvalues⟩
      simp [hdecode]
  · have hlater : ∀ m ∈ s a, m < n.toNat := fun m hm => by
      by_contra hle
      exact hlater ⟨m, hm, not_lt.mp hle⟩
    have hsame := account_worldAt (a := a) hf hsorted (m := 2 ^ 64) n.isLt.le
      fun b hb hnb _ hc => by
        have := hlater b.1.toNat ((hs a _).mpr (hasChange_of_changesAccount hb hc))
        omega
    rw [worldAt_of_forall_lt fun b _ => b.1.isLt] at hsame
    rw [readAccountAt, historicalAccount_of_forall_lt h hlater, hsame]
    refine ⟨_, (hstores.executeBatches hf).readAccount a, ?_⟩
    rw [Option.map_map]
    exact congrArg (Option.map · _) (funext fun account => values_restoreCodeHash ..)

end Reads

end Silkworm.Db
