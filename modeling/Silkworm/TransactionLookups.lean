import Silkworm.HeaderNumbers
import Silkworm.HistoryLoads
import Silkworm.PaddedViews
import Silkworm.StoredBlocks

/-!
# The blocks of transactions

A stage finds the hashes of the transactions in the bodies from the last processed block on, and
stores the numbers of the blocks without leading zeros. A program counts the bodies and compares the
numbers. With one body for each block it has nothing to report after a run of the stage.
-/

namespace Silkworm.Db
open BigEndian Rlp SortedTables IncrementalIndexes

structure LookupTables where
  blockBodies : PlainTable
  ethTx : PlainTable
  txLookup : PlainTable
  progress : Uint64

section Stage

variable (keccak : Bytes → Bytes32)

/-- Leading zeros are left out, unless there is nothing else. -/
def compact (b : Bytes) : Bytes := if b.all fun x => x = 0 then b else b.dropWhile fun x => x = 0

/-- An exception of the decoder is none. -/
def storedBody (e : Entry) : Option BlockBodyForStorage :=
  match decodeStoredBlockBody e.2 with
  | .ok body _ => some body
  | _ => none

/-- The transactions of a body from the first one on, as far as they are there. -/
def bodyTransactions (ethTx : PlainTable) (body : BlockBodyForStorage) : List Entry :=
  if 0 < body.txnCount then (ethTx.seekExact (bigU64 body.baseTxnId)).take body.txnCount.toNat else []

/-- The loop over the bodies: what is collected, and the number of the last body. -/
def extractLookups (ethTx : PlainTable) :
    List Entry → Uint64 → List Entry → Option (List Entry × Uint64)
  | [], blockNumber, collected => some (collected, blockNumber)
  | e :: es, _, collected => do
    let body ← storedBody e
    let blockNumberAsBytes := e.1.take 8
    let entries := (bodyTransactions ethTx body).map fun txn =>
      ((keccak txn.2).val, compact blockNumberAsBytes)
    extractLookups ethTx es (loadBigU64 blockNumberAsBytes) (collected ++ entries)

/-- The stage, which starts behind the last processed block or behind the genesis. An exception
leaves the tables as they are. -/
def txLookup (full : Bool) (db : LookupTables) : Option LookupTables := do
  let lastProcessed := if full then 0 else db.progress
  let (collected, blockNumber) ← extractLookups keccak db.ethTx
    (db.blockBodies.seek (bigU64 (lastProcessed + 1))) 0 []
  if collected.isEmpty then some db
  else
    let txLookup ← loadTable db.txLookup collected
    some { db with txLookup, progress := blockNumber }

inductive LookupReport
  | notFound (blockNumber : Uint64) (i : ℕ)
  | mismatch (hash : Bytes32) (expected actual : Uint64)
  | missing (blockNumber txnCount : Uint64) (i : ℕ)

def checkTransaction (lookups : PlainTable) (blockNumber expected : Uint64) (txn : Entry × ℕ) :
    Option LookupReport :=
  let hash := keccak txn.1.2
  match lookups.get hash.val with
  | none => some (.notFound blockNumber txn.2)
  | some lookupData =>
    let actual := loadBigU64 (padLeft lookupData 8)
    if actual ≠ expected then some (.mismatch hash expected actual) else none

/-- The reports on one body. The number of the block is expected, whatever its key says. -/
def checkBody (db : LookupTables) (expected : Uint64) (e : Entry) : Option (List LookupReport) := do
  let blockNumber := loadBigU64 e.1
  let body ← storedBody e
  let txns := bodyTransactions db.ethTx body
  let reports := txns.zipIdx.filterMap (checkTransaction keccak db.txLookup blockNumber expected)
  if txns.length ≠ body.txnCount.toNat then
    some (reports ++ [.missing blockNumber body.txnCount txns.length])
  else some reports

def checkBodies (db : LookupTables) : Uint64 → List Entry → Option (List LookupReport)
  | _, [] => some []
  | expected, e :: es => do
    let reports ← checkBody keccak db expected e
    let rest ← checkBodies db (expected + 1) es
    some (reports ++ rest)

/-- What `check_tx_lookup` reports, unless it throws. -/
def checkLookups (db : LookupTables) : Option (List LookupReport) :=
  checkBodies keccak db 0 db.blockBodies.entries

end Stage

section Numbers

theorem takeWhile_zeros (b : Bytes) :
    (b.takeWhile fun x => x = 0) = List.replicate (b.length - (b.dropWhile fun x => x = 0).length) 0 := by
  have hlength : (b.takeWhile fun x => x = 0).length =
      b.length - (b.dropWhile fun x => x = 0).length := by
    conv_rhs => rw [← List.takeWhile_append_dropWhile (p := fun x => x = 0) (l := b)]
    rw [List.length_append, List.takeWhile_append_dropWhile]
    omega
  rw [← hlength]
  refine List.eq_replicate_of_mem fun x hx => ?_
  simpa using List.mem_takeWhile_imp hx

/-- What is left out is put back. -/
theorem padLeft_compact (b : Bytes) : padLeft (compact b) b.length = b := by
  rw [compact]
  split_ifs
  · exact padLeft_of_le le_rfl
  · rw [padLeft, ← takeWhile_zeros, List.takeWhile_append_dropWhile]

theorem bigU64_append_lt_iff {n m : Uint64} {b : Bytes} :
    bigU64 n ++ b < bigU64 m ↔ n.toNat < m.toNat := by
  have hlen : (bigU64 n).length = (bigU64 m).length := by rw [length_bigU64, length_bigU64]
  constructor
  · intro h
    by_contra hle
    rcases Nat.lt_or_eq_of_le (not_lt.mp hle) with hlt | heq
    · have hgt := append_lt_append_of_lt (bigU64_lt_iff.mpr hlt) hlen.symm [] b
      rw [List.append_nil] at hgt
      exact List.lt_asymm h hgt
    · rw [BitVec.eq_of_toNat_eq heq] at h
      exact absurd (List.prefix_append (bigU64 n) b).le (List.not_le.mpr h)
  · intro hlt
    have h := append_lt_append_of_lt (bigU64_lt_iff.mpr hlt) hlen b []
    rwa [List.append_nil] at h

theorem loadBigU64_take (key : Bytes) : loadBigU64 (key.take 8) = loadBigU64 key := by
  rw [loadBigU64, loadBigU64, List.take_take, Nat.min_self]

theorem loadBigU64_blockHashKey (n : Uint64) (hash : Bytes32) :
    loadBigU64 (blockHashKey n hash) = n := by
  rw [← loadBigU64_take, take_blockHashKey, loadBigU64_blockKey]

end Numbers

section Runs

variable (keccak : Bytes → Bytes32)

def txnsOf (ethTx : PlainTable) (e : Entry) : List Entry :=
  ((storedBody e).map (bodyTransactions ethTx)).getD []

def lookupEntries (ethTx : PlainTable) (e : Entry) : List Entry :=
  (txnsOf ethTx e).map fun txn => ((keccak txn.2).val, compact (e.1.take 8))

/-- One body for each number from that of the genesis on, which has no transactions. All
transactions are there, and no two have the same hash. -/
structure Bodies (blockBodies ethTx : PlainTable) : Prop where
  lt : blockBodies.entries.length < 2 ^ 64
  formed : ∀ (i : ℕ) (h : i < blockBodies.entries.length), ∃ hash : Bytes32,
    (blockBodies.entries[i]).1 = blockHashKey (BitVec.ofNat 64 i) hash
  stored : ∀ e ∈ blockBodies.entries, ∃ body, storedBody e = some body ∧
    (bodyTransactions ethTx body).length = body.txnCount.toNat
  genesis : ∀ e ∈ blockBodies.entries, loadBigU64 e.1 = 0 → txnsOf ethTx e = []
  nodup : (blockBodies.entries.flatMap fun e =>
    (txnsOf ethTx e).map fun txn => keccak txn.2).Nodup

/-- The transactions of the block with a number. -/
def lookupItems (blockBodies ethTx : PlainTable) (n : ℕ) : Set Entry :=
  {x | ∃ e ∈ blockBodies.entries, (loadBigU64 e.1).toNat = n ∧ x ∈ lookupEntries keccak ethTx e}

inductive LookupEvent
  | bodies (blockBodies ethTx : PlainTable)
  | stage (full : Bool)

/-- Bodies are imported, or those that have not been processed are replaced. A stage that fails
leaves the tables as they are. -/
inductive LookupStep : LookupTables → LookupEvent → LookupTables → Prop
  | bodies {db : LookupTables} {blockBodies ethTx : PlainTable}
      (hbodies : Bodies keccak blockBodies ethTx)
      (hkept : ∀ n ≤ db.progress.toNat,
        lookupItems keccak blockBodies ethTx n = lookupItems keccak db.blockBodies db.ethTx n) :
      LookupStep db (.bodies blockBodies ethTx) { db with blockBodies, ethTx }
  | stage {db : LookupTables} (full : Bool) :
      LookupStep db (.stage full) ((txLookup keccak full db).getD db)

/-- The transactions up to the progress are found by their hashes. -/
structure LookedUp (db : LookupTables) : Prop where
  bodies : Bodies keccak db.blockBodies db.ethTx
  lt : db.progress.toNat + 1 < 2 ^ 64
  covers : Covers (lookupItems keccak db.blockBodies db.ethTx) db.progress.toNat db.txLookup.get

variable {keccak} {blockBodies ethTx : PlainTable} {db db' : LookupTables}

theorem Bodies.exists_index (h : Bodies keccak blockBodies ethTx) {e : Entry}
    (he : e ∈ blockBodies.entries) : ∃ (i : ℕ) (hash : Bytes32), i < blockBodies.entries.length ∧
      e.1 = blockHashKey (BitVec.ofNat 64 i) hash ∧ (loadBigU64 e.1).toNat = i := by
  obtain ⟨i, hi, rfl⟩ := List.mem_iff_getElem.mp he
  obtain ⟨hash, hkey⟩ := h.formed i hi
  refine ⟨i, hash, hi, hkey, ?_⟩
  rw [hkey, loadBigU64_blockHashKey, BitVec.toNat_ofNat]
  exact Nat.mod_eq_of_lt (hi.trans h.lt)

theorem Bodies.single (h : Bodies keccak blockBodies ethTx) :
    Single (lookupItems keccak blockBodies ethTx) := by
  rintro m n x x' ⟨e, he, -, hx⟩ ⟨e', he', -, hx'⟩ heq
  obtain ⟨txn, htxn, rfl⟩ := List.mem_map.mp hx
  obtain ⟨txn', htxn', rfl⟩ := List.mem_map.mp hx'
  have hhash : keccak txn.2 = keccak txn'.2 := Subtype.ext heq
  by_cases hsame : e = e'
  · rw [hsame]
  · obtain ⟨-, hpairwise⟩ := List.nodup_flatMap.mp h.nodup
    have : Std.Symm (Function.onFun List.Disjoint fun e => (txnsOf ethTx e).map fun txn =>
      keccak txn.2) := ⟨fun _ _ hd => List.Disjoint.symm hd⟩
    have hdisjoint := hpairwise.forall he he' hsame
    exact absurd (List.mem_map.mpr ⟨txn', htxn', hhash.symm⟩)
      (hdisjoint (List.mem_map.mpr ⟨txn, htxn, rfl⟩))

theorem Bodies.nodup_lookups (h : Bodies keccak blockBodies ethTx) {es : List Entry}
    (hes : es.Sublist blockBodies.entries) : (es.flatMap (lookupEntries keccak ethTx)).Nodup := by
  have hhashes : (es.flatMap fun e => (txnsOf ethTx e).map fun txn => keccak txn.2).Nodup :=
    h.nodup.sublist (hes.flatMap _)
  refine List.Nodup.of_map Prod.fst ?_
  have hmap : (es.flatMap (lookupEntries keccak ethTx)).map Prod.fst =
      (es.flatMap fun e => (txnsOf ethTx e).map fun txn => keccak txn.2).map Subtype.val := by
    rw [List.map_flatMap, List.map_flatMap]
    congr 1
    funext e
    rw [lookupEntries, List.map_map, List.map_map]
    rfl
  rw [hmap]
  exact hhashes.map Subtype.val_injective

variable (keccak ethTx) in
theorem extractLookups_eq {es : List Entry} (h : ∀ e ∈ es, ∃ body, storedBody e = some body)
    (blockNumber : Uint64) (collected : List Entry) :
    ∃ n, extractLookups keccak ethTx es blockNumber collected =
        some (collected ++ es.flatMap (lookupEntries keccak ethTx), n) ∧
      (es = [] ∧ n = blockNumber ∨ ∃ e ∈ es, n = loadBigU64 e.1) := by
  induction es generalizing blockNumber collected with
  | nil => exact ⟨blockNumber, by simp [extractLookups], .inl ⟨rfl, rfl⟩⟩
  | cons e es ih =>
    obtain ⟨body, hbody⟩ := h e List.mem_cons_self
    have hentries : (bodyTransactions ethTx body).map (fun txn =>
        ((keccak txn.2).val, compact (e.1.take 8))) = lookupEntries keccak ethTx e := by
      rw [lookupEntries, txnsOf, hbody]
      rfl
    obtain ⟨n, hrest, hn⟩ := ih (fun e' he' => h e' (List.mem_cons_of_mem e he'))
      (loadBigU64 (e.1.take 8)) (collected ++ lookupEntries keccak ethTx e)
    refine ⟨n, ?_, .inr ?_⟩
    · rw [extractLookups, hbody, List.flatMap_cons, ← List.append_assoc, ← hrest, ← hentries]
      rfl
    · rcases hn with ⟨-, rfl⟩ | ⟨e', he', rfl⟩
      · exact ⟨e, List.mem_cons_self, loadBigU64_take e.1⟩
      · exact ⟨e', List.mem_cons_of_mem e he', rfl⟩

theorem loadBigU64_lt_bigU64 {n m : Uint64} {hash : Bytes32} :
    ¬blockHashKey n hash < bigU64 m ↔ m.toNat ≤ n.toNat := by
  rw [blockHashKey, blockKey, bigU64_append_lt_iff, Nat.not_lt]

/-- What the stage collects are the transactions behind a number. -/
theorem Bodies.mem_seek (h : Bodies keccak blockBodies ethTx) {progress : Uint64}
    (hlt : progress.toNat + 1 < 2 ^ 64) {x : Entry} :
    x ∈ (blockBodies.seek (bigU64 (progress + 1))).flatMap (lookupEntries keccak ethTx) ↔
      ∃ m, progress.toNat < m ∧ x ∈ lookupItems keccak blockBodies ethTx m := by
  have hsum := toNat_next hlt
  have hbehind {e : Entry} (he : e ∈ blockBodies.entries) :
      ¬e.1 < bigU64 (progress + 1) ↔ progress.toNat < (loadBigU64 e.1).toNat := by
    obtain ⟨i, hash, -, hkey, -⟩ := h.exists_index he
    rw [hkey, loadBigU64_lt_bigU64, loadBigU64_blockHashKey, hsum, Nat.succ_le_iff]
  rw [List.mem_flatMap]
  constructor
  · rintro ⟨e, he, hx⟩
    obtain ⟨hin, hge⟩ := Senders.mem_seek.mp he
    exact ⟨_, (hbehind hin).mp hge, e, hin, rfl, hx⟩
  · rintro ⟨m, hm, e, he, rfl, hx⟩
    exact ⟨e, Senders.mem_seek.mpr ⟨he, (hbehind he).mpr hm⟩, hx⟩

/-- Over such bodies the stage does not fail, and all transactions are covered after it. -/
theorem LookedUp.exists_txLookup (hdb : LookedUp keccak db) (full : Bool) :
    ∃ db', txLookup keccak full db = some db' ∧ LookedUp keccak db' ∧
      db'.blockBodies = db.blockBodies ∧ db'.ethTx = db.ethTx ∧
      ∀ n, Covers (lookupItems keccak db.blockBodies db.ethTx) n db'.txLookup.get := by
  have hstart : (if full then 0 else db.progress).toNat ≤ db.progress.toNat := by
    cases full
    · exact le_rfl
    · exact Nat.zero_le _
  have hcovers := hdb.covers.mono hstart
  have hlt : (if full then 0 else db.progress).toNat + 1 < 2 ^ 64 :=
    lt_of_le_of_lt (Nat.succ_le_succ hstart) hdb.lt
  unfold txLookup
  dsimp only
  generalize (if full then 0 else db.progress) = last at hcovers hlt ⊢
  have hin {x : Entry} := hdb.bodies.mem_seek (x := x) hlt
  have hstored (e : Entry) (he : e ∈ db.blockBodies.seek (bigU64 (last + 1))) :
      ∃ body, storedBody e = some body := by
    obtain ⟨body, hbody, -⟩ := hdb.bodies.stored e (Senders.mem_seek.mp he).1
    exact ⟨body, hbody⟩
  obtain ⟨n, hextract, hn⟩ := extractLookups_eq keccak db.ethTx hstored 0 []
  rw [List.nil_append] at hextract
  generalize hcollected : (db.blockBodies.seek (bigU64 (last + 1))).flatMap
    (lookupEntries keccak db.ethTx) = collected at hin hextract
  rw [hextract]
  have hsingle : SingleKeys collected := by
    intro x hx y hy heq
    obtain ⟨m, -, hx⟩ := hin.mp hx
    obtain ⟨m', -, hy⟩ := hin.mp hy
    exact hdb.bodies.single m m' x y hx hy heq
  by_cases hempty : collected.isEmpty = true
  · refine ⟨db, if_pos hempty, hdb, rfl, rfl, hcovers.load hdb.bodies.single ?_⟩
    have hnone : {x : Entry | ∃ m, last.toNat < m ∧
        x ∈ lookupItems keccak db.blockBodies db.ethTx m} = ∅ := by
      ext x
      rw [Set.mem_ofPred_eq, ← hin, List.isEmpty_iff.mp hempty]
      simp
    rw [hnone]
    exact .refl _
  · have hnodup : collected.Nodup := by
      rw [← hcollected]
      exact hdb.bodies.nodup_lookups (List.dropWhile_sublist _)
    obtain ⟨lookups, hload⟩ := exists_loadTable (t := db.txLookup) hnodup hsingle
    have hloads := loads_loadTable hsingle hload
    simp only [hin] at hloads
    have hall := hcovers.load hdb.bodies.single hloads
    refine ⟨{ db with txLookup := lookups, progress := n }, ?_, ⟨hdb.bodies, ?_, hall _⟩, rfl, rfl,
      hall⟩
    · change (if collected.isEmpty = true then some db else _) = _
      rw [if_neg hempty, hload]
      rfl
    · rcases hn with ⟨hnil, -⟩ | ⟨e, he, rfl⟩
      · rw [hnil] at hcollected
        exact absurd (List.isEmpty_iff.mpr hcollected.symm) hempty
      · obtain ⟨i, -, hi, -, hnumber⟩ := hdb.bodies.exists_index (Senders.mem_seek.mp he).1
        have hlt := hdb.bodies.lt
        rw [hnumber]
        omega

theorem lookedUp_step {e : LookupEvent} (hdb : LookedUp keccak db) (h : LookupStep keccak db e db') :
    LookedUp keccak db' := by
  cases h with
  | bodies hbodies hkept => exact ⟨hbodies, hdb.lt, hdb.covers.congr hkept⟩
  | stage full =>
    obtain ⟨db₁, hrun, hdb₁, -⟩ := hdb.exists_txLookup full
    rw [hrun]
    exact hdb₁

/-- Nothing has been processed yet. -/
theorem lookedUp_start {lookups : PlainTable} (hbodies : Bodies keccak blockBodies ethTx) :
    LookedUp keccak ⟨blockBodies, ethTx, lookups, 0⟩ := by
  refine ⟨hbodies, Nat.one_lt_two_pow (by decide), ?_⟩
  rintro n hn x ⟨e, he, hnumber, hx⟩
  have hzero : loadBigU64 e.1 = 0 := BitVec.eq_of_toNat_eq (hnumber.trans (Nat.le_zero.mp hn))
  rw [lookupEntries, hbodies.genesis e he hzero] at hx
  cases hx

theorem checkBodies_eq_nil {es : List Entry} {expected : Uint64} (h : ∀ (i : ℕ) (hi : i < es.length),
    checkBody keccak db (expected + BitVec.ofNat 64 i) es[i] = some []) :
    checkBodies keccak db expected es = some [] := by
  induction es generalizing expected with
  | nil => rfl
  | cons e es ih =>
    have hzero : expected + BitVec.ofNat 64 0 = expected := BitVec.add_zero _
    have hfirst : checkBody keccak db (expected + BitVec.ofNat 64 0) e = some [] :=
      h 0 (Nat.succ_pos _)
    rw [hzero] at hfirst
    have hrest : checkBodies keccak db (expected + 1) es = some [] := by
      refine ih fun i hi => ?_
      have hnext := h (i + 1) (Nat.succ_lt_succ hi)
      rw [BitVec.ofNat_add, BitVec.add_comm (BitVec.ofNat 64 i), ← BitVec.add_assoc] at hnext
      exact hnext
    rw [checkBodies]
    change (checkBody keccak db expected e).bind _ = _
    rw [hfirst, hrest]
    rfl

/-- A body whose transactions are found under the number that is expected. -/
theorem checkBody_eq_nil {expected : Uint64} {e : Entry} {body : BlockBodyForStorage}
    (hbody : storedBody e = some body) (hkey : e.1.take 8 = blockKey expected)
    (hcount : (bodyTransactions db.ethTx body).length = body.txnCount.toNat)
    (hfound : ∀ x ∈ lookupEntries keccak db.ethTx e, db.txLookup.get x.1 = some x.2) :
    checkBody keccak db expected e = some [] := by
  rw [checkBody]
  dsimp only
  rw [hbody, Option.bind_eq_bind, Option.bind_some, if_neg (not_not.mpr hcount)]
  congr 1
  rw [List.filterMap_eq_nil_iff]
  intro txn htxn
  have hin : ((keccak txn.1.2).val, compact (e.1.take 8)) ∈ lookupEntries keccak db.ethTx e := by
    rw [lookupEntries, txnsOf, hbody]
    exact List.mem_map.mpr ⟨txn.1, (List.mem_zipIdx' htxn).2 ▸ List.getElem_mem _, rfl⟩
  rw [checkTransaction, hfound _ hin]
  have hpad := padLeft_compact (e.1.take 8)
  rw [hkey] at hpad ⊢
  rw [blockKey, length_bigU64] at hpad
  dsimp only
  rw [blockKey, hpad, ← blockKey, loadBigU64_blockKey, if_neg (not_not.mpr rfl)]

/-- From the beginning on, whatever bodies are imported and however often the stage is run: another
run succeeds, and there is nothing to report after it. -/
theorem checkLookups_of_run {lookups : PlainTable} {es : List LookupEvent}
    (hbodies : Bodies keccak blockBodies ethTx)
    (h : Run (LookupStep keccak) ⟨blockBodies, ethTx, lookups, 0⟩ es db) (full : Bool) :
    ∃ db', txLookup keccak full db = some db' ∧ checkLookups keccak db' = some [] := by
  have hdb : LookedUp keccak db := h.preserves (fun _ _ _ hs hstep => lookedUp_step hs hstep)
    (lookedUp_start hbodies)
  obtain ⟨db', hrun, hdb', htable, htxns, hcovers⟩ := hdb.exists_txLookup full
  refine ⟨db', hrun, checkBodies_eq_nil fun i hi => ?_⟩
  have hin := List.getElem_mem hi
  obtain ⟨hash, hkey⟩ := hdb'.bodies.formed i hi
  obtain ⟨body, hbody, hcount⟩ := hdb'.bodies.stored _ hin
  have hexpected : (0 : Uint64) + BitVec.ofNat 64 i = BitVec.ofNat 64 i := BitVec.zero_add _
  rw [hexpected]
  refine checkBody_eq_nil hbody (by rw [hkey, take_blockHashKey]) hcount fun x hx => ?_
  exact hcovers _ _ le_rfl x ⟨_, htable ▸ hin, rfl, htxns ▸ hx⟩

section Examples

/-- A body for every number, under the hash zero. -/
private theorem bodies_of_default (hlt : blockBodies.entries.length < 2 ^ 64)
    (hformed : ∀ i : Fin blockBodies.entries.length,
      (blockBodies.entries.get i).1 = blockHashKey (BitVec.ofNat 64 i) default)
    (hstored : ∀ e ∈ blockBodies.entries, (storedBody e).any (fun body =>
      (bodyTransactions ethTx body).length = body.txnCount.toNat) = true)
    (hgenesis : ∀ e ∈ blockBodies.entries, loadBigU64 e.1 = 0 → txnsOf ethTx e = [])
    (hnodup : (blockBodies.entries.flatMap fun e =>
      (txnsOf ethTx e).map fun txn => keccak txn.2).Nodup) : Bodies keccak blockBodies ethTx where
  lt := hlt
  formed i hi := ⟨default, hformed ⟨i, hi⟩⟩
  stored e he := by
    obtain ⟨body, hbody, hcount⟩ := (Option.any_eq_true _ _).mp (hstored e he)
    exact ⟨body, hbody, of_decide_eq_true hcount⟩
  genesis := hgenesis
  nodup := hnodup

/-- The hashes of two transactions. -/
private def twoTransactionHash (txn : Bytes) : Bytes32 :=
  if txn = [1] then FixedBytes.replicate 32 1 else FixedBytes.replicate 32 2

private def noTransactions : PlainTable :=
  ({} : PlainTable).put (blockHashKey 0 default) (Rlp.encodeBlockBodyForStorage {})

private def twoBodies : PlainTable := noTransactions.put (blockHashKey 1 default)
  (Rlp.encodeBlockBodyForStorage { baseTxnId := 0, txnCount := 1 })

private def threeBodies : PlainTable := twoBodies.put (blockHashKey 2 default)
  (Rlp.encodeBlockBodyForStorage { baseTxnId := 1, txnCount := 1 })

private def oneTransaction : PlainTable := ({} : PlainTable).put (bigU64 0) [1]

private def twoTransactions : PlainTable := oneTransaction.put (bigU64 1) [2]

private theorem bodies_noTransactions : Bodies twoTransactionHash noTransactions {} :=
  bodies_of_default (by decide +kernel) (by decide +kernel) (by decide +kernel) (by decide +kernel)
    (by decide +kernel)

private theorem bodies_twoBodies : Bodies twoTransactionHash twoBodies oneTransaction :=
  bodies_of_default (by decide +kernel) (by decide +kernel) (by decide +kernel) (by decide +kernel)
    (by decide +kernel)

private theorem bodies_threeBodies : Bodies twoTransactionHash threeBodies twoTransactions :=
  bodies_of_default (by decide +kernel) (by decide +kernel) (by decide +kernel) (by decide +kernel)
    (by decide +kernel)

/-- The same bodies have the same transactions, up to a number. -/
private theorem lookupItems_eq_of_entries {blockBodies' ethTx' : PlainTable} {m : ℕ}
    (h : blockBodies.entries.filter (fun e => (loadBigU64 e.1).toNat ≤ m) =
      blockBodies'.entries.filter fun e => (loadBigU64 e.1).toNat ≤ m)
    (htxns : ∀ e ∈ blockBodies.entries, (loadBigU64 e.1).toNat ≤ m →
      lookupEntries keccak ethTx e = lookupEntries keccak ethTx' e) {n : ℕ} (hn : n ≤ m) :
    lookupItems keccak blockBodies ethTx n = lookupItems keccak blockBodies' ethTx' n := by
  have hmem (e : Entry) (he : (loadBigU64 e.1).toNat = n) :
      e ∈ blockBodies.entries ↔ e ∈ blockBodies'.entries := by
    have hin := congrArg (e ∈ ·) h
    simpa [he, hn] using hin
  ext x
  constructor
  · rintro ⟨e, he, hnumber, hx⟩
    rw [htxns e he (hnumber ▸ hn)] at hx
    exact ⟨e, (hmem e hnumber).mp he, hnumber, hx⟩
  · rintro ⟨e, he, hnumber, hx⟩
    have he' := (hmem e hnumber).mpr he
    rw [← htxns e he' (hnumber ▸ hn)] at hx
    exact ⟨e, he', hnumber, hx⟩

/-- A body is imported and looked up, and one more is imported. -/
theorem checkLookups_of_run_threeBodies : ∃ db db',
    Run (LookupStep twoTransactionHash) ⟨noTransactions, {}, {}, 0⟩
      [.bodies twoBodies oneTransaction, .stage false, .bodies threeBodies twoTransactions] db ∧
    db.progress = 1 ∧ txLookup twoTransactionHash false db = some db' ∧
      checkLookups twoTransactionHash db' = some [] := by
  have hstart : LookedUp twoTransactionHash ⟨noTransactions, {}, {}, 0⟩ :=
    lookedUp_start bodies_noTransactions
  have himport : LookupStep twoTransactionHash ⟨noTransactions, {}, {}, 0⟩
      (.bodies twoBodies oneTransaction) ⟨twoBodies, oneTransaction, {}, 0⟩ :=
    .bodies bodies_twoBodies fun n hn => lookupItems_eq_of_entries (m := 0) (by decide +kernel)
      (by decide +kernel) hn
  obtain ⟨db, hstage, -, hbodies, htxns, -⟩ := (lookedUp_step hstart himport).exists_txLookup false
  have hstep : LookupStep twoTransactionHash ⟨twoBodies, oneTransaction, {}, 0⟩ (.stage false) db := by
    have hstep : LookupStep twoTransactionHash ⟨twoBodies, oneTransaction, {}, 0⟩ (.stage false)
        ((txLookup twoTransactionHash false ⟨twoBodies, oneTransaction, {}, 0⟩).getD _) :=
      .stage false
    rwa [hstage] at hstep
  have hprogress : db.progress = 1 := by
    have hall : (txLookup twoTransactionHash false ⟨twoBodies, oneTransaction, {}, 0⟩).all
        (fun db => db.progress = 1) = true := by decide +kernel
    exact of_decide_eq_true ((Option.all_eq_true _ _).mp hall db hstage)
  have himport' : LookupStep twoTransactionHash db (.bodies threeBodies twoTransactions)
      { db with blockBodies := threeBodies, ethTx := twoTransactions } := by
    refine .bodies bodies_threeBodies fun n hn => ?_
    rw [hprogress] at hn
    rw [hbodies, htxns]
    exact (lookupItems_eq_of_entries (m := 1) (by decide +kernel) (by decide +kernel) hn).symm
  have hrun := Run.cons himport (.cons hstep (.cons himport' (.nil _)))
  obtain ⟨db', hlookup, hnothing⟩ := checkLookups_of_run bodies_noTransactions hrun false
  exact ⟨_, db', hrun, hprogress, hlookup, hnothing⟩

end Examples

end Runs

end Silkworm.Db
