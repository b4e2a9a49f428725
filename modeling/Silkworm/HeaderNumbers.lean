import Silkworm.Genesis
import Silkworm.HeaderRanges
import Silkworm.LoadedTables
import Silkworm.Runs

/-!
# The numbers of headers

A stage copies the canonical hashes from the last processed block on into a table by hash, and
stores the number of the last block in 32 bits. It counts them in 32 bits too, and a run that counts
none does nothing. A program compares the two tables. After a run of the stage it has nothing to
report, whatever was imported and processed before, unless the counter has come round to zero.
-/

namespace Silkworm.Db
open BigEndian SortedTables IncrementalIndexes
open Senders.HashesTable (mem_seekExact)

/-- The number in the first bytes of a key. -/
def loadBigU64 (key : Bytes) : Uint64 := BitVec.ofNat 64 (ofBigEndian (key.take 8))

structure HeaderTables where
  canonicalHashes : PlainTable
  headerNumbers : PlainTable
  progress : Uint64

section Stage

/-- The variables of the loop over the canonical hashes. -/
structure HashExtraction where
  expectedBlockNumber : Uint64
  blockNumber : BitVec 32 := 0
  blocksProcessedCount : BitVec 32 := 0
  collected : List Entry := []

/-- The loop over the canonical hashes from the expected number on. An exception is none. -/
def extractHashes : List Entry → HashExtraction → Option HashExtraction
  | [], x => some x
  | e :: es, x =>
    if e.2.length ≠ kHashLength then none
    else if loadBigU64 e.1 ≠ x.expectedBlockNumber then none
    else extractHashes es
      { expectedBlockNumber := x.expectedBlockNumber + 1
        blockNumber := x.expectedBlockNumber.setWidth 32
        blocksProcessedCount := x.blocksProcessedCount + 1
        collected := x.collected ++ [(e.2, e.1)] }

/-- The stage. An exception leaves the tables as they are. -/
def blockHashes (db : HeaderTables) : Option HeaderTables := do
  let expected := db.progress + 1
  let x ← extractHashes (db.canonicalHashes.seekExact (blockKey expected))
    { expectedBlockNumber := expected }
  if x.blocksProcessedCount = 0 then some db
  else
    let headerNumbers ← loadTable db.headerNumbers x.collected
    some { db with headerNumbers, progress := x.blockNumber.setWidth 64 }

/-- The canonical hashes from the next number on. -/
def HeaderTables.newHeaders (db : HeaderTables) : List Entry :=
  db.canonicalHashes.seekExact (blockKey (db.progress + 1))

inductive HashReport
  | notFound (hash : Bytes) (blockNumber : Uint64)
  | mismatch (hash : Bytes) (hashHeight blockHeight : Uint64)

/-- What `check_blockhashes` reports. -/
def checkBlockHashes (db : HeaderTables) : List HashReport :=
  db.canonicalHashes.entries.filterMap fun e =>
    match db.headerNumbers.get e.2 with
    | none => some (.notFound e.2 (loadBigU64 e.1))
    | some data =>
      if data ≠ e.1 then some (.mismatch e.2 (loadBigU64 e.1) (loadBigU64 data)) else none

end Stage

section Runs

/-- The numbers of headers and their hashes, no two of which are the same. -/
structure Canonical (t : PlainTable) : Prop where
  formed : ∀ e ∈ t.entries, ∃ (n : Uint64) (hash : Bytes32), e = (blockKey n, hash.val)
  injective : ∀ e ∈ t.entries, ∀ e' ∈ t.entries, e.2 = e'.2 → e.1 = e'.1

/-- Headers without a gap. -/
def Contiguous (t : PlainTable) : Prop :=
  ∀ m n : Uint64, m ≤ n → (t.get (blockKey n)).isSome → (t.get (blockKey m)).isSome

inductive HeaderEvent
  | headers (canonicalHashes : PlainTable)
  | stage

/-- Headers are imported, or those that have not been processed are replaced. A stage that fails
leaves the tables as they are. -/
inductive HeaderStep : HeaderTables → HeaderEvent → HeaderTables → Prop
  | headers {db : HeaderTables} {t : PlainTable} (ht : Canonical t)
      (hkept : ∀ n ≤ db.progress, t.get (blockKey n) = db.canonicalHashes.get (blockKey n)) :
      HeaderStep db (.headers t) { db with canonicalHashes := t }
  | stage {db : HeaderTables} : HeaderStep db .stage ((blockHashes db).getD db)

/-- The canonical hash of a number as an entry by hash. -/
def hashItems (t : PlainTable) (n : ℕ) : Set Entry :=
  {e | ∃ m : Uint64, m.toNat = n ∧ e.2 = blockKey m ∧ t.get (blockKey m) = some e.1}

/-- The headers up to the progress, which has 32 bits, are found by their hashes. -/
structure HeadersIndexed (db : HeaderTables) : Prop where
  canonical : Canonical db.canonicalHashes
  lt : db.progress.toNat < 2 ^ 32
  covers : Covers (hashItems db.canonicalHashes) db.progress.toNat db.headerNumbers.get

variable {t : PlainTable} {db db' : HeaderTables}

theorem loadBigU64_blockKey (n : Uint64) : loadBigU64 (blockKey n) = n := by
  rw [loadBigU64, blockKey, List.take_of_length_le (length_bigU64 n).le, bigU64,
    ofBigEndian_fixedBigEndian]
  exact BitVec.ofNat_toNat ..

theorem take_blockHashKey (n : Uint64) (hash : Bytes32) :
    (blockHashKey n hash).take 8 = blockKey n := by
  have hlength : 8 ≤ (blockKey n).length := (length_bigU64 n).ge
  rw [blockHashKey, List.take_append_of_le_length hlength]
  exact List.take_of_length_le (length_bigU64 n).le

theorem single_hashItems (ht : Canonical t) : Single (hashItems t) := by
  rintro m n e e' ⟨k, -, hk, hget⟩ ⟨k', -, hk', hget'⟩ heq
  rw [hk, hk']
  exact ht.injective _ (PlainTable.get_eq_some.mp hget) _ (PlainTable.get_eq_some.mp hget') heq

/-- What is collected are the entries the other way round. -/
theorem collected_of_extractHashes {es : List Entry} {x x' : HashExtraction}
    (h : extractHashes es x = some x') :
    x'.collected = x.collected ++ es.map fun e => (e.2, e.1) := by
  induction es generalizing x with
  | nil =>
    cases h
    simp
  | cons e es ih =>
    rw [extractHashes] at h
    split_ifs at h
    rw [ih h]
    simp

/-- The entries are counted modulo 2³². -/
theorem count_of_extractHashes {es : List Entry} {x x' : HashExtraction}
    (h : extractHashes es x = some x') :
    x'.blocksProcessedCount = x.blocksProcessedCount + BitVec.ofNat 32 es.length := by
  induction es generalizing x with
  | nil =>
    cases h
    simp
  | cons e es ih =>
    rw [extractHashes] at h
    split_ifs at h
    rw [ih h, List.length_cons, Nat.add_comm es.length, BitVec.ofNat_add, BitVec.add_assoc]
    rfl

theorem seekExact_eq_nil {t : Table} {key : Bytes} : t.seekExact key = [] ↔ t.get key = none := by
  rw [Table.seekExact, List.dropWhile_eq_nil_iff, Table.get_eq_none_iff]
  constructor
  · intro h v hv
    simpa using h _ hv
  · intro h e he
    have hne : e.1 ≠ key := fun heq => h e.2 (heq ▸ he)
    simpa using hne

theorem mem_hashItems (ht : Canonical t) {e : Entry} (n : ℕ) :
    (∃ m, n < m ∧ e ∈ hashItems t m) ↔ (e.2, e.1) ∈ t.entries ∧ n < (loadBigU64 e.2).toNat := by
  constructor
  · rintro ⟨m, hlt, k, rfl, hk, hget⟩
    rw [hk, loadBigU64_blockKey]
    exact ⟨PlainTable.get_eq_some.mp hget, hlt⟩
  · rintro ⟨hin, hlt⟩
    obtain ⟨k, hash, heq⟩ := ht.formed _ hin
    obtain ⟨hkey, hhash⟩ := Prod.mk.inj heq
    rw [hkey, loadBigU64_blockKey] at hlt
    exact ⟨_, hlt, k, rfl, hkey, PlainTable.get_eq_some.mpr (hkey ▸ hin)⟩

theorem toNat_next {n : Uint64} (h : n.toNat + 1 < 2 ^ 64) : (n + 1).toNat = n.toNat + 1 := by
  rw [BitVec.toNat_add]
  exact Nat.mod_eq_of_lt h

/-- What the stage collects if the next number is there are all the headers behind its progress. -/
theorem mem_collected (ht : Canonical t) {progress : Uint64}
    (hnext : (t.get (blockKey (progress + 1))).isSome) (hlt : progress.toNat + 1 < 2 ^ 64) {e : Entry} :
    e ∈ (t.seekExact (blockKey (progress + 1))).map (fun e => (e.2, e.1)) ↔
      ∃ m, progress.toNat < m ∧ e ∈ hashItems t m := by
  obtain ⟨hash, hhash⟩ := Option.isSome_iff_exists.mp hnext
  have hsum := toNat_next hlt
  have hswap : e ∈ (t.seekExact (blockKey (progress + 1))).map (fun e => (e.2, e.1)) ↔
      (e.2, e.1) ∈ t.seekExact (blockKey (progress + 1)) := by
    constructor
    · intro h
      obtain ⟨e', he', rfl⟩ := List.mem_map.mp h
      exact he'
    · exact fun h => List.mem_map.mpr ⟨_, h, rfl⟩
  rw [hswap, mem_seekExact ⟨_, PlainTable.get_eq_some.mp hhash, rfl⟩, mem_hashItems ht]
  refine and_congr_right fun hin => ?_
  obtain ⟨k, hash', heq⟩ := ht.formed _ hin
  rw [(Prod.mk.inj heq).1, loadBigU64_blockKey, blockKey, blockKey, bigU64_lt_iff, hsum]
  exact Nat.not_lt

theorem count_eq_zero_iff {x : HashExtraction}
    (h : extractHashes db.newHeaders { expectedBlockNumber := db.progress + 1 } = some x) :
    x.blocksProcessedCount = 0 ↔ 2 ^ 32 ∣ db.newHeaders.length := by
  have hcount : x.blocksProcessedCount = BitVec.ofNat 32 db.newHeaders.length :=
    (count_of_extractHashes h).trans (BitVec.zero_add _)
  rw [hcount, Nat.dvd_iff_mod_eq_zero, ← BitVec.toNat_ofNat]
  exact BitVec.toNat_eq

theorem nodup_seekExact (t : Table) (key : Bytes) : (t.seekExact key).Nodup :=
  t.nodup_entries.sublist (List.dropWhile_sublist _)

/-- What is collected has every key once. -/
theorem HeadersIndexed.collected (hdb : HeadersIndexed db) :
    SingleKeys (db.newHeaders.map fun e => (e.2, e.1)) ∧
      (db.newHeaders.map fun e => (e.2, e.1)).Nodup := by
  constructor
  · intro y hy z hz heq
    obtain ⟨e, he, rfl⟩ := List.mem_map.mp hy
    obtain ⟨e', he', rfl⟩ := List.mem_map.mp hz
    exact hdb.canonical.injective e ((List.dropWhile_sublist _).subset he) e'
      ((List.dropWhile_sublist _).subset he') heq
  · refine (nodup_seekExact _ _).map fun e e' heq => ?_
    obtain ⟨hsnd, hfst⟩ := Prod.mk.inj heq
    exact Prod.ext hfst hsnd

/-- A stage that does not fail has covered all headers, or its counter is zero at the end. -/
theorem HeadersIndexed.blockHashes (hdb : HeadersIndexed db) (h : Db.blockHashes db = some db') :
    HeadersIndexed db' ∧ db'.canonicalHashes = db.canonicalHashes ∧
      (db' = db ∧ 2 ^ 32 ∣ db.newHeaders.length ∨
        ∀ n, Covers (hashItems db'.canonicalHashes) n db'.headerNumbers.get) := by
  obtain ⟨x, hcollected, h⟩ := Option.bind_eq_some_iff.mp h
  have hmap := collected_of_extractHashes hcollected
  have hcount := count_eq_zero_iff hcollected
  rw [List.nil_append] at hmap
  split_ifs at h with hzero
  · cases h
    exact ⟨hdb, rfl, .inl ⟨rfl, hcount.mp hzero⟩⟩
  · obtain ⟨headerNumbers, hload, h⟩ := Option.bind_eq_some_iff.mp h
    cases h
    have hnext : (db.canonicalHashes.get (blockKey (db.progress + 1))).isSome := by
      rw [Option.isSome_iff_ne_none]
      intro hnone
      refine hzero (hcount.mpr ?_)
      rw [HeaderTables.newHeaders, seekExact_eq_nil.mpr hnone]
      exact dvd_zero _
    have hin {e : Entry} : e ∈ x.collected ↔
        ∃ m, db.progress.toNat < m ∧ e ∈ hashItems db.canonicalHashes m := by
      rw [hmap]
      exact mem_collected hdb.canonical hnext (by have := hdb.lt; omega)
    have hsingle := hdb.collected.1
    rw [HeaderTables.newHeaders, ← hmap] at hsingle
    have hloads := loads_loadTable hsingle hload
    simp only [hin] at hloads
    have hcovers := hdb.covers.load (single_hashItems hdb.canonical) hloads
    refine ⟨⟨hdb.canonical, ?_, hcovers _⟩, rfl, .inr hcovers⟩
    rw [BitVec.toNat_setWidth_of_le (by decide)]
    exact x.blockNumber.isLt

/-- The keys of a plain table are in a strict order. -/
theorem pairwise_keys (t : PlainTable) : t.entries.Pairwise fun e e' => e.1 < e'.1 := by
  have hnodup : t.entries.Pairwise (· ≠ ·) := t.nodup_entries
  refine (t.sorted.and hnodup).imp_of_mem fun {e e'} he he' h => ?_
  rcases h.1 with hlt | ⟨heq, -⟩
  · exact hlt
  · refine absurd (Prod.ext heq ?_) h.2
    exact t.single e.1 e.2 e'.2 he (heq ▸ he')

/-- Headers without a gap are accepted by the loop. -/
theorem exists_extractHashes {es : List Entry} (hsorted : es.Pairwise fun e e' => e.1 < e'.1)
    {x : HashExtraction} (hformed : ∀ e ∈ es, ∃ (n : Uint64) (hash : Bytes32),
      e = (blockKey n, hash.val) ∧ x.expectedBlockNumber.toNat ≤ n.toNat)
    (hgap : ∀ e ∈ es, ∀ m : Uint64, x.expectedBlockNumber.toNat ≤ m.toNat →
      m.toNat ≤ (loadBigU64 e.1).toNat → ∃ v, (blockKey m, v) ∈ es) :
    ∃ x', extractHashes es x = some x' := by
  induction es generalizing x with
  | nil => exact ⟨_, rfl⟩
  | cons e es ih =>
    obtain ⟨n, hash, rfl, hle⟩ := hformed e List.mem_cons_self
    obtain ⟨hlt, hsorted⟩ := List.pairwise_cons.mp hsorted
    have hgap' := hgap _ List.mem_cons_self
    simp only [loadBigU64_blockKey] at hgap'
    -- the expected number is there, and nothing comes before the first entry
    have hn : x.expectedBlockNumber = n := by
      obtain ⟨v, hv⟩ := hgap' x.expectedBlockNumber le_rfl hle
      rcases List.mem_cons.mp hv with heq | hv
      · exact bigU64_injective (congrArg Prod.fst heq)
      · have hbefore := bigU64_lt_iff.mp (hlt _ hv)
        omega
    rw [hn] at hgap
    have hlater (e : Entry) (he : e ∈ es) : ∃ (m : Uint64) (hash : Bytes32),
        e = (blockKey m, hash.val) ∧ n.toNat < m.toNat := by
      obtain ⟨m, hash', rfl, -⟩ := hformed e (List.mem_cons_of_mem _ he)
      exact ⟨m, hash', rfl, bigU64_lt_iff.mp (hlt _ he)⟩
    have hsucc {m : Uint64} (hm : n.toNat < m.toNat) : (n + 1).toNat = n.toNat + 1 :=
      toNat_next (lt_of_le_of_lt hm m.isLt)
    rw [extractHashes, if_neg (not_not.mpr hash.property), loadBigU64_blockKey, hn,
      if_neg (not_not.mpr rfl)]
    refine ih hsorted (fun e he => ?_) fun e he m hm hm' => ?_
    · obtain ⟨m, hash', rfl, hm⟩ := hlater e he
      exact ⟨m, hash', rfl, by rw [hsucc hm]; exact hm⟩
    · obtain ⟨k, hash', rfl, hk⟩ := hlater e he
      dsimp only at hm
      rw [hsucc hk] at hm
      obtain ⟨v, hv⟩ := hgap _ (List.mem_cons_of_mem _ he) m (by omega) hm'
      refine ⟨v, (List.mem_cons.mp hv).resolve_left fun heq => ?_⟩
      have hsame := bigU64_injective (congrArg Prod.fst heq)
      rw [hsame] at hm
      omega

/-- The loop accepts headers without a gap. -/
theorem HeadersIndexed.exists_extractHashes (hdb : HeadersIndexed db)
    (hc : Contiguous db.canonicalHashes) :
    ∃ x, extractHashes db.newHeaders { expectedBlockNumber := db.progress + 1 } = some x := by
  rw [HeaderTables.newHeaders]
  cases hnext : db.canonicalHashes.get (blockKey (db.progress + 1)) with
  | none =>
    rw [seekExact_eq_nil.mpr hnext]
    exact ⟨_, rfl⟩
  | some hash =>
    have hmem {e : Entry} := mem_seekExact (e := e) ⟨_, PlainTable.get_eq_some.mp hnext, rfl⟩
    have hform (e : Entry) (he : e ∈ db.canonicalHashes.seekExact (blockKey (db.progress + 1))) :
        ∃ (n : Uint64) (hash : Bytes32), e = (blockKey n, hash.val) ∧
          (db.progress + 1).toNat ≤ n.toNat := by
      obtain ⟨hin, hge⟩ := hmem.mp he
      obtain ⟨n, hash', rfl⟩ := hdb.canonical.formed e hin
      exact ⟨n, hash', rfl, Nat.not_lt.mp fun hlt => hge (bigU64_lt_iff.mpr hlt)⟩
    refine Db.exists_extractHashes ((pairwise_keys _).sublist (List.dropWhile_sublist _)) hform
      fun e he m hm hm' => ?_
    obtain ⟨n, hash', rfl, -⟩ := hform e he
    rw [loadBigU64_blockKey] at hm'
    obtain ⟨v, hv⟩ := Option.isSome_iff_exists.mp (hc m n (BitVec.le_def.mpr hm')
      (Option.isSome_iff_exists.mpr ⟨_, PlainTable.get_eq_some.mpr (hmem.mp he).1⟩))
    exact ⟨v, hmem.mpr ⟨PlainTable.get_eq_some.mp hv, fun hlt =>
      absurd (bigU64_lt_iff.mp hlt) (Nat.not_lt.mpr hm)⟩⟩

/-- Over headers without a gap the stage does not fail. -/
theorem HeadersIndexed.exists_blockHashes (hdb : HeadersIndexed db)
    (hc : Contiguous db.canonicalHashes) : ∃ db', Db.blockHashes db = some db' := by
  obtain ⟨x, hextract⟩ := hdb.exists_extractHashes hc
  have hmap := collected_of_extractHashes hextract
  rw [List.nil_append] at hmap
  rw [Db.blockHashes, ← HeaderTables.newHeaders, hextract]
  by_cases hzero : x.blocksProcessedCount = 0
  · exact ⟨db, if_pos hzero⟩
  · obtain ⟨hsingle, hnodup⟩ := hdb.collected
    rw [← hmap] at hsingle hnodup
    obtain ⟨headerNumbers, hload⟩ := exists_loadTable (t := db.headerNumbers) hnodup hsingle
    refine ⟨{ db with headerNumbers, progress := x.blockNumber.setWidth 64 }, ?_⟩
    change (if x.blocksProcessedCount = 0 then some db else _) = _
    rw [if_neg hzero, hload]
    rfl

theorem headersIndexed_step {e : HeaderEvent} (hdb : HeadersIndexed db) (h : HeaderStep db e db') :
    HeadersIndexed db' := by
  cases h with
  | headers ht hkept =>
    refine ⟨ht, hdb.lt, hdb.covers.congr fun n hn => ?_⟩
    ext e
    refine exists_congr fun m => and_congr_right fun hm => and_congr_right fun _ => ?_
    rw [hkept m (BitVec.le_def.mpr (hm ▸ hn))]
  | stage =>
    cases hrun : Db.blockHashes db with
    | none => exact hdb
    | some db₁ => exact (hdb.blockHashes hrun).1

def HeaderTables.afterGenesis (g : GenesisDatabase) : HeaderTables :=
  ⟨g.chain.canonicalHashes, g.headerNumbers, 0⟩

theorem headersIndexed_afterGenesis (keccak : Bytes → Bytes32) (g : Genesis) (header : BlockHeader)
    (state : Tables) : HeadersIndexed (.afterGenesis (g.write keccak header state)) := by
  have hentries (e : Entry) : e ∈ (PlainTable.put {} (blockKey 0)
      (keccak (Rlp.encodeBlockHeader header)).val).entries ↔
        e = (blockKey 0, (keccak (Rlp.encodeBlockHeader header)).val) := by
    rw [PlainTable.mem_put]
    simp
  have hkey := take_blockHashKey 0 (keccak (Rlp.encodeBlockHeader header))
  refine ⟨⟨fun e he => ?_, fun e he e' he' _ => ?_⟩, Nat.two_pow_pos 32, ?_⟩
  · exact ⟨0, _, (hentries e).mp he⟩
  · rw [(hentries e).mp he, (hentries e').mp he']
  · rintro n hn e ⟨m, rfl, hm, hget⟩
    obtain ⟨hkey', hhash⟩ := Prod.mk.inj ((hentries _).mp (PlainTable.get_eq_some.mp hget))
    change (PlainTable.put {} (keccak (Rlp.encodeBlockHeader header)).val
      ((blockHashKey 0 (keccak (Rlp.encodeBlockHeader header))).take 8)).get e.1 = some e.2
    rw [PlainTable.get_put, if_pos hhash, hkey, hm, hkey']

theorem checkBlockHashes_eq_nil_iff : checkBlockHashes db = [] ↔
    ∀ e ∈ db.canonicalHashes.entries, db.headerNumbers.get e.2 = some e.1 := by
  rw [checkBlockHashes, List.filterMap_eq_nil_iff]
  refine forall₂_congr fun e _ => ?_
  cases db.headerNumbers.get e.2 with
  | none => simp
  | some data => simp

/-- From the genesis on, whatever headers are imported and however often the stage is run: another
run over headers without a gap succeeds, and there is nothing to report after it unless the counter
of its headers comes round to zero. -/
theorem checkBlockHashes_of_run {keccak : Bytes → Bytes32} {g : Genesis} {header : BlockHeader}
    {state : Tables} {es : List HeaderEvent}
    (h : Run HeaderStep (.afterGenesis (g.write keccak header state)) es db)
    (hc : Contiguous db.canonicalHashes)
    (hnew : 2 ^ 32 ∣ db.newHeaders.length → db.newHeaders = []) :
    ∃ db', blockHashes db = some db' ∧ checkBlockHashes db' = [] := by
  have hdb : HeadersIndexed db := h.preserves (fun _ _ _ hs hstep => headersIndexed_step hs hstep)
    (headersIndexed_afterGenesis keccak g header state)
  obtain ⟨db', hrun⟩ := hdb.exists_blockHashes hc
  refine ⟨db', hrun, checkBlockHashes_eq_nil_iff.mpr fun e he => ?_⟩
  obtain ⟨hdb', htable, hcovers⟩ := hdb.blockHashes hrun
  obtain ⟨n, hash, rfl⟩ := hdb'.canonical.formed e he
  have hitem : (hash.val, blockKey n) ∈ hashItems db'.canonicalHashes n.toNat :=
    ⟨n, rfl, rfl, PlainTable.get_eq_some.mpr he⟩
  rcases hcovers with ⟨rfl, hdvd⟩ | hall
  · have hnone := seekExact_eq_nil.mp (hnew hdvd)
    refine hdb.covers n.toNat ?_ _ hitem
    by_contra hlt
    have hsum : (db'.progress + 1).toNat = db'.progress.toNat + 1 :=
      toNat_next (by have := hdb.lt; omega)
    have hsome := hc (db'.progress + 1) n (BitVec.le_def.mpr (by omega))
      (Option.isSome_iff_exists.mpr ⟨_, PlainTable.get_eq_some.mpr he⟩)
    rw [hnone] at hsome
    cases hsome
  · exact hall n.toNat n.toNat le_rfl _ hitem

section Examples

private def firstHeader : Genesis where
  difficulty := 1
  nonce := 0
  gasLimit := 0
  timestamp := 0
  extraData := ⟨[], by decide⟩
  mixhash := none
  alloc := none
  config := []

private def firstTables : HeaderTables :=
  .afterGenesis (firstHeader.write (fun _ => default) {} {})

private def twoHashes : PlainTable :=
  firstTables.canonicalHashes.put (blockKey 1) (FixedBytes.replicate 32 1 : Bytes32).val

private theorem get_twoHashes (key : Bytes) : twoHashes.get key =
    if key = blockKey 1 then some (FixedBytes.replicate 32 1 : Bytes32).val
    else if key = blockKey 0 then some (default : Bytes32).val else none := by
  rw [twoHashes, PlainTable.get_put]
  refine if_congr Iff.rfl rfl ?_
  exact PlainTable.get_put ..

private theorem blockKey_zero_ne_one : blockKey 0 ≠ blockKey 1 := fun heq =>
  absurd (bigU64_injective heq) (by decide : (0 : Uint64) ≠ 1)

private theorem canonical_twoHashes : Canonical twoHashes := by
  have hmem (e : Entry) (he : e ∈ twoHashes.entries) :
      e = (blockKey 1, (FixedBytes.replicate 32 1 : Bytes32).val) ∨
        e = (blockKey 0, (default : Bytes32).val) := by
    have hget := PlainTable.get_eq_some.mpr he
    rw [get_twoHashes] at hget
    split_ifs at hget with h₁ h₀
    · exact .inl (Prod.ext h₁ (Option.some.inj hget).symm)
    · exact .inr (Prod.ext h₀ (Option.some.inj hget).symm)
  constructor
  · intro e he
    rcases hmem e he with rfl | rfl
    · exact ⟨1, _, rfl⟩
    · exact ⟨0, _, rfl⟩
  · intro e he e' he' heq
    rcases hmem e he with rfl | rfl <;> rcases hmem e' he' with rfl | rfl
    · rfl
    · exact absurd heq (by decide)
    · exact absurd heq (by decide)
    · rfl

private theorem contiguous_twoHashes : Contiguous twoHashes := by
  intro m n hle hsome
  rw [get_twoHashes] at hsome ⊢
  have hn : n.toNat ≤ 1 := by
    split_ifs at hsome with h₁ h₀
    · rw [bigU64_injective h₁]
      rfl
    · rw [bigU64_injective h₀]
      exact Nat.zero_le 1
    · cases hsome
  rcases Nat.le_one_iff_eq_zero_or_eq_one.mp ((BitVec.le_def.mp hle).trans hn) with h | h
  · cases BitVec.eq_of_toNat_eq (y := 0) h
    rw [if_neg blockKey_zero_ne_one, if_pos rfl]
    rfl
  · cases BitVec.eq_of_toNat_eq (y := 1) h
    rw [if_pos rfl]
    rfl

private theorem headers_twoHashes : HeaderStep firstTables (.headers twoHashes)
    { firstTables with canonicalHashes := twoHashes } := by
  refine .headers canonical_twoHashes fun n hn => ?_
  have hzero : n = 0 := BitVec.le_zero_iff.mp hn
  rw [hzero, get_twoHashes, if_neg blockKey_zero_ne_one, if_pos rfl]
  exact ((PlainTable.get_put ..).trans (if_pos rfl)).symm

/-- One header after the genesis. -/
theorem checkBlockHashes_of_run_twoHashes : ∃ db',
    blockHashes { firstTables with canonicalHashes := twoHashes } = some db' ∧
      checkBlockHashes db' = [] :=
  checkBlockHashes_of_run (.cons headers_twoHashes (.nil _)) contiguous_twoHashes fun hdvd =>
    absurd hdvd (by decide +kernel)

end Examples

end Runs
end Silkworm.Db
