import Mathlib.Algebra.Order.BigOperators.Group.List
import Silkworm.LogIndexRuns

/-!
# Runs in which the bitmaps are not full

If the bitmaps only go to the collector at the end of a run, every key has one part. Its numbers are
not below that of the last block that was processed, and the suffixes of the chunks that were cut off
are, so that no part replaces a chunk.
-/

namespace Silkworm.Db
open BigEndian SortedTables Etl ChunkedSets

/-- No chunk of a key has a number above `n`. Those that were cut off are under suffixes below `n`
that are not in the last one. -/
structure KeyBounded (r : Roaring) (t : PlainTable) (key : Bytes) (n : ℕ) : Prop where
  le : ∀ {k c}, logChunkMap r t key k = some c → ∀ x ∈ c, x ≤ n
  suffix : ∀ {k c}, k < kLastLogChunk → logChunkMap r t key k = some c →
    k < n ∧ k ∉ (logChunkMap r t key kLastLogChunk).getD ∅

/-- The chunks of all keys of a length are bounded. -/
def BoundedBy (r : Roaring) (size : ℕ) (t : PlainTable) (n : ℕ) : Prop :=
  ∀ key, key.length = size → KeyBounded r t key n

section Loads

variable {r : Roaring} {append : Bool} {size : ℕ} {t t' : PlainTable} {n n' : ℕ} {key : Bytes}
  {bm : Finset ℕ}

theorem boundedBy_empty (r : Roaring) (size n : ℕ) : BoundedBy r size {} n := by
  intro key _
  have hnone {k : ℕ} {c : Finset ℕ} (h : logChunkMap r {} key k = some c) : False := by
    rw [logChunkMap] at h
    split_ifs at h
    cases h
  exact ⟨fun hc => (hnone hc).elim, fun _ hc => (hnone hc).elim⟩

theorem KeyBounded.mono (h : KeyBounded r t key n) (hn : n ≤ n') : KeyBounded r t key n' where
  le hc x hx := (h.le hc x hx).trans hn
  suffix hk hc := ⟨(h.suffix hk hc).1.trans_le hn, (h.suffix hk hc).2⟩

theorem KeyBounded.le_of_mem_last (h : KeyBounded r t key n) {x : ℕ}
    (hx : x ∈ (logChunkMap r t key kLastLogChunk).getD ∅) : x ≤ n := by
  cases hc : logChunkMap r t key kLastLogChunk with
  | none => simp [hc] at hx
  | some c => exact h.le hc x (by simpa [hc] using hx)

/-- A part without a number below the bound has none of the suffixes. -/
theorem KeyBounded.notMem (h : KeyBounded r t key n) (hbm : ∀ x ∈ bm, n ≤ x) {k : ℕ} {c : Finset ℕ}
    (hk : k < kLastLogChunk) (hc : logChunkMap r t key k = some c) :
    k ∉ bm ∪ (logChunkMap r t key kLastLogChunk).getD ∅ := by
  obtain ⟨hlt, hlast⟩ := h.suffix hk hc
  rw [Finset.notMem_union]
  exact ⟨fun hin => absurd (hbm k hin) (not_le.mpr hlt), hlast⟩

/-- The rest of the table does not matter. -/
theorem SameLogsElsewhere.logChunkMap_eq {key' : Bytes} (h : SameLogsElsewhere key t t')
    (hne : key' ≠ key) : logChunkMap r t' key' = logChunkMap r t key' := by
  funext k
  rw [logChunkMap, logChunkMap]
  split_ifs with hk
  · rw [h.1 key' hne k hk]
  · rfl

theorem SameLogsElsewhere.keyBounded {key' : Bytes} (h : SameLogsElsewhere key t t')
    (hne : key' ≠ key) (hbounded : KeyBounded r t key' n) : KeyBounded r t' key' n := by
  constructor
  · rw [h.logChunkMap_eq hne]
    exact hbounded.le
  · rw [h.logChunkMap_eq hne]
    exact hbounded.suffix

/-- The part is put in chunks with the last one. -/
theorem exists_of_loadLogBitmap (hread : r.readSafe (r.write bm) = some bm)
    (hrun : loadLogBitmap r append t (logEntry r (key, bm)) = some t') :
    ∃ append' cuts, putLogChunks r append' key cuts
      (bm ∪ (logChunkMap r t key kLastLogChunk).getD ∅) t = some t' := by
  rw [logEntry, loadLogBitmap, hread, Option.bind_eq_bind, Option.bind_some] at hrun
  rw [logChunkMap, if_pos le_rfl]
  cases hlast : t.get (logChunkIndex key kLastLogChunk) with
  | none =>
    rw [hlast] at hrun
    rw [Option.bind_none, Option.getD_none, Finset.union_empty]
    exact ⟨append, bm.card, hrun⟩
  | some v =>
    rw [hlast] at hrun
    obtain ⟨previous, hprevious, hrun⟩ := Option.bind_eq_some_iff.mp hrun
    rw [Option.bind_some, hprevious, Option.getD_some]
    exact ⟨false, _, hrun⟩

variable (hr : r.Lawful)

include hr

theorem recut_of_loadLogBitmap (hne : bm.Nonempty) (hbm : ∀ x ∈ bm, x ≤ kLastLogChunk)
    (hrun : loadLogBitmap r append t (logEntry r (key, bm)) = some t') :
    Recut kLastLogChunk (logChunkMap r t key) (bm ∪ (logChunkMap r t key kLastLogChunk).getD ∅)
        (logChunkMap r t' key) ∧ SameLogsElsewhere key t t' := by
  obtain ⟨append', cuts, hputs⟩ := exists_of_loadLogBitmap (hr.roundTrips bm hbm) hrun
  have hall : ∀ x ∈ bm ∪ (logChunkMap r t key kLastLogChunk).getD ∅, x ≤ kLastLogChunk := by
    intro x hx
    rcases Finset.mem_union.mp hx with hx | hx
    · exact hbm x hx
    · cases hc : logChunkMap r t key kLastLogChunk with
      | none => simp [hc] at hx
      | some c =>
        rw [hc, Option.getD_some] at hx
        rw [logChunkMap, if_pos le_rfl] at hc
        obtain ⟨v, -, hv⟩ := Option.bind_eq_some_iff.mp hc
        exact hr.bounded hv x hx
  obtain ⟨hrecut, hsame, -⟩ :=
    recut_of_putLogChunks hr (hne.mono Finset.subset_union_left) hall hputs
  exact ⟨hrecut, hsame⟩

/-- A part between two bounds is loaded. -/
theorem KeyBounded.load (h : KeyBounded r t key n) (hn : n ≤ n') (hne : bm.Nonempty)
    (hbm : ∀ x ∈ bm, x ≤ kLastLogChunk) (hlow : ∀ x ∈ bm, n ≤ x) (hhigh : ∀ x ∈ bm, x ≤ n')
    (hrun : loadLogBitmap r append t (logEntry r (key, bm)) = some t') :
    KeyBounded r t' key n' := by
  obtain ⟨hrecut, -⟩ := recut_of_loadLogBitmap hr hne hbm hrun
  have hall : ∀ x ∈ bm ∪ (logChunkMap r t key kLastLogChunk).getD ∅, x ≤ n' := by
    intro x hx
    rcases Finset.mem_union.mp hx with hx | hx
    · exact hhigh x hx
    · exact (h.le_of_mem_last hx).trans hn
  refine ⟨fun {k c} hc x hx => ?_, fun {k c} hk hc => ⟨?_, ?_⟩⟩
  · rcases hrecut.chunk hc with hold | ⟨hsub, -⟩
    · exact (h.le hold x hx).trans hn
    · exact hall x (hsub hx)
  · rcases hrecut.chunk hc with hold | ⟨-, hkey⟩
    · exact (h.suffix hk hold).1.trans_le hn
    · obtain ⟨-, y, hy, hlt⟩ := hkey hk
      exact hlt.trans_le (hall y hy)
  · exact hrecut.key_notMem (fun k c hk hc => h.notMem hlow hk hc) hk hc

/-- Parts of different keys between two bounds are loaded. -/
theorem boundedBy_of_foldlM_load {parts : List (Bytes × Finset ℕ)} (hn : n ≤ n')
    (hkeys : (parts.map Prod.fst).Nodup)
    (hparts : ∀ p ∈ parts, p.2.Nonempty ∧ ∀ x ∈ p.2, x ≤ kLastLogChunk ∧ n ≤ x ∧ x ≤ n')
    (h : ∀ p ∈ parts, KeyBounded r t p.1 n)
    (hothers : ∀ key, key.length = size → key ∉ parts.map Prod.fst → KeyBounded r t key n')
    (hrun : (parts.map (logEntry r)).foldlM (loadLogBitmap r append) t = some t') :
    BoundedBy r size t' n' := by
  induction parts generalizing t with
  | nil =>
    cases hrun
    exact fun key hlen => hothers key hlen List.not_mem_nil
  | cons p parts ih =>
    obtain ⟨⟨hne, hp⟩, hparts⟩ := List.forall_mem_cons.mp hparts
    obtain ⟨hfirst, h⟩ := List.forall_mem_cons.mp h
    obtain ⟨hkey, hkeys⟩ := List.nodup_cons.mp hkeys
    rw [List.map_cons, List.foldlM_cons] at hrun
    obtain ⟨t₁, hload, hrun⟩ := Option.bind_eq_some_iff.mp hrun
    have hlast : ∀ x ∈ p.2, x ≤ kLastLogChunk := fun x hx => (hp x hx).1
    obtain ⟨-, hsame⟩ := recut_of_loadLogBitmap hr hne hlast hload
    refine ih hkeys hparts (fun q hq => ?_) (fun key hlen hnot => ?_) hrun
    · exact hsame.keyBounded (fun heq => hkey (heq ▸ List.mem_map_of_mem hq)) (h q hq)
    · by_cases heq : key = p.1
      · subst heq
        exact hfirst.load hr hn hne hlast (fun x hx => (hp x hx).2.1) (fun x hx => (hp x hx).2.2)
          hload
      · refine hsame.keyBounded heq (hothers key hlen fun hin => ?_)
        rcases List.mem_cons.mp hin with hin | hin
        · exact heq hin
        · exact hnot hin

/-- A part without a number below the bound fits. -/
theorem KeyBounded.fits (h : KeyBounded r t key n) (hbm : ∀ x ∈ bm, x ≤ kLastLogChunk)
    (hlow : ∀ x ∈ bm, n ≤ x) : FitsLogs r t (logEntry r (key, bm)) := by
  intro bm' hread
  cases (hr.roundTrips bm hbm).symm.trans hread
  exact spares_of_forall_notMem fun k c hk hc => h.notMem hlow hk hc

/-- Parts of different keys fit if each of them fits at the beginning. -/
theorem loadsFitLogs_of_distinct {parts : List (Bytes × Finset ℕ)}
    (hkeys : (parts.map Prod.fst).Nodup)
    (hparts : ∀ p ∈ parts, p.2.Nonempty ∧ ∀ x ∈ p.2, x ≤ kLastLogChunk)
    (hfit : ∀ p ∈ parts, FitsLogs r t (logEntry r p)) :
    LoadsFitLogs r append t (parts.map (logEntry r)) := by
  induction parts generalizing t with
  | nil => trivial
  | cons p parts ih =>
    obtain ⟨⟨hne, hp⟩, hparts⟩ := List.forall_mem_cons.mp hparts
    obtain ⟨hfirst, hfit⟩ := List.forall_mem_cons.mp hfit
    obtain ⟨hkey, hkeys⟩ := List.nodup_cons.mp hkeys
    refine ⟨hfirst, fun t' hload => ih hkeys hparts fun q hq bm hbm => ?_⟩
    obtain ⟨-, hsame⟩ := recut_of_loadLogBitmap hr hne hp hload
    have hother : (logEntry r q).1 ≠ p.1 := fun heq => hkey (heq ▸ List.mem_map_of_mem hq)
    rw [hsame.logChunkMap_eq hother]
    exact hfit q hq bm hbm

end Loads

/-- What the bitmaps of the byte strings with a length are taken to occupy. -/
def allocatedSize (size : ℕ) (strings : List (Uint64 × Bytes)) : ℕ :=
  ((strings.filter fun x => x.2.length = size).map fun x => x.2.length).sum

/-- What is read from a block on does not fill the bitmaps. -/
def ReadsSmall (byteStrings : Bytes → List Bytes) (logs : PlainTable) (n : Uint64) : Prop :=
  ∀ size, allocatedSize size (stringsOf byteStrings
    (logs.entries.dropWhile fun e => e.1 < bigU64 n)) ≤ kLogBitmapLimit

/-- In no run the bitmaps are full. -/
def LogRunsSmall (engine : Engine) (r : Roaring) (byteStrings : Bytes → List Bytes) :
    LogDatabase → List LogRun → Prop
  | _, [] => True
  | x, run :: runs =>
    ReadsSmall byteStrings (storeLogs engine x.logs run.blocks)
      (x.indexes.start run.full).lastProcessedBlockNumber ∧
    ∀ x', runLogIndex engine r byteStrings x run = some x' →
      LogRunsSmall engine r byteStrings x' runs

section Small

/-- As long as what has been read is small nothing goes to the collector. -/
def Unflushed (size : ℕ) (strings : List (Uint64 × Bytes)) (x : BitmapBuffer) : Prop :=
  allocatedSize size strings ≤ kLogBitmapLimit →
    x.collected = [] ∧ x.allocated = allocatedSize size strings

theorem allocatedSize_append (size : ℕ) (strings more : List (Uint64 × Bytes)) :
    allocatedSize size (strings ++ more) = allocatedSize size strings + allocatedSize size more := by
  simp [allocatedSize]

theorem allocatedSize_le (size : ℕ) (strings : List (Uint64 × Bytes)) :
    allocatedSize size strings ≤ (strings.map fun x => x.2.length).sum :=
  List.Sublist.sum_le_sum (List.filter_sublist.map _) fun _ _ => Nat.zero_le _

theorem keptByReads_unflushed (r : Roaring) : KeptByReads r Unflushed where
  skip {size strings x n data} h hlen hsmall := by
    have hnone : allocatedSize size [(n, data)] = 0 := by simp [allocatedSize, hlen]
    rw [allocatedSize_append, hnone, Nat.add_zero] at hsmall ⊢
    exact h hsmall
  add {size strings x n data} h hlen hsmall := by
    have hone : allocatedSize size [(n, data)] = data.length := by simp [allocatedSize, hlen]
    rw [allocatedSize_append, hone] at hsmall ⊢
    obtain ⟨hcollected, hallocated⟩ := h ((Nat.le_add_right _ _).trans hsmall)
    exact ⟨hcollected, congrArg (· + data.length) hallocated⟩
  flushFull h hsmall := by
    obtain ⟨hcollected, hallocated⟩ := h hsmall
    rw [BitmapBuffer.flushFull, if_neg (by rw [hallocated]; exact not_lt.mpr hsmall)]
    exact ⟨hcollected, hallocated⟩

variable {r : Roaring} {byteStrings : Bytes → List Bytes} {logs : PlainTable} {n : Uint64}

theorem keys_flush_nodup {x : BitmapBuffer} (h : x.collected = []) :
    ((x.flush r).collected.map Prod.fst).Nodup := by
  rw [BitmapBuffer.flush, h, List.nil_append, List.map_map]
  exact x.bitmaps.keys_toList_nodup

/-- Then every key has one part. -/
theorem ReadsSmall.distinct (h : ReadsSmall byteStrings logs n) :
    ((readLogs r byteStrings logs n).topics.collected.map Prod.fst).Nodup ∧
      ((readLogs r byteStrings logs n).addrs.collected.map Prod.fst).Nodup := by
  have hstart : Listened Unflushed [] {} := ⟨fun _ => ⟨rfl, rfl⟩, fun _ => ⟨rfl, rfl⟩⟩
  obtain ⟨hlistened, -⟩ := hstart.foldl_extract (keptByReads_unflushed r) byteStrings
    (logs.entries.dropWhile fun e => e.1 < bigU64 n)
  exact ⟨keys_flush_nodup (hlistened.topics (h _)).1, keys_flush_nodup (hlistened.addrs (h _)).1⟩

end Small

section Parts

variable {r : Roaring} (hr : r.Lawful) {append : Bool} {size n : ℕ} {t t' : PlainTable}
  {strings : List (Uint64 × Bytes)} {parts : List (Bytes × Finset ℕ)} {x : BitmapBuffer}

theorem Gathered.exists_distinct (hx : Gathered r size strings parts x)
    (hdistinct : (x.collected.map Prod.fst).Nodup)
    (hstrings : ∀ s ∈ strings, n ≤ s.1.toNat ∧ s.1.toNat < 2 ^ 32) :
    ∃ sorted : List (Bytes × Finset ℕ), sortedEntries x.collected = sorted.map (logEntry r) ∧
      (sorted.map Prod.fst).Nodup ∧ ∀ p ∈ sorted, p.1.length = size ∧ p.2.Nonempty ∧
        ∀ m ∈ p.2, m ≤ kLastLogChunk ∧ n ≤ m ∧ ∃ s ∈ strings, s.1.toNat = m := by
  obtain ⟨sorted, hsorted, hmem⟩ := hx.exists_sorted
  refine ⟨sorted, hsorted, ?_, fun p hp => ?_⟩
  · have hperm := ((sortedEntries_perm x.collected).map Prod.fst).nodup_iff.mpr hdistinct
    rw [hsorted, List.map_map] at hperm
    exact hperm
  · obtain ⟨⟨m, hm⟩, hall⟩ := hx.parts_sound p (hmem p hp)
    refine ⟨(hall m hm).1, ⟨m, hm⟩, fun m hm => ⟨(hall m hm).le, ?_⟩⟩
    obtain ⟨-, number, hin, rfl⟩ := hall m hm
    obtain ⟨hle, hlt⟩ := hstrings _ hin
    rw [Nat.mod_eq_of_lt hlt]
    exact ⟨hle, _, hin, rfl⟩

include hr

theorem BoundedBy.loadsFit (h : BoundedBy r size t n) (hx : Gathered r size strings parts x)
    (hdistinct : (x.collected.map Prod.fst).Nodup)
    (hstrings : ∀ s ∈ strings, n ≤ s.1.toNat ∧ s.1.toNat < 2 ^ 32) :
    LoadsFitLogs r append t (sortedEntries x.collected) := by
  obtain ⟨sorted, hsorted, hkeys, hparts⟩ := hx.exists_distinct hdistinct hstrings
  rw [hsorted]
  refine loadsFitLogs_of_distinct hr hkeys (fun p hp => ?_) fun p hp => ?_
  · obtain ⟨-, hne, hall⟩ := hparts p hp
    exact ⟨hne, fun m hm => (hall m hm).1⟩
  · obtain ⟨hlen, -, hall⟩ := hparts p hp
    exact (h p.1 hlen).fits hr (fun m hm => (hall m hm).1) fun m hm => (hall m hm).2.1

theorem BoundedBy.loadLogBitmaps (h : BoundedBy r size t n) (hx : Gathered r size strings parts x)
    (hdistinct : (x.collected.map Prod.fst).Nodup) {n' : ℕ} (hn : n ≤ n')
    (hstrings : ∀ s ∈ strings, n ≤ s.1.toNat ∧ s.1.toNat < 2 ^ 32)
    (hlast : ∀ s ∈ strings, s.1.toNat ≤ n') (hrun : loadLogBitmaps r append x t = some t') :
    BoundedBy r size t' n' := by
  obtain ⟨sorted, hsorted, hkeys, hparts⟩ := hx.exists_distinct hdistinct hstrings
  rw [Db.loadLogBitmaps, hsorted] at hrun
  refine boundedBy_of_foldlM_load hr hn hkeys (fun p hp => ?_) (fun p hp => ?_)
    (fun key hlen _ => (h key hlen).mono hn) hrun
  · obtain ⟨-, hne, hall⟩ := hparts p hp
    refine ⟨hne, fun m hm => ?_⟩
    obtain ⟨hle, hlow, s, hs, rfl⟩ := hall m hm
    exact ⟨hle, hlow, hlast s hs⟩
  · exact h p.1 (hparts p hp).1

end Parts

/-- The chunks of both indices are bounded by the last block that was processed. -/
structure IndexesBounded (r : Roaring) (h : LogIndexes) : Prop where
  topics : BoundedBy r kHashLength h.topics h.lastProcessedBlockNumber.toNat
  addresses : BoundedBy r kAddressLength h.addresses h.lastProcessedBlockNumber.toNat

section Runs

variable {engine : Engine} {r : Roaring} (hr : r.Lawful) {byteStrings : Bytes → List Bytes}
  {blocks : List BlockReceipts} {logs : PlainTable} {indexes : LogIndexes}

theorem indexesBounded_empty (r : Roaring) : IndexesBounded r {} :=
  ⟨boundedBy_empty r _ _, boundedBy_empty r _ _⟩

theorem mem_stringsOf_bounds {l : List Entry} {n : Uint64}
    (hl : ∀ e, e ∈ l ↔ e ∈ logs.entries ∧ n.toNat ≤ (entryNumber e).toNat)
    (hlt : ∀ e ∈ logs.entries, (entryNumber e).toNat < 2 ^ 32) :
    ∀ s ∈ stringsOf byteStrings l, n.toNat ≤ s.1.toNat ∧ s.1.toNat < 2 ^ 32 := by
  intro s hs
  obtain ⟨e, he, hn, -⟩ := mem_stringsOf.mp hs
  obtain ⟨he, hle⟩ := (hl e).mp he
  rw [← hn]
  exact ⟨hle, hlt e he⟩

include hr

/-- Everything that is read fits. -/
theorem IndexesBounded.logRunFits (h : IndexesBounded r indexes)
    (hstores : StoresLogs engine blocks logs)
    (hnumber : indexes.lastProcessedBlockNumber = 0 ∨ ∃ e ∈ logs.entries,
      indexes.lastProcessedBlockNumber.toNat ≤ (entryNumber e).toNat)
    (hlt : ∀ e ∈ logs.entries, (entryNumber e).toNat < 2 ^ 32)
    (huntouched : indexes.lastProcessedBlockNumber = 0 →
      indexes.topics.entries = [] ∧ indexes.addresses.entries = [])
    (hsmall : ReadsSmall byteStrings logs indexes.lastProcessedBlockNumber) :
    LogRunFits r byteStrings logs indexes := by
  obtain ⟨l, hl, ⟨topics, htopics⟩, ⟨addresses, haddresses⟩, -, -, -⟩ :=
    exists_readLogs r byteStrings hstores _ hnumber
  obtain ⟨hdistinctTopics, hdistinctAddresses⟩ := hsmall.distinct (r := r)
  have hstrings : ∀ s ∈ stringsOf byteStrings l, _ ∧ s.1.toNat < 2 ^ 32 :=
    mem_stringsOf_bounds hl hlt
  exact ⟨h.topics.loadsFit hr htopics hdistinctTopics hstrings,
    h.addresses.loadsFit hr haddresses hdistinctAddresses hstrings, huntouched⟩

theorem IndexesBounded.logIndex {full : Bool} {indexes' : LogIndexes}
    (h : IndexesBounded r (indexes.start full)) (hstores : StoresLogs engine blocks logs)
    (hnumber : (indexes.start full).lastProcessedBlockNumber = 0 ∨ ∃ e ∈ logs.entries,
      (indexes.start full).lastProcessedBlockNumber.toNat ≤ (entryNumber e).toNat)
    (hlt : ∀ e ∈ logs.entries, (entryNumber e).toNat < 2 ^ 32)
    (hsmall : ReadsSmall byteStrings logs (indexes.start full).lastProcessedBlockNumber)
    (hrun : logIndex r byteStrings full logs indexes = some indexes') :
    IndexesBounded r indexes' := by
  obtain ⟨l, hl, ⟨topics, htopics⟩, ⟨addresses, haddresses⟩, -, -, hlast⟩ :=
    exists_readLogs r byteStrings hstores _ hnumber
  have hle : (indexes.start full).lastProcessedBlockNumber.toNat ≤ (lastNumber logs).toNat := by
    rcases hnumber with hzero | ⟨e, he, hle⟩
    · rw [hzero]
      exact Nat.zero_le _
    · exact hle.trans (hstores.le_lastNumber he)
  obtain ⟨hdistinctTopics, hdistinctAddresses⟩ := hsmall.distinct (r := r)
  have hstrings : ∀ s ∈ stringsOf byteStrings l, _ ∧ s.1.toNat < 2 ^ 32 :=
    mem_stringsOf_bounds hl hlt
  have hlastString : ∀ s ∈ stringsOf byteStrings l, s.1.toNat ≤ (lastNumber logs).toNat := by
    intro s hs
    obtain ⟨e, he, hn, -⟩ := mem_stringsOf.mp hs
    rw [← hn]
    exact hstores.le_lastNumber ((hl e).mp he).1
  obtain ⟨topics', hloadTopics, hrun⟩ := Option.bind_eq_some_iff.mp hrun
  obtain ⟨addresses', hloadAddresses, hrun⟩ := Option.bind_eq_some_iff.mp hrun
  cases hrun
  rw [← hlast] at hle hlastString
  exact ⟨h.topics.loadLogBitmaps hr htopics hdistinctTopics hle hstrings hlastString hloadTopics,
    h.addresses.loadLogBitmaps hr haddresses hdistinctAddresses hle hstrings hlastString
      hloadAddresses⟩

omit hr in
theorem IndexesBounded.start (h : IndexesBounded r indexes) (full : Bool) :
    IndexesBounded r (indexes.start full) := by
  cases full with
  | true => exact indexesBounded_empty r
  | false => exact h

omit hr in
/-- As long as no block was processed nothing is in the indices. -/
theorem LogsUpToDate.start_untouched {x : LogDatabase}
    (h : LogsUpToDate engine r byteStrings blocks x)
    (hpositive : ∀ e ∈ x.logs.entries, 0 < (entryNumber e).toNat) {full : Bool}
    (hzero : (x.indexes.start full).lastProcessedBlockNumber = 0) :
    (x.indexes.start full).topics.entries = [] ∧ (x.indexes.start full).addresses.entries = [] := by
  cases full with
  | true => exact ⟨rfl, rfl⟩
  | false =>
    have hnone : x.logs.entries = [] := by
      rcases lastNumber_cases x.logs with ⟨hnone, -⟩ | ⟨last, hlast, hn⟩
      · exact hnone
      · have hpos := hpositive last hlast
        rw [hn, ← h.progress, show x.indexes.lastProcessedBlockNumber = 0 from hzero] at hpos
        exact absurd hpos (lt_irrefl _)
    exact ⟨h.topics.entries_eq_nil hnone, h.addresses.entries_eq_nil hnone⟩

/-- In runs in which the bitmaps are not full everything fits. -/
theorem LogsUpToDate.logRunsFit {x : LogDatabase} (h : LogsUpToDate engine r byteStrings blocks x)
    (hbounded : IndexesBounded r x.indexes) {runs : List LogRun}
    (hsorted : (blocks ++ runs.flatMap LogRun.blocks).Pairwise fun block block' =>
      block.number.toNat < block'.number.toNat)
    (hnumbers : ∀ block ∈ blocks ++ runs.flatMap LogRun.blocks,
      0 < block.number.toNat ∧ block.number.toNat < 2 ^ 32)
    (hsmall : LogRunsSmall engine r byteStrings x runs) :
    LogRunsFit engine r byteStrings x runs := by
  induction runs generalizing blocks x with
  | nil => trivial
  | cons run runs ih =>
    rw [List.flatMap_cons, ← List.append_assoc] at hsorted hnumbers
    have hsorted' := (List.pairwise_append.mp hsorted).1
    have hstores := h.stores.storeLogs hsorted'
    have hentry : ∀ e ∈ (storeLogs engine x.logs run.blocks).entries,
        0 < (entryNumber e).toNat ∧ (entryNumber e).toNat < 2 ^ 32 := by
      intro e he
      obtain ⟨block, hblock, he⟩ := List.mem_flatMap.mp ((hstores e).mp he)
      rw [entryNumber_of_mem he]
      exact hnumbers block (List.mem_append_left _ hblock)
    have hnumber := h.start_number hsorted'
    have hstart := hbounded.start run.full
    have hfit := hstart.logRunFits hr hstores hnumber (fun e he => (hentry e he).2)
      (h.start_untouched fun e he => (hentry e (h.stores.mem_storeLogs hsorted' he)).1) hsmall.1
    obtain ⟨x', hrun, h'⟩ := h.exists_runLogIndex hr hsorted' hfit
    refine ⟨hfit, fun x'' hrun' => ?_⟩
    cases hrun.symm.trans hrun'
    refine ih h' ?_ hsorted hnumbers (hsmall.2 x' hrun)
    obtain ⟨indexes', hindex, heq⟩ := Option.map_eq_some_iff.mp hrun
    cases heq
    exact hstart.logIndex hr hstores hnumber (fun e he => (hentry e he).2) hsmall.1 hindex

end Runs

end Silkworm.Db
