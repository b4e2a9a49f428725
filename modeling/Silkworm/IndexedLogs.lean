import Silkworm.LogChunks
import Silkworm.StoredLogs

/-!
# The logs in the index

In every run the byte strings of the logs are spread over bitmaps and parts that were collected, and
the parts are loaded. As long as every part fits, the index holds every block of a byte string with
the length of its keys.
-/

namespace Silkworm.Db
open BigEndian SortedTables Etl ChunkedSets

/-- A byte string was read in a block, whose number has 32 bits in a bitmap. -/
def ReadIn (size : ℕ) (strings : List (Uint64 × Bytes)) (key : Bytes) (m : ℕ) : Prop :=
  key.length = size ∧ ∃ n : Uint64, (n, key) ∈ strings ∧ n.toNat % 2 ^ 32 = m

/-- The byte strings of entries with the blocks of these. -/
def stringsOf (byteStrings : Bytes → List Bytes) (l : List Entry) : List (Uint64 × Bytes) :=
  l.flatMap fun e => (byteStrings e.2).map fun data => (entryNumber e, data)

theorem mem_stringsOf {byteStrings : Bytes → List Bytes} {l : List Entry} {n : Uint64} {data : Bytes} :
    (n, data) ∈ stringsOf byteStrings l ↔ ∃ e ∈ l, entryNumber e = n ∧ data ∈ byteStrings e.2 := by
  rw [stringsOf, List.mem_flatMap]
  apply exists_congr
  intro e
  apply and_congr_right
  intro _
  rw [List.mem_map]
  constructor
  · rintro ⟨data', hdata, heq⟩
    cases heq
    exact ⟨rfl, hdata⟩
  · rintro ⟨rfl, hdata⟩
    exact ⟨data, hdata, rfl⟩

theorem readIn_stringsOf {byteStrings : Bytes → List Bytes} {size : ℕ} {l : List Entry} {key : Bytes} {m : ℕ} :
    ReadIn size (stringsOf byteStrings l) key m ↔ key.length = size ∧
      ∃ e ∈ l, key ∈ byteStrings e.2 ∧ (entryNumber e).toNat % 2 ^ 32 = m := by
  rw [ReadIn]
  apply and_congr_right
  intro _
  simp only [mem_stringsOf]
  constructor
  · rintro ⟨n, ⟨e, he, rfl, hkey⟩, hm⟩
    exact ⟨e, he, hkey, hm⟩
  · rintro ⟨e, he, hkey, hm⟩
    exact ⟨_, ⟨e, he, rfl, hkey⟩, hm⟩

/-- What has been read is in the bitmaps or among the parts that were collected. -/
structure Gathered (r : Roaring) (size : ℕ) (strings : List (Uint64 × Bytes))
    (parts : List (Bytes × Finset ℕ)) (x : BitmapBuffer) : Prop where
  collected : x.collected = parts.map (logEntry r)
  parts_sound : ∀ p ∈ parts, p.2.Nonempty ∧ ∀ m ∈ p.2, ReadIn size strings p.1 m
  bitmaps_sound : ∀ key s, x.bitmaps.find key = some s →
    s.Nonempty ∧ ∀ m ∈ s, ReadIn size strings key m
  complete : ∀ key m, ReadIn size strings key m →
    (∃ s, x.bitmaps.find key = some s ∧ m ∈ s) ∨ ∃ p ∈ parts, p.1 = key ∧ m ∈ p.2

section Gathering

variable {r : Roaring} {size : ℕ} {strings : List (Uint64 × Bytes)}
  {parts : List (Bytes × Finset ℕ)} {x : BitmapBuffer} {key : Bytes} {m : ℕ}

theorem ReadIn.append (h : ReadIn size strings key m) (more : List (Uint64 × Bytes)) :
    ReadIn size (strings ++ more) key m := by
  obtain ⟨hlen, n, hn, hm⟩ := h
  exact ⟨hlen, n, List.mem_append_left _ hn, hm⟩

theorem ReadIn.le (h : ReadIn size strings key m) : m ≤ kLastLogChunk := by
  obtain ⟨-, n, -, rfl⟩ := h
  rw [kLastLogChunk]
  omega

theorem gathered_nil (r : Roaring) (size : ℕ) : Gathered r size [] [] {} where
  collected := rfl
  parts_sound p hp := by cases hp
  bitmaps_sound key s h := by cases h
  complete key m h := by
    obtain ⟨-, n, hn, -⟩ := h
    cases hn

/-- Byte strings of other lengths are passed over. -/
theorem Gathered.skip (h : Gathered r size strings parts x) (n : Uint64) {data : Bytes}
    (hlen : data.length ≠ size) : Gathered r size (strings ++ [(n, data)]) parts x where
  collected := h.collected
  parts_sound p hp := ⟨(h.parts_sound p hp).1, fun m hm => ((h.parts_sound p hp).2 m hm).append _⟩
  bitmaps_sound key s hf :=
    ⟨(h.bitmaps_sound key s hf).1, fun m hm => ((h.bitmaps_sound key s hf).2 m hm).append _⟩
  complete key m hread := by
    obtain ⟨hkey, n', hn', hm⟩ := hread
    refine h.complete key m ⟨hkey, n', (List.mem_append.mp hn').resolve_right fun hlast => ?_, hm⟩
    cases List.mem_singleton.mp hlast
    exact hlen hkey

/-- A byte string goes into the bitmap of its key. -/
theorem Gathered.add (h : Gathered r size strings parts x) (n : Uint64) {data : Bytes}
    (hlen : data.length = size) :
    Gathered r size (strings ++ [(n, data)]) parts (x.add n data) := by
  have hnew : ReadIn size (strings ++ [(n, data)]) data (n.toNat % 2 ^ 32) :=
    ⟨hlen, n, List.mem_append_right _ (List.mem_singleton_self _), rfl⟩
  have hfindD {m : ℕ} : m ∈ x.bitmaps.findD data ∅ ↔ ∃ s, x.bitmaps.find data = some s ∧ m ∈ s := by
    rw [HashMap.findD]
    cases x.bitmaps.find data <;> simp
  refine ⟨h.collected, fun p hp => ?_, fun key s hf => ?_, fun key m hread => ?_⟩
  · exact ⟨(h.parts_sound p hp).1, fun m hm => ((h.parts_sound p hp).2 m hm).append _⟩
  · rw [BitmapBuffer.add, HashMap.find_set] at hf
    split_ifs at hf with hkey
    · cases hf
      subst hkey
      refine ⟨Finset.insert_nonempty .., fun m hm => ?_⟩
      rcases Finset.mem_insert.mp hm with rfl | hm
      · exact hnew
      · obtain ⟨s, hs, hms⟩ := hfindD.mp hm
        exact ((h.bitmaps_sound key s hs).2 m hms).append _
    · exact ⟨(h.bitmaps_sound key s hf).1, fun m hm =>
        ((h.bitmaps_sound key s hf).2 m hm).append _⟩
  · rw [BitmapBuffer.add, HashMap.find_set]
    obtain ⟨hkey, n', hn', rfl⟩ := hread
    rcases List.mem_append.mp hn' with hn' | hn'
    · apply (h.complete key _ ⟨hkey, n', hn', rfl⟩).imp_left
      rintro ⟨s, hs, hms⟩
      split_ifs with heq
      · subst heq
        exact ⟨_, rfl, Finset.mem_insert_of_mem (hfindD.mpr ⟨s, hs, hms⟩)⟩
      · exact ⟨s, hs, hms⟩
    · cases List.mem_singleton.mp hn'
      rw [if_pos rfl]
      exact .inl ⟨_, rfl, Finset.mem_insert_self ..⟩

/-- The bitmaps go to the collector. -/
theorem Gathered.flush (h : Gathered r size strings parts x) :
    ∃ parts', Gathered r size strings parts' (x.flush r) ∧ (x.flush r).bitmaps = ∅ := by
  refine ⟨parts ++ x.bitmaps.toList, ⟨?_, fun p hp => ?_, fun key s hf => (by cases hf),
    fun key m hread => .inr ?_⟩, rfl⟩
  · rw [BitmapBuffer.flush, h.collected, List.map_append]
    rfl
  · rcases List.mem_append.mp hp with hp | hp
    · exact h.parts_sound p hp
    · exact h.bitmaps_sound p.1 p.2 (HashMap.mem_toList.mp hp)
  · rcases h.complete key m hread with ⟨s, hs, hms⟩ | ⟨p, hp, hkey, hm⟩
    · exact ⟨(key, s), List.mem_append_right _ (HashMap.mem_toList.mpr hs), rfl, hms⟩
    · exact ⟨p, List.mem_append_left _ hp, hkey, hm⟩

theorem Gathered.flushFull (h : Gathered r size strings parts x) :
    ∃ parts', Gathered r size strings parts' (x.flushFull r) := by
  rw [BitmapBuffer.flushFull]
  split_ifs
  · obtain ⟨parts', h', -⟩ := h.flush
    exact ⟨parts', h'.collected, h'.parts_sound, h'.bitmaps_sound, h'.complete⟩
  · exact ⟨parts, h⟩

end Gathering

/-- A property of what has been read and a buffer that is kept whichever byte string comes next. -/
structure KeptByReads (r : Roaring) (P : ℕ → List (Uint64 × Bytes) → BitmapBuffer → Prop) :
    Prop where
  skip : ∀ {size strings x n data}, P size strings x → data.length ≠ size →
    P size (strings ++ [(n, data)]) x
  add : ∀ {size strings x n data}, P size strings x → data.length = size →
    P size (strings ++ [(n, data)]) (x.add n data)
  flushFull : ∀ {size strings x}, P size strings x → P size strings (x.flushFull r)

theorem keptByReads_gathered (r : Roaring) :
    KeptByReads r fun size strings x => ∃ parts, Gathered r size strings parts x where
  skip := fun ⟨parts, h⟩ hlen => ⟨parts, h.skip _ hlen⟩
  add := fun ⟨parts, h⟩ hlen => ⟨parts, h.add _ hlen⟩
  flushFull := fun ⟨_, h⟩ => h.flushFull

/-- The property holds for the topics and the addresses. -/
structure Listened (P : ℕ → List (Uint64 × Bytes) → BitmapBuffer → Prop)
    (strings : List (Uint64 × Bytes)) (l : ListenerLogIndex) : Prop where
  topics : P kHashLength strings l.topics
  addrs : P kAddressLength strings l.addrs

section Listening

variable {r : Roaring} {P : ℕ → List (Uint64 × Bytes) → BitmapBuffer → Prop}
  (hP : KeptByReads r P) (byteStrings : Bytes → List Bytes) {strings : List (Uint64 × Bytes)}
  {l : ListenerLogIndex}

theorem blockNumber_onBytes (l : ListenerLogIndex) (data : Bytes) :
    (l.onBytes data).blockNumber = l.blockNumber := by
  rw [ListenerLogIndex.onBytes]
  split_ifs <;> rfl

include hP

theorem Listened.onBytes (h : Listened P strings l) (data : Bytes) :
    Listened P (strings ++ [(l.blockNumber, data)]) (l.onBytes data) := by
  rw [ListenerLogIndex.onBytes]
  split_ifs with hhash haddress
  · have hne : data.length ≠ kAddressLength := by
      rw [hhash]
      decide
    exact ⟨hP.add h.topics hhash, hP.skip h.addrs hne⟩
  · exact ⟨hP.skip h.topics hhash, hP.add h.addrs haddress⟩
  · exact ⟨hP.skip h.topics hhash, hP.skip h.addrs haddress⟩

theorem Listened.foldl_onBytes (h : Listened P strings l) (datas : List Bytes) :
    Listened P (strings ++ datas.map fun data => (l.blockNumber, data))
        (datas.foldl ListenerLogIndex.onBytes l) ∧
      (datas.foldl ListenerLogIndex.onBytes l).blockNumber = l.blockNumber := by
  induction datas generalizing strings l with
  | nil => exact ⟨by rwa [List.map_nil, List.append_nil], rfl⟩
  | cons data datas ih =>
    obtain ⟨hlistened, hnumber⟩ := ih (h.onBytes hP data)
    rw [blockNumber_onBytes, List.append_assoc] at hlistened
    exact ⟨hlistened, hnumber.trans (blockNumber_onBytes l data)⟩

/-- One entry of the table. -/
theorem Listened.extract (h : Listened P strings l) (e : Entry) :
    Listened P (strings ++ stringsOf byteStrings [e]) (l.extract r byteStrings e) ∧
      (l.extract r byteStrings e).blockNumber = entryNumber e := by
  have hstart : Listened P strings { l with blockNumber := entryNumber e } := ⟨h.topics, h.addrs⟩
  obtain ⟨hlistened, hnumber⟩ := hstart.foldl_onBytes hP (byteStrings e.2)
  rw [stringsOf, List.flatMap_singleton]
  exact ⟨⟨hP.flushFull hlistened.topics, hP.flushFull hlistened.addrs⟩, hnumber⟩

theorem Listened.foldl_extract (h : Listened P strings l) (es : List Entry) :
    Listened P (strings ++ stringsOf byteStrings es)
        (es.foldl (ListenerLogIndex.extract r byteStrings) l) ∧
      (es.foldl (ListenerLogIndex.extract r byteStrings) l).blockNumber =
        (es.getLast?.map entryNumber).getD l.blockNumber := by
  induction es generalizing strings l with
  | nil => exact ⟨by rwa [stringsOf, List.flatMap_nil, List.append_nil], rfl⟩
  | cons e es ih =>
    obtain ⟨hlistened, hnumber⟩ := h.extract hP byteStrings e
    obtain ⟨hlistened', hnumber'⟩ := ih hlistened
    refine ⟨?_, ?_⟩
    · rw [List.append_assoc, stringsOf, stringsOf, ← List.flatMap_append] at hlistened'
      exact hlistened'
    · rw [List.foldl_cons, hnumber', hnumber, List.getLast?_cons]
      cases es.getLast? <;> rfl

end Listening

/-- The parts that were collected, in the order of their keys. -/
theorem Gathered.exists_sorted {r : Roaring} {size : ℕ} {strings : List (Uint64 × Bytes)}
    {parts : List (Bytes × Finset ℕ)} {x : BitmapBuffer} (hx : Gathered r size strings parts x) :
    ∃ sorted : List (Bytes × Finset ℕ), sortedEntries x.collected = sorted.map (logEntry r) ∧
      ∀ p ∈ sorted, p ∈ parts := by
  have hentries : ∀ e ∈ sortedEntries x.collected, ∃ p, p ∈ parts ∧ e = logEntry r p := by
    intro e he
    rw [(sortedEntries_perm _).mem_iff, hx.collected] at he
    obtain ⟨p, hp, rfl⟩ := List.mem_map.mp he
    exact ⟨p, hp, rfl⟩
  exact exists_eq_map hentries

section Loads

variable {r : Roaring} (hr : r.Lawful) {append : Bool} {size : ℕ} {t : PlainTable}
  {s : Bytes → Finset ℕ} {strings : List (Uint64 × Bytes)} {parts : List (Bytes × Finset ℕ)}
  {x : BitmapBuffer}

include hr

/-- After the collected parts have been loaded, the index holds the blocks of what was read. -/
theorem exists_loadLogBitmaps (h : LogsIndexed r size t s) (hx : Gathered r size strings parts x)
    (hflushed : x.bitmaps = ∅) (hfit : LoadsFitLogs r append t (sortedEntries x.collected))
    (happend : append = true → t.entries = []) :
    ∃ t' s', loadLogBitmaps r append x t = some t' ∧ LogsIndexed r size t' s' ∧
      ∀ key m, m ∈ s' key ↔ m ∈ s key ∨ ReadIn size strings key m := by
  obtain ⟨sorted, hsorted, hmem⟩ := hx.exists_sorted
  have hread {p : Bytes × Finset ℕ} (hp : p ∈ parts) : r.readSafe (r.write p.2) = some p.2 :=
    hr.roundTrips p.2 fun m hm => ((hx.parts_sound p hp).2 m hm).le
  have hmem' : ∀ p ∈ parts, p ∈ sorted := by
    intro p hp
    have hin : logEntry r p ∈ sortedEntries x.collected := by
      rw [(sortedEntries_perm _).mem_iff, hx.collected]
      exact List.mem_map_of_mem hp
    rw [hsorted] at hin
    obtain ⟨q, hq, heq⟩ := List.mem_map.mp hin
    obtain ⟨hkey, hwrite⟩ := Prod.mk.inj heq
    have hset : q.2 = p.2 := by
      have hq' := hread (hmem q hq)
      rw [hwrite, hread hp] at hq'
      exact (Option.some.inj hq').symm
    rwa [Prod.ext hkey hset] at hq
  have hparts : ∀ p ∈ sorted, p.1.length = size ∧ p.2.Nonempty ∧ ∀ m ∈ p.2, m ≤ kLastLogChunk := by
    intro p hp
    obtain ⟨⟨m, hm⟩, hall⟩ := hx.parts_sound p (hmem p hp)
    exact ⟨(hall m hm).1, ⟨m, hm⟩, fun m hm => (hall m hm).le⟩
  have horder : sorted.Pairwise fun p q => ¬q.1 < p.1 := by
    have hnotAfter := sortedEntries_pairwise x.collected
    rw [hsorted, List.pairwise_map] at hnotAfter
    exact hnotAfter.imp fun hpq hlt => hpq (.inl hlt)
  rw [hsorted] at hfit
  obtain ⟨t', s', hrun, hindexed, hs'⟩ := exists_foldlM_loadLogBitmap hr h hparts horder hfit
    fun ha e he => by
      rw [happend ha] at he
      cases he
  refine ⟨t', s', ?_, hindexed, fun key m => ?_⟩
  · rw [loadLogBitmaps, hsorted]
    exact hrun
  · rw [hs']
    apply or_congr_right
    constructor
    · rintro ⟨p, hp, rfl, hm⟩
      exact (hx.parts_sound p (hmem p hp)).2 m hm
    · intro hreadIn
      rcases hx.complete key m hreadIn with ⟨s, hs, -⟩ | ⟨p, hp, hkey, hm⟩
      · rw [hflushed] at hs
        cases hs
      · exact ⟨p, hmem' p hp, hkey, hm⟩

omit hr in
/-- An index of empty sets is empty. -/
theorem LogsIndexed.entries_eq_nil (h : LogsIndexed r size t s)
    (hs : ∀ key, key.length = size → s key = ∅) : t.entries = [] := by
  rw [List.eq_nil_iff_forall_not_mem]
  intro e he
  obtain ⟨key, k, hlen, hk, hkey⟩ := h.format e he
  have hget : t.get (logChunkIndex key k) = some e.2 := by
    rw [PlainTable.get_eq_some, ← hkey]
    exact he
  obtain ⟨c, -, hc⟩ := h.chunk hlen hk hget
  obtain ⟨last, hlast, y, hy⟩ := (h.holds key hlen).unites.last hc
  have hmem := (h.holds key hlen).unites.mem_iff.mpr ⟨_, last, hlast, hy⟩
  rw [hs key hlen] at hmem
  exact Finset.notMem_empty y hmem

end Loads

end Silkworm.Db
