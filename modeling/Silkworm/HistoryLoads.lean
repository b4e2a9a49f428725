import Silkworm.ChunkedSets
import Silkworm.HistoryIndex

/-!
# Loading into the index of the history

A part of a set is merged into the chunks of its key. The chunks are those of the whole set if the
part has nothing that belongs into one of the chunks already cut off.
-/

namespace Silkworm.Db
open BigEndian SortedTables Etl ChunkedSets

/-- What is written of sets of certain numbers is read again. -/
def Roaring.RoundTrips (r : Roaring) (numbers : Set ℕ) : Prop :=
  ∀ s : Finset ℕ, (∀ x ∈ s, x ∈ numbers) → r.readSafe (r.write s) = some s

theorem Roaring.RoundTrips.mono {r : Roaring} {numbers numbers' : Set ℕ} (h : r.RoundTrips numbers)
    (hsub : numbers' ⊆ numbers) : r.RoundTrips numbers' :=
  fun s hs => h s fun x hx => hsub (hs x hx)

/-- The chunks of a key. -/
def chunkMap (r : Roaring) (t : PlainTable) (key : Bytes) : ChunkMap ℕ := fun k =>
  if k ≤ kLastChunk then (t.get (chunkIndex key k)).bind r.readSafe else none

section Keys

theorem toNat_ofNat_chunk {k : ℕ} (h : k ≤ kLastChunk) : (BitVec.ofNat 64 k).toNat = k := by
  rw [BitVec.toNat_ofNat]
  exact Nat.mod_eq_of_lt (by unfold kLastChunk at h; omega)

theorem chunkIndex_inj {key key' : Bytes} {k k' : ℕ} (hk : k ≤ kLastChunk) (hk' : k' ≤ kLastChunk) :
    chunkIndex key k = chunkIndex key' k' ↔ key = key' ∧ k = k' := by
  constructor
  · intro h
    obtain ⟨hkey, hsuffix⟩ := List.append_inj' h (by rw [length_bigU64, length_bigU64])
    have := congrArg BitVec.toNat (bigU64_injective hsuffix)
    rw [toNat_ofNat_chunk hk, toNat_ofNat_chunk hk'] at this
    exact ⟨hkey, this⟩
  · rintro ⟨rfl, rfl⟩
    rfl

theorem chunkIndex_lt {key : Bytes} {k k' : ℕ} (h : k < k') (hk' : k' ≤ kLastChunk) :
    chunkIndex key k < chunkIndex key k' := by
  refine List.append_left_lt (bigU64_lt_iff.mpr ?_)
  rwa [toNat_ofNat_chunk (h.le.trans hk'), toNat_ofNat_chunk hk']

theorem lt_chunkIndex {bs key : Bytes} {k k' : ℕ} (hbs : bs < chunkIndex key k) (h : k ≤ k')
    (hk' : k' ≤ kLastChunk) : bs < chunkIndex key k' := by
  rcases h.lt_or_eq with hlt | rfl
  · exact List.lt_trans hbs (chunkIndex_lt hlt hk')
  · exact hbs

/-- Keys of one length are compared before what follows them. -/
theorem append_lt_append_of_lt {key key' : Bytes} (h : key < key') (hlen : key.length = key'.length)
    (x y : Bytes) : key ++ x < key' ++ y := by
  induction key generalizing key' with
  | nil =>
    cases key' with
    | nil => exact absurd h (List.lt_irrefl _)
    | cons b key' => cases hlen
  | cons b key ih =>
    cases key' with
    | nil => cases hlen
    | cons b' key' =>
      rw [List.cons_append, List.cons_append, List.cons_lt_cons_iff]
      rcases List.cons_lt_cons_iff.mp h with hb | ⟨rfl, hkey⟩
      · exact .inl hb
      · exact .inr ⟨rfl, ih hkey (Nat.succ.inj hlen)⟩

theorem chunkIndex_lt_of_lt {key key' : Bytes} (h : key < key') (hlen : key.length = key'.length)
    (k k' : ℕ) : chunkIndex key k < chunkIndex key' k' :=
  append_lt_append_of_lt h hlen _ _

end Keys

section Chunk

variable {r : Roaring} {t : PlainTable} {key : Bytes} {m : ℕ} {c : Finset ℕ}

theorem chunkMap_bound {k : ℕ} (h : chunkMap r t key k = some c) : k ≤ kLastChunk := by
  by_contra hk
  rw [chunkMap, if_neg hk] at h
  cases h

theorem chunkMap_put (hm : m ≤ kLastChunk) (hread : r.readSafe (r.write c) = some c) :
    chunkMap r (t.put (chunkIndex key m) (r.write c)) key =
      Function.update (chunkMap r t key) m (some c) := by
  funext k
  by_cases hk : k = m
  · subst hk
    rw [Function.update_self, chunkMap, if_pos hm, PlainTable.get_put, if_pos rfl, Option.bind_some,
      hread]
  · rw [Function.update_of_ne hk, chunkMap, chunkMap]
    split_ifs with hbound
    · rw [PlainTable.get_put, if_neg fun h => hk ((chunkIndex_inj hbound hm).mp h).2]
    · rfl

end Chunk

/-- The chunks of a key can be read and make up a set. -/
structure HoldsSet (r : Roaring) (t : PlainTable) (key : Bytes) (s : Finset ℕ) : Prop where
  chunks : Chunks kLastChunk s (chunkMap r t key)
  readable : ∀ k ≤ kLastChunk, ∀ v, t.get (chunkIndex key k) = some v → ∃ c, r.readSafe v = some c

/-- Only the chunks of one key are different. -/
def SameElsewhere (key : Bytes) (t t' : PlainTable) : Prop :=
  (∀ key' ≠ key, ∀ k ≤ kLastChunk, t'.get (chunkIndex key' k) = t.get (chunkIndex key' k)) ∧
  ∀ e ∈ t'.entries, e ∈ t.entries ∨ ∃ k ≤ kLastChunk, e.1 = chunkIndex key k

theorem SameElsewhere.refl (key : Bytes) (t : PlainTable) : SameElsewhere key t t :=
  ⟨fun _ _ _ _ => rfl, fun _ => .inl⟩

theorem SameElsewhere.trans {key : Bytes} {t t' t'' : PlainTable} (h : SameElsewhere key t t')
    (h' : SameElsewhere key t' t'') : SameElsewhere key t t'' := by
  refine ⟨fun key' hne k hk => (h'.1 key' hne k hk).trans (h.1 key' hne k hk), fun e he => ?_⟩
  rcases h'.2 e he with he | he
  · exact h.2 e he
  · exact .inr he

theorem sameElsewhere_put (t : PlainTable) (key data : Bytes) {m : ℕ} (hm : m ≤ kLastChunk) :
    SameElsewhere key t (t.put (chunkIndex key m) data) := by
  refine ⟨fun key' hne k hk => ?_, fun e he => ?_⟩
  · rw [PlainTable.get_put, if_neg fun h => hne ((chunkIndex_inj hk hm).mp h).1]
  · rcases (PlainTable.mem_put t).mp he with rfl | ⟨he, -⟩
    · exact .inr ⟨m, hm, rfl⟩
    · exact .inl he

/-- The keys that are there are below those of the chunks of a bitmap. -/
def Appends (t : PlainTable) (key : Bytes) (bm : Finset ℕ) : Prop :=
  ∀ e ∈ t.entries, ∀ x ∈ bm, ∀ m, x ≤ m → m ≤ kLastChunk → e.1 < chunkIndex key m

section Cuts

variable {r : Roaring} (hcut : CutsLeft r.cutLeft) {numbers : Set ℕ} (hround : r.RoundTrips numbers)
  (hnum : ∀ x ∈ numbers, x ≤ kLastChunk) {append : Bool} {key : Bytes}

include hcut hround hnum

/-- The bitmap is cut into chunks, the last of which replaces the one that was there. -/
theorem exists_putChunks {cuts : ℕ} {bm s : Finset ℕ} {t : PlainTable} (hcuts : bm.card ≤ cuts)
    (hbm : ∀ x ∈ bm, x ∈ numbers) (hne : bm.Nonempty)
    (hclosed : Closed kLastChunk s (chunkMap r t key)) (habove : ∀ x ∈ s, ∀ y ∈ bm, x < y)
    (hreadable : ∀ k ≤ kLastChunk, ∀ v, t.get (chunkIndex key k) = some v →
      ∃ c, r.readSafe v = some c)
    (happend : append = true → Appends t key bm) :
    ∃ t', putChunks r append key cuts bm t = some t' ∧ HoldsSet r t' key (s ∪ bm) ∧
      SameElsewhere key t t' := by
  induction cuts generalizing bm s t with
  | zero =>
    have := hne.card_pos
    omega
  | succ cuts ih =>
    obtain ⟨hleft, hunion, hlt⟩ := hcut bm hne
    have hsub : (r.cutLeft bm).1 ⊆ bm := fun x hx => by
      have := Finset.mem_union_left (r.cutLeft bm).2 hx
      rwa [hunion] at this
    have hsub' : (r.cutLeft bm).2 ⊆ bm := fun x hx => by
      have := Finset.mem_union_right (r.cutLeft bm).1 hx
      rwa [hunion] at this
    have hread := hround (r.cutLeft bm).1 fun x hx => hbm x (hsub hx)
    -- one chunk is put under a key above those of the closed chunks
    have hput {m : ℕ} (hm : m ≤ kLastChunk) (hmax : ∀ x ∈ (r.cutLeft bm).1, x ≤ m) :
        putChunk append t (chunkIndex key m) (r.write (r.cutLeft bm).1) =
          some (t.put (chunkIndex key m) (r.write (r.cutLeft bm).1)) := by
      cases append with
      | false => rfl
      | true =>
        obtain ⟨x, hx⟩ := hleft
        exact if_pos fun e he => happend rfl e he x (hsub hx) m (hmax x hx) hm
    have hreadable' {m : ℕ} (hm : m ≤ kLastChunk) (k : ℕ) (hk : k ≤ kLastChunk) (v : Bytes)
        (hv : (t.put (chunkIndex key m) (r.write (r.cutLeft bm).1)).get (chunkIndex key k) = some v) :
        ∃ c, r.readSafe v = some c := by
      rw [PlainTable.get_put] at hv
      split_ifs at hv
      · cases hv
        exact ⟨_, hread⟩
      · exact hreadable k hk v hv
    have hsup : ∀ x ∈ (r.cutLeft bm).1, x ≤ (r.cutLeft bm).1.sup id := fun x hx =>
      Finset.le_sup (f := id) hx
    rw [putChunks, if_neg (by rw [Finset.card_eq_zero]; exact hne.ne_empty)]
    by_cases hrest : (r.cutLeft bm).2 = ∅
    · have hall : (r.cutLeft bm).1 = bm := by
        rw [hrest, Finset.union_empty] at hunion
        exact hunion
      have hend (t : PlainTable) : putChunks r append key cuts (r.cutLeft bm).2 t = some t := by
        rw [hrest]
        cases cuts <;> rfl
      refine ⟨t.put (chunkIndex key kLastChunk) (r.write (r.cutLeft bm).1), ?_, ⟨?_,
        hreadable' le_rfl⟩, sameElsewhere_put t key _ le_rfl⟩
      · dsimp only
        rw [if_pos (by rw [hrest]; rfl), hput le_rfl fun x hx => hnum x (hbm x (hsub hx))]
        exact hend _
      · rw [chunkMap_put le_rfl hread, hall]
        exact hclosed.finish chunkMap_bound hne habove
    · have hne' := Finset.nonempty_iff_ne_empty.mpr hrest
      have hmem : (r.cutLeft bm).1.sup id ∈ (r.cutLeft bm).1 := by
        obtain ⟨x, hx, heq⟩ := Finset.exists_mem_eq_sup _ hleft id
        rw [heq]
        exact hx
      obtain ⟨y, hy⟩ := hne'
      have hlast : (r.cutLeft bm).1.sup id < kLastChunk :=
        (hlt _ hmem y hy).trans_le (hnum y (hbm y (hsub' hy)))
      have hcard : (r.cutLeft bm).2.card ≤ cuts := by
        have hlt' : (r.cutLeft bm).2 ⊂ bm := by
          refine Finset.ssubset_iff_subset_ne.mpr ⟨hsub', fun heq => ?_⟩
          obtain ⟨x, hx⟩ := hleft
          have hx' : x ∈ (r.cutLeft bm).2 := by
            rw [heq]
            exact hsub hx
          exact lt_irrefl x (hlt x hx x hx')
        have := Finset.card_lt_card hlt'
        omega
      have hclosed' : Closed kLastChunk (s ∪ (r.cutLeft bm).1)
          (chunkMap r (t.put (chunkIndex key ((r.cutLeft bm).1.sup id))
            (r.write (r.cutLeft bm).1)) key) := by
        rw [chunkMap_put hlast.le hread]
        exact hclosed.put hmem hsup hlast fun x hx z hz => habove x hx z (hsub hz)
      have habove' : ∀ x ∈ s ∪ (r.cutLeft bm).1, ∀ z ∈ (r.cutLeft bm).2, x < z := by
        intro x hx z hz
        rcases Finset.mem_union.mp hx with hx | hx
        · exact habove x hx z (hsub' hz)
        · exact hlt x hx z hz
      have happend' : append = true → Appends (t.put (chunkIndex key ((r.cutLeft bm).1.sup id))
          (r.write (r.cutLeft bm).1)) key (r.cutLeft bm).2 := by
        intro ha e he x hx m hxm hm
        rcases (PlainTable.mem_put t).mp he with rfl | ⟨he, -⟩
        · exact chunkIndex_lt ((hlt _ hmem x hx).trans_le hxm) hm
        · exact happend ha e he x (hsub' hx) m hxm hm
      obtain ⟨t', hrun, hholds, hsame⟩ := ih hcard (fun x hx => hbm x (hsub' hx)) ⟨y, hy⟩ hclosed'
        habove' (hreadable' hlast.le) happend'
      refine ⟨t', ?_, ?_, (sameElsewhere_put t key _ hlast.le).trans hsame⟩
      · dsimp only
        rw [if_neg (by rw [Finset.card_eq_zero]; exact hrest), hput hlast.le hsup]
        exact hrun
      · rw [Finset.union_assoc, hunion] at hholds
        exact hholds

end Cuts

/-- A part of a set can be loaded. It has nothing that belongs before the last of the chunks, and a
key that is new can be appended where that is asked for. -/
structure Fits (r : Roaring) (append : Bool) (t : PlainTable) (e : Entry) : Prop where
  above : ∀ bm, r.readSafe e.2 = some bm → ∀ k < kLastChunk, ∀ v c,
    t.get (chunkIndex e.1 k) = some v → r.readSafe v = some c → ∀ x ∈ bm, ∀ y ∈ c, y < x
  appends : append = true → t.get (chunkIndex e.1 kLastChunk) = none →
    ∀ e' ∈ t.entries, e'.1 < chunkIndex e.1 0

/-- Every part fits into the index that it is loaded into. -/
def LoadsFit (r : Roaring) (append : Bool) : PlainTable → List Entry → Prop
  | _, [] => True
  | t, e :: es => Fits r append t e ∧
    ∀ t', loadBitmap r append t e = some t' → LoadsFit r append t' es

/-- The index holds a set for every address, and nothing else. -/
structure Indexed (r : Roaring) (t : PlainTable) (s : Address → Finset ℕ) : Prop where
  format : ∀ e ∈ t.entries, ∃ a : Address, ∃ k ≤ kLastChunk, e.1 = chunkIndex a.val k
  holds : ∀ a : Address, HoldsSet r t a.val (s a)

section Loads

variable {r : Roaring} (hcut : CutsLeft r.cutLeft) {numbers : Set ℕ} (hround : r.RoundTrips numbers)
  (hnum : ∀ x ∈ numbers, x ≤ kLastChunk) {append : Bool} {t : PlainTable} {s : Address → Finset ℕ}

theorem HoldsSet.eq_empty {key : Bytes} {s : Finset ℕ} (h : HoldsSet r t key s)
    (hnone : t.get (chunkIndex key kLastChunk) = none) : s = ∅ := by
  by_contra hne
  refine h.chunks.last (Finset.nonempty_iff_ne_empty.mpr hne) ?_
  rw [chunkMap, if_pos le_rfl, hnone]
  rfl

theorem Indexed.entries_eq_nil {t : PlainTable} {s : Address → Finset ℕ} (h : Indexed r t s)
    (hs : ∀ a, s a = ∅) : t.entries = [] := by
  rw [List.eq_nil_iff_forall_not_mem]
  intro e he
  obtain ⟨a, k, hk, hkey⟩ := h.format e he
  have hget : t.get (chunkIndex a.val k) = some e.2 := by
    rw [PlainTable.get_eq_some, ← hkey]
    exact he
  obtain ⟨c, hread⟩ := (h.holds a).readable k hk e.2 hget
  have hc : chunkMap r t a.val k = some c := by
    rw [chunkMap, if_pos hk, hget, Option.bind_some, hread]
  obtain ⟨m, hm⟩ := (h.holds a).chunks.nonempty hc
  have := (h.holds a).chunks.subset hc hm
  rw [hs a] at this
  exact Finset.notMem_empty m this

include hcut hround hnum

theorem exists_loadBitmap (h : Indexed r t s) (hs : ∀ a, ∀ x ∈ s a, x ∈ numbers) {a : Address}
    {bm : Finset ℕ} (hne : bm.Nonempty) (hbm : ∀ x ∈ bm, x ∈ numbers)
    (hfits : Fits r append t (a.val, r.write bm)) :
    ∃ t', loadBitmap r append t (a.val, r.write bm) = some t' ∧
      Indexed r t' (Function.update s a (s a ∪ bm)) ∧ SameElsewhere a.val t t' := by
  have hread := hround bm hbm
  have hchunks := (h.holds a).chunks
  obtain ⟨closed, hclosed, hset, hbelow⟩ := hchunks.closed
  have hfit : ∀ x ∈ closed, ∀ y ∈ bm, x < y := by
    intro x hx y hy
    obtain ⟨k, c, hk, hc, hxc⟩ := hclosed.cover hx
    rw [chunkMap, if_pos hk.le, Option.bind_eq_some_iff] at hc
    obtain ⟨v, hv, hc⟩ := hc
    exact hfits.above bm hread k hk v c hv hc y hy x hxc
  -- the rest of the table is kept, and the key has its chunks
  have hindexed {t' : PlainTable} (hholds : HoldsSet r t' a.val (s a ∪ bm))
      (hsame : SameElsewhere a.val t t') : Indexed r t' (Function.update s a (s a ∪ bm)) := by
    refine ⟨fun e he => ?_, fun a' => ?_⟩
    · rcases hsame.2 e he with he | ⟨k, hk, he⟩
      · exact h.format e he
      · exact ⟨a, k, hk, he⟩
    · by_cases ha : a' = a
      · subst ha
        rw [Function.update_self]
        exact hholds
      · have hkey : a'.val ≠ a.val := fun heq => ha (Subtype.ext heq)
        have hmap : chunkMap r t' a'.val = chunkMap r t a'.val := by
          funext k
          rw [chunkMap, chunkMap]
          split_ifs with hk
          · rw [hsame.1 _ hkey k hk]
          · rfl
        rw [Function.update_of_ne ha]
        refine ⟨hmap ▸ (h.holds a').chunks, fun k hk v hv => ?_⟩
        rw [hsame.1 _ hkey k hk] at hv
        exact (h.holds a').readable k hk v hv
  rw [loadBitmap]
  dsimp only
  rw [hread, Option.bind_eq_bind, Option.bind_some]
  cases hlast : t.get (chunkIndex a.val kLastChunk) with
  | some v =>
    obtain ⟨previous, hprevious⟩ := (h.holds a).readable kLastChunk le_rfl v hlast
    have hmap : chunkMap r t a.val kLastChunk = some previous := by
      rw [chunkMap, if_pos le_rfl, hlast, Option.bind_some, hprevious]
    rw [hmap, Option.getD_some] at hset hbelow
    dsimp only
    rw [hprevious, Option.bind_some]
    have hset' : closed ∪ (bm ∪ previous) = s a ∪ bm := by
      rw [hset, Finset.union_assoc, Finset.union_comm bm previous]
    have hnumbers : ∀ x ∈ bm ∪ previous, x ∈ numbers := by
      intro x hx
      rcases Finset.mem_union.mp hx with hx | hx
      · exact hbm x hx
      · exact hs a x (hset ▸ Finset.mem_union_right _ hx)
    have habove : ∀ x ∈ closed, ∀ y ∈ bm ∪ previous, x < y := by
      intro x hx y hy
      rcases Finset.mem_union.mp hy with hy | hy
      · exact hfit x hx y hy
      · exact hbelow x hx y hy
    have hfalse : false = true → Appends t a.val (bm ∪ previous) := nofun
    obtain ⟨t', hrun, hholds, hsame⟩ := exists_putChunks hcut hround hnum le_rfl hnumbers
      (hne.mono Finset.subset_union_left) hclosed habove (h.holds a).readable hfalse
    rw [hset'] at hholds
    exact ⟨t', hrun, hindexed hholds hsame, hsame⟩
  | none =>
    have hempty := (h.holds a).eq_empty hlast
    have hclosed_empty : closed = ∅ := by
      rw [hempty, eq_comm, Finset.union_eq_empty] at hset
      exact hset.1
    have happend : append = true → Appends t a.val bm := fun ha e he x hx m hxm hm =>
      lt_chunkIndex (hfits.appends ha hlast e he) (Nat.zero_le m) hm
    dsimp only
    obtain ⟨t', hrun, hholds, hsame⟩ := exists_putChunks hcut hround hnum le_rfl hbm hne hclosed
      hfit (h.holds a).readable happend
    rw [hclosed_empty] at hholds
    rw [hempty] at hindexed ⊢
    exact ⟨t', hrun, hindexed hholds hsame, hsame⟩

/-- What is collected of a part. -/
def partEntry (r : Roaring) (p : Address × Finset ℕ) : Entry := (p.1.val, r.write p.2)

/-- After the parts have been loaded the index holds the old sets and the parts. -/
theorem exists_loadBitmaps {parts : List (Address × Finset ℕ)} (h : Indexed r t s)
    (hs : ∀ a, ∀ x ∈ s a, x ∈ numbers)
    (hparts : ∀ p ∈ parts, p.2.Nonempty ∧ ∀ x ∈ p.2, x ∈ numbers)
    (hfit : LoadsFit r append t (parts.map (partEntry r))) :
    ∃ t' s', (parts.map (partEntry r)).foldlM (loadBitmap r append) t = some t' ∧
      Indexed r t' s' ∧ ∀ a x, x ∈ s' a ↔ x ∈ s a ∨ ∃ p ∈ parts, p.1 = a ∧ x ∈ p.2 := by
  induction parts generalizing t s with
  | nil => exact ⟨t, s, rfl, h, by simp⟩
  | cons p parts ih =>
    obtain ⟨⟨hne, hnumbers⟩, hparts⟩ := List.forall_mem_cons.mp hparts
    obtain ⟨t', hload, hindexed, -⟩ := exists_loadBitmap hcut hround hnum h hs hne hnumbers hfit.1
    have hs' : ∀ a, ∀ x ∈ Function.update s p.1 (s p.1 ∪ p.2) a, x ∈ numbers := by
      intro a x hx
      by_cases ha : a = p.1
      · subst ha
        rw [Function.update_self] at hx
        exact (Finset.mem_union.mp hx).elim (hs _ x) (hnumbers x)
      · rw [Function.update_of_ne ha] at hx
        exact hs a x hx
    obtain ⟨t'', s'', hrun, hindexed', hmem⟩ := ih hindexed hs' hparts (hfit.2 t' hload)
    refine ⟨t'', s'', ?_, hindexed', fun a x => ?_⟩
    · rw [List.map_cons, List.foldlM_cons, partEntry, hload]
      exact hrun
    · rw [hmem, List.exists_mem_cons_iff]
      by_cases ha : a = p.1
      · subst ha
        rw [Function.update_self, Finset.mem_union]
        tauto
      · rw [Function.update_of_ne ha]
        have : ¬(p.1 = a ∧ x ∈ p.2) := fun h => ha h.1.symm
        tauto

/-- Parts fit that are sorted by their addresses, one for each, with nothing before the old sets. -/
theorem loadsFit_of_sorted {parts : List (Address × Finset ℕ)} (h : Indexed r t s)
    (hs : ∀ a, ∀ x ∈ s a, x ∈ numbers)
    (hparts : ∀ p ∈ parts, p.2.Nonempty ∧ (∀ x ∈ p.2, x ∈ numbers) ∧
      ∀ x ∈ p.2, ∀ y ∈ s p.1, y ≤ x)
    (hsorted : parts.Pairwise fun p q => p.1.val < q.1.val)
    (happend : append = true → ∀ e ∈ t.entries, ∀ p ∈ parts, e.1 < chunkIndex p.1.val 0) :
    LoadsFit r append t (parts.map (partEntry r)) := by
  induction parts generalizing t s with
  | nil => trivial
  | cons p parts ih =>
    obtain ⟨⟨hne, hnumbers, hle⟩, hparts⟩ := List.forall_mem_cons.mp hparts
    obtain ⟨hp, hsorted⟩ := List.pairwise_cons.mp hsorted
    have hfits : Fits r append t (partEntry r p) := by
      refine ⟨fun bm hbm k hk v c hv hc x hx y hy => ?_,
        fun ha _ e he => happend ha e he p List.mem_cons_self⟩
      have hchunk : chunkMap r t p.1.val k = some c := by
        rw [chunkMap, if_pos hk.le, partEntry] at *
        rw [hv, Option.bind_some, hc]
      have hchunks := (h.holds p.1).chunks
      rw [partEntry, hround p.2 hnumbers] at hbm
      cases hbm
      -- the last chunk is in between
      obtain ⟨last, hlast⟩ := Option.ne_none_iff_exists'.mp
        (hchunks.last ⟨y, hchunks.subset hchunk hy⟩)
      obtain ⟨z, hz⟩ := hchunks.nonempty hlast
      exact (hchunks.order hk hchunk hlast y hy z hz).trans_le (hle x hx z (hchunks.subset hlast hz))
    refine ⟨hfits, fun t' hload => ?_⟩
    obtain ⟨t'', hload', hindexed, hsame⟩ :=
      exists_loadBitmap hcut hround hnum h hs hne hnumbers hfits
    cases hload.symm.trans hload'
    have hother : ∀ q ∈ parts, Function.update s p.1 (s p.1 ∪ p.2) q.1 = s q.1 := fun q hq =>
      Function.update_of_ne (fun heq => List.lt_irrefl _ (heq ▸ hp q hq)) _ _
    refine ih hindexed (fun a x hx => ?_) (fun q hq => ?_) hsorted fun ha e he q hq => ?_
    · by_cases ha : a = p.1
      · subst ha
        rw [Function.update_self] at hx
        exact (Finset.mem_union.mp hx).elim (hs _ x) (hnumbers x)
      · rw [Function.update_of_ne ha] at hx
        exact hs a x hx
    · rw [hother q hq]
      exact hparts q hq
    · rcases hsame.2 e he with he | ⟨k, hk, hkey⟩
      · exact happend ha e he q (List.mem_cons_of_mem _ hq)
      · rw [hkey]
        exact chunkIndex_lt_of_lt (hp q hq) (p.1.property.trans q.1.property.symm) k 0

end Loads

end Silkworm.Db
