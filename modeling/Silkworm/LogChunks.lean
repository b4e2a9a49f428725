import Silkworm.ChunkUnions
import Silkworm.HistoryLoads
import Silkworm.LogIndex

/-!
# Loading into the index of the logs

A part of a set is merged into the chunks of its key, in whatever order the parts come. The chunks
unite the parts if no part makes a chunk that replaces one with other numbers.
-/

namespace Silkworm.Db
open BigEndian SortedTables Etl ChunkedSets

/-- The chunks of a key. -/
def logChunkMap (r : Roaring) (t : PlainTable) (key : Bytes) : ChunkMap ℕ := fun k =>
  if k ≤ kLastLogChunk then (t.get (logChunkIndex key k)).bind r.readSafe else none

/-- What the bitmaps of 32 bits do: a set of such numbers is written and read again, nothing else is
read, and a cut splits a set. -/
structure Roaring.Lawful (r : Roaring) : Prop where
  roundTrips : r.RoundTrips {n | n ≤ kLastLogChunk}
  bounded : ∀ {bytes s}, r.readSafe bytes = some s → ∀ n ∈ s, n ≤ kLastLogChunk
  cutsLeft : CutsLeft r.cutLeft

section Keys

variable {key key' : Bytes} {k k' : ℕ}

theorem toNat_ofNat_logChunk (h : k ≤ kLastLogChunk) : (BitVec.ofNat 32 k).toNat = k := by
  rw [BitVec.toNat_ofNat]
  exact Nat.mod_eq_of_lt (by rw [kLastLogChunk] at h; omega)

theorem length_suffix (n : BitVec 32) : (fixedBigEndian 4 n.toNat).length = 4 :=
  length_fixedBigEndian (n.isLt.trans_eq (by norm_num))

theorem logChunkIndex_inj (hk : k ≤ kLastLogChunk) (hk' : k' ≤ kLastLogChunk) :
    logChunkIndex key k = logChunkIndex key' k' ↔ key = key' ∧ k = k' := by
  constructor
  · intro h
    obtain ⟨hkey, hsuffix⟩ := List.append_inj' h (by rw [length_suffix, length_suffix])
    have hnat := congrArg ofBigEndian hsuffix
    rw [ofBigEndian_fixedBigEndian, ofBigEndian_fixedBigEndian, toNat_ofNat_logChunk hk,
      toNat_ofNat_logChunk hk'] at hnat
    exact ⟨hkey, hnat⟩
  · rintro ⟨rfl, rfl⟩
    rfl

theorem logChunkIndex_lt (h : k < k') (hk' : k' ≤ kLastLogChunk) :
    logChunkIndex key k < logChunkIndex key k' := by
  apply List.append_left_lt
  rw [lt_iff_ofBigEndian_lt (by rw [length_suffix, length_suffix]), ofBigEndian_fixedBigEndian,
    ofBigEndian_fixedBigEndian, toNat_ofNat_logChunk (h.le.trans hk'), toNat_ofNat_logChunk hk']
  exact h

theorem lt_logChunkIndex {bs : Bytes} (hbs : bs < logChunkIndex key k) (h : k ≤ k')
    (hk' : k' ≤ kLastLogChunk) : bs < logChunkIndex key k' := by
  rcases h.lt_or_eq with hlt | rfl
  · exact List.lt_trans hbs (logChunkIndex_lt hlt hk')
  · exact hbs

end Keys

section Chunk

variable {r : Roaring} {t : PlainTable} {key : Bytes} {m : ℕ} {c : Finset ℕ}

theorem logChunkMap_bound {k : ℕ} (h : logChunkMap r t key k = some c) : k ≤ kLastLogChunk := by
  by_contra hk
  rw [logChunkMap, if_neg hk] at h
  cases h

theorem logChunkMap_put (hm : m ≤ kLastLogChunk) (hread : r.readSafe (r.write c) = some c) :
    logChunkMap r (t.put (logChunkIndex key m) (r.write c)) key =
      Function.update (logChunkMap r t key) m (some c) := by
  funext k
  by_cases hk : k = m
  · subst hk
    rw [Function.update_self, logChunkMap, if_pos hm, PlainTable.get_put, if_pos rfl,
      Option.bind_some, hread]
  · rw [Function.update_of_ne hk, logChunkMap, logChunkMap]
    split_ifs with hbound
    · rw [PlainTable.get_put, if_neg fun h => hk ((logChunkIndex_inj hbound hm).mp h).2]
    · rfl

end Chunk

/-- The chunks of a key can be read. -/
def Readable (r : Roaring) (t : PlainTable) (key : Bytes) : Prop :=
  ∀ k ≤ kLastLogChunk, ∀ v, t.get (logChunkIndex key k) = some v → ∃ c, r.readSafe v = some c

/-- The chunks of a key can be read and unite to a set. -/
structure HoldsUnion (r : Roaring) (t : PlainTable) (key : Bytes) (s : Finset ℕ) : Prop where
  unites : Unites kLastLogChunk s (logChunkMap r t key)
  readable : Readable r t key

/-- Only the chunks of one key are different. -/
def SameLogsElsewhere (key : Bytes) (t t' : PlainTable) : Prop :=
  (∀ key' ≠ key, ∀ k ≤ kLastLogChunk,
    t'.get (logChunkIndex key' k) = t.get (logChunkIndex key' k)) ∧
  ∀ e ∈ t'.entries, e ∈ t.entries ∨ ∃ k ≤ kLastLogChunk, e.1 = logChunkIndex key k

theorem SameLogsElsewhere.trans {key : Bytes} {t t' t'' : PlainTable}
    (h : SameLogsElsewhere key t t') (h' : SameLogsElsewhere key t' t'') :
    SameLogsElsewhere key t t'' := by
  refine ⟨fun key' hne k hk => (h'.1 key' hne k hk).trans (h.1 key' hne k hk), fun e he => ?_⟩
  exact (h'.2 e he).elim (h.2 e) .inr

theorem sameLogsElsewhere_put (t : PlainTable) (key data : Bytes) {m : ℕ}
    (hm : m ≤ kLastLogChunk) : SameLogsElsewhere key t (t.put (logChunkIndex key m) data) := by
  refine ⟨fun key' hne k hk => ?_, fun e he => ?_⟩
  · rw [PlainTable.get_put, if_neg fun h => hne ((logChunkIndex_inj hk hm).mp h).1]
  · rcases (PlainTable.mem_put t).mp he with rfl | ⟨he, -⟩
    · exact .inr ⟨m, hm, rfl⟩
    · exact .inl he

/-- The keys that are there are below those of the chunks of a bitmap. -/
def AppendsLogs (t : PlainTable) (key : Bytes) (bm : Finset ℕ) : Prop :=
  ∀ e ∈ t.entries, ∀ x ∈ bm, ∀ m, x ≤ m → m ≤ kLastLogChunk → e.1 < logChunkIndex key m

theorem readable_put {r : Roaring} {t : PlainTable} {key : Bytes} {c : Finset ℕ} {m : ℕ}
    (hread : r.readSafe (r.write c) = some c) (hreadable : Readable r t key) :
    Readable r (t.put (logChunkIndex key m) (r.write c)) key := by
  intro k hk v hv
  rw [PlainTable.get_put] at hv
  split_ifs at hv
  · cases hv
    exact ⟨c, hread⟩
  · exact hreadable k hk v hv

theorem eq_put_of_putChunk {append : Bool} {key data : Bytes} {t t' : PlainTable}
    (h : putChunk append t key data = some t') : t' = t.put key data := by
  cases append with
  | false => exact (Option.some.inj h).symm
  | true =>
    rw [putChunk, if_pos rfl, putAppend] at h
    split_ifs at h
    exact (Option.some.inj h).symm

theorem putChunk_of_appendsLogs {append : Bool} {key data : Bytes} {t : PlainTable} {bm : Finset ℕ}
    {x m : ℕ} (happend : append = true → AppendsLogs t key bm) (hx : x ∈ bm) (hxm : x ≤ m)
    (hm : m ≤ kLastLogChunk) :
    putChunk append t (logChunkIndex key m) data = some (t.put (logChunkIndex key m) data) := by
  cases append with
  | false => rfl
  | true => exact if_pos fun e he => happend rfl e he x hx m hxm hm

/-- The chunks of greater numbers come behind a chunk that was put. -/
theorem AppendsLogs.put {t : PlainTable} {key data : Bytes} {bm right : Finset ℕ} {k : ℕ}
    (h : AppendsLogs t key bm) (hsub : right ⊆ bm) (hlt : ∀ x ∈ right, k < x) :
    AppendsLogs (t.put (logChunkIndex key k) data) key right := by
  intro e he x hx m hxm hm
  rcases (PlainTable.mem_put t).mp he with rfl | ⟨he, -⟩
  · exact logChunkIndex_lt ((hlt x hx).trans_le hxm) hm
  · exact h e he x (hsub hx) m hxm hm

section Cuts

variable {r : Roaring} (hr : r.Lawful) {append : Bool} {key : Bytes}

include hr

/-- The greatest number of a chunk is in it, and below the last suffix if numbers are left. -/
theorem sup_cutLeft {bm : Finset ℕ} (hne : bm.Nonempty) (hbm : ∀ x ∈ bm, x ≤ kLastLogChunk)
    (hrest : (r.cutLeft bm).2 ≠ ∅) :
    (r.cutLeft bm).1.sup id ∈ (r.cutLeft bm).1 ∧ (r.cutLeft bm).1.sup id < kLastLogChunk := by
  obtain ⟨hleft, hunion, hlt⟩ := hr.cutsLeft bm hne
  obtain ⟨y, hy⟩ := Finset.nonempty_iff_ne_empty.mpr hrest
  obtain ⟨x, hx, hsup⟩ := Finset.exists_mem_eq_sup _ hleft id
  have hy' : y ∈ bm := hunion.subset (Finset.mem_union_right _ hy)
  rw [hsup]
  exact ⟨hx, (hlt x hx y hy).trans_le (hbm y hy')⟩

/-- The bitmap is cut into chunks, which are put under suffixes of their own. -/
theorem recut_of_putLogChunks {cuts : ℕ} {bm : Finset ℕ} {t t' : PlainTable} (hne : bm.Nonempty)
    (hbm : ∀ x ∈ bm, x ≤ kLastLogChunk) (hrun : putLogChunks r append key cuts bm t = some t') :
    Recut kLastLogChunk (logChunkMap r t key) bm (logChunkMap r t' key) ∧
      SameLogsElsewhere key t t' ∧ (Readable r t key → Readable r t' key) := by
  have hcard : bm.card ≠ 0 := Finset.card_ne_zero.mpr hne
  induction cuts generalizing bm t with
  | zero =>
    rw [putLogChunks, if_neg hcard] at hrun
    cases hrun
  | succ cuts ih =>
    rw [putLogChunks, if_neg hcard] at hrun
    obtain ⟨t₁, hchunk, hrun⟩ := Option.bind_eq_some_iff.mp hrun
    obtain ⟨-, hunion, hlt⟩ := hr.cutsLeft bm hne
    have hsub : (r.cutLeft bm).1 ⊆ bm := Finset.subset_union_left.trans hunion.subset
    have hsub' : (r.cutLeft bm).2 ⊆ bm := Finset.subset_union_right.trans hunion.subset
    have hread := hr.roundTrips (r.cutLeft bm).1 fun x hx => hbm x (hsub hx)
    have ht₁ := eq_put_of_putChunk hchunk
    by_cases hrest : (r.cutLeft bm).2 = ∅
    · have hall : (r.cutLeft bm).1 = bm := by rwa [hrest, Finset.union_empty] at hunion
      rw [if_pos (by rw [hrest]; rfl), hall] at ht₁
      have hend : t' = t₁ := by
        rw [hrest] at hrun
        cases cuts <;> exact (Option.some.inj hrun).symm
      rw [hall] at hread
      rw [hend, ht₁, logChunkMap_put le_rfl hread]
      exact ⟨.last hne, sameLogsElsewhere_put t key _ le_rfl, readable_put hread⟩
    · obtain ⟨hmem, hlast⟩ := sup_cutLeft hr hne hbm hrest
      rw [if_neg (by rw [Finset.card_eq_zero]; exact hrest)] at ht₁
      obtain ⟨htail, hsame, hreadable⟩ := ih (Finset.nonempty_iff_ne_empty.mpr hrest)
        (fun x hx => hbm x (hsub' hx)) hrun (Finset.card_ne_zero.mpr
          (Finset.nonempty_iff_ne_empty.mpr hrest))
      rw [ht₁] at htail hsame hreadable
      rw [logChunkMap_put hlast.le hread] at htail
      have hcut := Recut.cut hmem hlast hlt htail
      rw [hunion] at hcut
      exact ⟨hcut, (sameLogsElsewhere_put t key _ hlast.le).trans hsame,
        fun h => hreadable (readable_put hread h)⟩

/-- There are cuts enough, and chunks that are appended come behind what is there. -/
theorem exists_putLogChunks {cuts : ℕ} {bm : Finset ℕ} {t : PlainTable} (hcuts : bm.card ≤ cuts)
    (hbm : ∀ x ∈ bm, x ≤ kLastLogChunk) (happend : append = true → AppendsLogs t key bm) :
    ∃ t', putLogChunks r append key cuts bm t = some t' := by
  induction cuts generalizing bm t with
  | zero => exact ⟨t, if_pos (Nat.le_zero.mp hcuts)⟩
  | succ cuts ih =>
    rw [putLogChunks]
    split_ifs with hempty
    · exact ⟨t, rfl⟩
    have hne : bm.Nonempty := Finset.card_ne_zero.mp hempty
    obtain ⟨hleft, hunion, hlt⟩ := hr.cutsLeft bm hne
    have hsub : (r.cutLeft bm).1 ⊆ bm := Finset.subset_union_left.trans hunion.subset
    have hsub' : (r.cutLeft bm).2 ⊆ bm := Finset.subset_union_right.trans hunion.subset
    dsimp only
    by_cases hrest : (r.cutLeft bm).2 = ∅
    · obtain ⟨x, hx⟩ := hleft
      have hend (t : PlainTable) : putLogChunks r append key cuts (r.cutLeft bm).2 t = some t := by
        rw [hrest]
        cases cuts <;> rfl
      rw [if_pos (by rw [hrest]; rfl),
        putChunk_of_appendsLogs happend (hsub hx) (hbm x (hsub hx)) le_rfl]
      exact ⟨_, hend _⟩
    · obtain ⟨hmem, hlast⟩ := sup_cutLeft hr hne hbm hrest
      have hapart : Disjoint (r.cutLeft bm).1 (r.cutLeft bm).2 :=
        Finset.disjoint_left.mpr fun x hx hx' => lt_irrefl x (hlt x hx x hx')
      have hcard : (r.cutLeft bm).2.card ≤ cuts := by
        have hsum := Finset.card_union_of_disjoint hapart
        rw [hunion] at hsum
        have := hleft.card_pos
        omega
      rw [if_neg (by rw [Finset.card_eq_zero]; exact hrest),
        putChunk_of_appendsLogs happend (hsub hmem) le_rfl hlast.le]
      exact ih hcard (fun x hx => hbm x (hsub' hx)) fun ha =>
        (happend ha).put hsub' fun x hx => hlt _ hmem x hx

end Cuts

/-- Every number of a chunk that was cut off is put again with the part and the last chunk, or it is
in a chunk that these do not replace. -/
def FitsLogs (r : Roaring) (t : PlainTable) (e : Entry) : Prop :=
  ∀ bm, r.readSafe e.2 = some bm → Spares kLastLogChunk
    (bm ∪ (logChunkMap r t e.1 kLastLogChunk).getD ∅) (logChunkMap r t e.1)

/-- Every part fits into the index that it is loaded into. -/
def LoadsFitLogs (r : Roaring) (append : Bool) : PlainTable → List Entry → Prop
  | _, [] => True
  | t, e :: es => FitsLogs r t e ∧
    ∀ t', loadLogBitmap r append t e = some t' → LoadsFitLogs r append t' es

/-- The index holds a set for every key of a length, and nothing else. -/
structure LogsIndexed (r : Roaring) (size : ℕ) (t : PlainTable) (s : Bytes → Finset ℕ) : Prop where
  format : ∀ e ∈ t.entries, ∃ key k, key.length = size ∧ k ≤ kLastLogChunk ∧
    e.1 = logChunkIndex key k
  holds : ∀ key, key.length = size → HoldsUnion r t key (s key)

section Loads

variable {r : Roaring} (hr : r.Lawful) {append : Bool} {size : ℕ} {t : PlainTable}
  {s : Bytes → Finset ℕ}

theorem logsIndexed_empty (r : Roaring) (size : ℕ) : LogsIndexed r size {} fun _ => ∅ := by
  have hmap (key : Bytes) : logChunkMap r {} key = fun _ => none := by
    funext k
    rw [logChunkMap]
    split_ifs <;> rfl
  refine ⟨fun e he => absurd he List.not_mem_nil, fun key _ => ⟨?_, fun k _ v hv => ?_⟩⟩
  · rw [hmap]
    exact unites_none
  · cases hv

/-- A chunk in the table is a chunk of the key. -/
theorem LogsIndexed.chunk {key : Bytes} (h : LogsIndexed r size t s) (hlen : key.length = size)
    {k : ℕ} (hk : k ≤ kLastLogChunk) {v : Bytes} (hv : t.get (logChunkIndex key k) = some v) :
    ∃ c, r.readSafe v = some c ∧ logChunkMap r t key k = some c := by
  obtain ⟨c, hc⟩ := (h.holds key hlen).readable k hk v hv
  exact ⟨c, hc, by rw [logChunkMap, if_pos hk, hv, Option.bind_some, hc]⟩

/-- Keys without a last chunk are not in the table. -/
theorem LogsIndexed.ne_of_get_eq_none {key : Bytes} (h : LogsIndexed r size t s)
    (hlen : key.length = size) (hnone : t.get (logChunkIndex key kLastLogChunk) = none) {e : Entry}
    (he : e ∈ t.entries) {k : ℕ} (hk : k ≤ kLastLogChunk) : e.1 ≠ logChunkIndex key k := by
  intro hkey
  have hget : t.get (logChunkIndex key k) = some e.2 := by
    rw [PlainTable.get_eq_some, ← hkey]
    exact he
  obtain ⟨c, -, hc⟩ := h.chunk hlen hk hget
  have hlast : logChunkMap r t key kLastLogChunk = none := by
    rw [logChunkMap, if_pos le_rfl, hnone, Option.bind_none]
  cases hc.symm.trans ((h.holds key hlen).unites.eq_none hlast k)

/-- The rest of the table is kept. -/
theorem LogsIndexed.update {key : Bytes} {t' : PlainTable} {s' : Finset ℕ}
    (h : LogsIndexed r size t s) (hlen : key.length = size) (hholds : HoldsUnion r t' key s')
    (hsame : SameLogsElsewhere key t t') : LogsIndexed r size t' (Function.update s key s') := by
  refine ⟨fun e he => ?_, fun key' hlen' => ?_⟩
  · rcases hsame.2 e he with he | ⟨k, hk, he⟩
    · exact h.format e he
    · exact ⟨key, k, hlen, hk, he⟩
  · by_cases hkey : key' = key
    · subst hkey
      rw [Function.update_self]
      exact hholds
    · have hmap : logChunkMap r t' key' = logChunkMap r t key' := by
        funext k
        rw [logChunkMap, logChunkMap]
        split_ifs with hk
        · rw [hsame.1 _ hkey k hk]
        · rfl
      rw [Function.update_of_ne hkey]
      refine ⟨hmap ▸ (h.holds key' hlen').unites, fun k hk v hv => ?_⟩
      rw [hsame.1 _ hkey k hk] at hv
      exact (h.holds key' hlen').readable k hk v hv

include hr

/-- The chunks into which a bitmap is cut make up the set of the key with those that stay. -/
theorem LogsIndexed.putLogChunks {key : Bytes} {p s' : Finset ℕ} (h : LogsIndexed r size t s)
    (hlen : key.length = size) (hne : p.Nonempty) (hp : ∀ x ∈ p, x ≤ kLastLogChunk)
    (hcutOff : CutOff kLastLogChunk s' p (logChunkMap r t key))
    (happend : append = true → AppendsLogs t key p) :
    ∃ t', Db.putLogChunks r append key p.card p t = some t' ∧
      LogsIndexed r size t' (Function.update s key s') ∧ SameLogsElsewhere key t t' := by
  obtain ⟨t', hrun⟩ := exists_putLogChunks hr le_rfl hp happend
  obtain ⟨hrecut, hsame, hreadable⟩ := recut_of_putLogChunks hr hne hp hrun
  have hholds : HoldsUnion r t' key s' :=
    ⟨hrecut.unites (h.holds key hlen).unites.bound hcutOff, hreadable (h.holds key hlen).readable⟩
  exact ⟨t', hrun, h.update hlen hholds hsame, hsame⟩

theorem exists_loadLogBitmap (h : LogsIndexed r size t s) {key : Bytes} (hlen : key.length = size)
    {bm : Finset ℕ} (hne : bm.Nonempty) (hbm : ∀ x ∈ bm, x ≤ kLastLogChunk)
    (hfits : FitsLogs r t (key, r.write bm))
    (happend : append = true → t.get (logChunkIndex key kLastLogChunk) = none →
      ∀ e ∈ t.entries, e.1 < logChunkIndex key 0) :
    ∃ t', loadLogBitmap r append t (key, r.write bm) = some t' ∧
      LogsIndexed r size t' (Function.update s key (s key ∪ bm)) ∧ SameLogsElsewhere key t t' := by
  have hread := hr.roundTrips bm hbm
  have hcutOff := (h.holds key hlen).unites.cutOff (hfits bm hread)
  rw [loadLogBitmap]
  dsimp only
  rw [hread, Option.bind_eq_bind, Option.bind_some]
  cases hlast : t.get (logChunkIndex key kLastLogChunk) with
  | some v =>
    obtain ⟨previous, hprevious, hmap⟩ := h.chunk hlen le_rfl hlast
    rw [hmap, Option.getD_some] at hcutOff
    dsimp only
    rw [hprevious, Option.bind_some]
    have hnumbers : ∀ x ∈ bm ∪ previous, x ≤ kLastLogChunk := by
      intro x hx
      exact (Finset.mem_union.mp hx).elim (hbm x) (hr.bounded hprevious x)
    exact h.putLogChunks hr hlen (hne.mono Finset.subset_union_left) hnumbers hcutOff nofun
  | none =>
    have hmap : logChunkMap r t key kLastLogChunk = none := by
      rw [logChunkMap, if_pos le_rfl, hlast, Option.bind_none]
    rw [hmap, Option.getD_none, Finset.union_empty] at hcutOff
    dsimp only
    refine h.putLogChunks hr hlen hne hbm hcutOff fun ha e he x hx m hxm hm => ?_
    exact lt_logChunkIndex (happend ha hlast e he) (Nat.zero_le m) hm

/-- What is collected of a part. -/
def logEntry (r : Roaring) (p : Bytes × Finset ℕ) : Entry := (p.1, r.write p.2)

/-- After the parts have been loaded in the order of their keys, the index holds the old sets and the
parts. -/
theorem exists_foldlM_loadLogBitmap {parts : List (Bytes × Finset ℕ)} (h : LogsIndexed r size t s)
    (hparts : ∀ p ∈ parts, p.1.length = size ∧ p.2.Nonempty ∧ ∀ x ∈ p.2, x ≤ kLastLogChunk)
    (hsorted : parts.Pairwise fun p q => ¬q.1 < p.1)
    (hfit : LoadsFitLogs r append t (parts.map (logEntry r)))
    (happend : append = true → ∀ e ∈ t.entries, ∀ p ∈ parts, ∃ key k, key.length = size ∧
      k ≤ kLastLogChunk ∧ e.1 = logChunkIndex key k ∧ ¬p.1 < key) :
    ∃ t' s', (parts.map (logEntry r)).foldlM (loadLogBitmap r append) t = some t' ∧
      LogsIndexed r size t' s' ∧ ∀ key x, x ∈ s' key ↔ x ∈ s key ∨ ∃ p ∈ parts, p.1 = key ∧ x ∈ p.2 := by
  induction parts generalizing t s with
  | nil => exact ⟨t, s, rfl, h, by simp⟩
  | cons p parts ih =>
    obtain ⟨⟨hlen, hne, hnumbers⟩, hparts⟩ := List.forall_mem_cons.mp hparts
    obtain ⟨hp, hsorted⟩ := List.pairwise_cons.mp hsorted
    have hbelow : append = true → t.get (logChunkIndex p.1 kLastLogChunk) = none →
        ∀ e ∈ t.entries, e.1 < logChunkIndex p.1 0 := by
      intro ha hnone e he
      obtain ⟨key, k, hkey, hk, hek, hnot⟩ := happend ha e he p List.mem_cons_self
      have hne : key ≠ p.1 := fun heq => h.ne_of_get_eq_none hlen hnone he hk (heq ▸ hek)
      have hlt : key < p.1 := by
        rcases SortedTables.lt_or_eq_or_gt key p.1 with hlt | heq | hgt
        · exact hlt
        · exact absurd heq hne
        · exact absurd hgt hnot
      rw [hek, logChunkIndex, logChunkIndex]
      exact append_lt_append_of_lt hlt (hkey.trans hlen.symm) _ _
    obtain ⟨t', hload, hindexed, hsame⟩ :=
      exists_loadLogBitmap hr h hlen hne hnumbers hfit.1 hbelow
    have happend' : append = true → ∀ e ∈ t'.entries, ∀ q ∈ parts, ∃ key k, key.length = size ∧
        k ≤ kLastLogChunk ∧ e.1 = logChunkIndex key k ∧ ¬q.1 < key := by
      intro ha e he q hq
      rcases hsame.2 e he with he | ⟨k, hk, hek⟩
      · exact happend ha e he q (List.mem_cons_of_mem _ hq)
      · exact ⟨p.1, k, hlen, hk, hek, hp q hq⟩
    obtain ⟨t'', s'', hrun, hindexed', hmem⟩ :=
      ih hindexed hparts hsorted (hfit.2 t' hload) happend'
    refine ⟨t'', s'', ?_, hindexed', fun key x => ?_⟩
    · rw [List.map_cons, List.foldlM_cons, logEntry, hload]
      exact hrun
    · rw [hmem, List.exists_mem_cons_iff]
      by_cases hkey : key = p.1
      · subst hkey
        rw [Function.update_self, Finset.mem_union, or_assoc, eq_self_iff_true, true_and]
      · have hno : ¬(p.1 = key ∧ x ∈ p.2) := fun h => hkey h.1.symm
        rw [Function.update_of_ne hkey, or_iff_right hno]

end Loads

end Silkworm.Db
