import Silkworm.ExecutedBatches
import Silkworm.HistoryLoads

/-!
# The history of accounts

The index of accounts is built in any number of runs between batches of blocks. As long as every
part of a set fits into the index, the chunks of an address make up the set of the blocks that
changed it, and an account is read as it was at the beginning of a block.
-/

namespace Silkworm.Db
open BigEndian SortedTables Etl ChunkedSets MemoryBuffer

/-- A block changed an account. -/
def HasChange (changes : List Entry) (a : Address) (blockNumber : ℕ) : Prop :=
  ∃ (n : Uint64) (bytes : Bytes), (blockKey n, a.val ++ bytes) ∈ changes ∧ blockNumber = n.toNat

/-- The entries of a change set of accounts. -/
def AccountChanges (changes : List Entry) : Prop :=
  ∀ e ∈ changes, ∃ (n : Uint64) (a : Address) (bytes : Bytes), e = (blockKey n, a.val ++ bytes)

/-- The changes that have been read are in the buffer or among the parts that were collected. -/
structure Extracted (r : Roaring) (changes : List Entry) (parts : List (Address × Finset ℕ))
    (x : Extraction) : Prop where
  collected : x.collected = parts.map (partEntry r)
  parts_sound : ∀ p ∈ parts, p.2.Nonempty ∧ ∀ m ∈ p.2, HasChange changes p.1 m
  bitmaps_sound : ∀ key s, x.bitmaps.find key = some s →
    ∃ a : Address, key = a.val ∧ s.Nonempty ∧ ∀ m ∈ s, HasChange changes a m
  complete : ∀ a m, HasChange changes a m →
    (∃ s, x.bitmaps.find a.val = some s ∧ m ∈ s) ∨ ∃ p ∈ parts, p.1 = a ∧ m ∈ p.2
  blockNumber : ∀ e, changes.getLast? = some e → x.blockNumber = ofBigEndian e.1

section Extraction

variable {r : Roaring} {changes : List Entry} {parts : List (Address × Finset ℕ)} {x : Extraction}

theorem extracted_nil : Extracted r [] [] {} where
  collected := rfl
  parts_sound p hp := by cases hp
  bitmaps_sound key s h := by cases h
  complete a m h := by
    obtain ⟨n, bytes, hm, -⟩ := h
    cases hm
  blockNumber e h := by cases h

theorem HasChange.append {a : Address} {m : ℕ} (h : HasChange changes a m) (l : List Entry) :
    HasChange (changes ++ l) a m := by
  obtain ⟨n, bytes, hm, heq⟩ := h
  exact ⟨n, bytes, List.mem_append_left _ hm, heq⟩

/-- The buffer goes to the collector. -/
theorem Extracted.collect (h : Extracted r changes parts x) :
    ∃ parts', Extracted r changes parts' (x.collect r) ∧ (x.collect r).bitmaps = ∅ := by
  have hentries : ∀ e ∈ x.bitmaps.toList.map fun e => ((e.1, r.write e.2) : Entry),
      ∃ p : Address × Finset ℕ, x.bitmaps.find p.1.val = some p.2 ∧ e = partEntry r p := by
    intro e he
    obtain ⟨⟨key, s⟩, hm, rfl⟩ := List.mem_map.mp he
    have hfind := HashMap.mem_toList.mp hm
    obtain ⟨a, rfl, -⟩ := h.bitmaps_sound key s hfind
    exact ⟨(a, s), hfind, rfl⟩
  obtain ⟨parts', hparts', hfind⟩ := exists_eq_map hentries
  refine ⟨parts ++ parts', ⟨?_, fun p hp => ?_, fun key s hf => ?_, fun a m hc => .inr ?_,
    h.blockNumber⟩, rfl⟩
  · rw [Extraction.collect, h.collected, hparts', List.map_append]
  · rcases List.mem_append.mp hp with hp | hp
    · exact h.parts_sound p hp
    · obtain ⟨a, ha, hne, hs⟩ := h.bitmaps_sound _ _ (hfind p hp)
      cases Subtype.ext ha
      exact ⟨hne, hs⟩
  · cases hf
  · rcases h.complete a m hc with ⟨s, hf, hms⟩ | ⟨p, hp, ha, hms⟩
    · have hm : ((a.val, r.write s) : Entry) ∈ parts'.map (partEntry r) := by
        rw [← hparts']
        exact List.mem_map.mpr ⟨(a.val, s), HashMap.mem_toList.mpr hf, rfl⟩
      obtain ⟨p, hp, hpe⟩ := List.mem_map.mp hm
      have ha : p.1 = a := Subtype.ext (Prod.mk.inj hpe).1
      have hps := hfind p hp
      rw [ha, hf] at hps
      exact ⟨p, List.mem_append_right _ hp, ha, Option.some.inj hps ▸ hms⟩
    · exact ⟨p, List.mem_append_left _ hp, ha, hms⟩

theorem Extracted.extractChange (h : Extracted r changes parts x) (overflows : Extraction → Bool)
    (n : Uint64) (a : Address) (bytes : Bytes) :
    ∃ x' parts', extractChange r false overflows x (blockKey n, a.val ++ bytes) = some x' ∧
      Extracted r (changes ++ [(blockKey n, a.val ++ bytes)]) parts' x' := by
  have hlen : (blockKey n).length = 8 := length_bigU64 n
  have hkey : compositeKey false (blockKey n, a.val ++ bytes) = some a.val := by
    have hle : ¬(a.val ++ bytes).length < kAddressLength := by
      rw [List.length_append, a.property]
      omega
    rw [compositeKey, if_neg (by simp), if_neg hle, List.take_left' a.property]
  have hnumber : ofBigEndian ((blockKey n).take 8) = n.toNat := by
    rw [List.take_of_length_le hlen.le, blockKey, bigU64, ofBigEndian_fixedBigEndian]
  have hnew : HasChange (changes ++ [(blockKey n, a.val ++ bytes)]) a n.toNat :=
    ⟨n, bytes, List.mem_append_right _ (List.mem_singleton_self _), rfl⟩
  have hadded : Extracted r (changes ++ [(blockKey n, a.val ++ bytes)]) parts
      { x with
        bitmaps := x.bitmaps.set a.val (insert n.toNat (x.bitmaps.findD a.val ∅))
        allocatedSpace := x.allocatedSpace + 8
        blockNumber := n.toNat } := by
    refine ⟨h.collected, fun p hp => ?_, fun key s hf => ?_, fun a' m hc => ?_, fun e he => ?_⟩
    · obtain ⟨hne, hs⟩ := h.parts_sound p hp
      exact ⟨hne, fun m hm => (hs m hm).append _⟩
    · dsimp only at hf
      rw [HashMap.find_set] at hf
      split_ifs at hf with hk
      · cases hf
        refine ⟨a, hk, Finset.insert_nonempty .., fun m hm => ?_⟩
        rcases Finset.mem_insert.mp hm with rfl | hm
        · exact hnew
        · rw [HashMap.findD] at hm
          cases hfa : x.bitmaps.find a.val with
          | none =>
            rw [hfa] at hm
            simp at hm
          | some s =>
            rw [hfa] at hm
            obtain ⟨a', ha', -, hs⟩ := h.bitmaps_sound _ _ hfa
            cases Subtype.ext ha'
            exact (hs m hm).append _
      · obtain ⟨a', ha', hne, hs⟩ := h.bitmaps_sound key s hf
        exact ⟨a', ha', hne, fun m hm => (hs m hm).append _⟩
    · dsimp only
      rw [HashMap.find_set]
      obtain ⟨n', bytes', hm, rfl⟩ := hc
      rcases List.mem_append.mp hm with hm | hm
      · rcases h.complete a' n'.toNat ⟨n', bytes', hm, rfl⟩ with ⟨s, hf, hms⟩ | hp
        · left
          split_ifs with hk
          · refine ⟨_, rfl, Finset.mem_insert_of_mem ?_⟩
            rw [HashMap.findD, ← hk, hf]
            exact hms
          · exact ⟨s, hf, hms⟩
        · exact .inr hp
      · left
        obtain ⟨hn, ha⟩ := Prod.mk.inj (List.mem_singleton.mp hm)
        obtain ⟨ha, -⟩ := List.append_inj ha (a'.property.trans a.property.symm)
        cases bigU64_injective hn
        rw [if_pos ha]
        exact ⟨_, rfl, Finset.mem_insert_self ..⟩
    · rw [List.getLast?_concat] at he
      cases he
      dsimp only
      rw [blockKey, bigU64, ofBigEndian_fixedBigEndian]
  rw [Db.extractChange, hkey, Option.bind_eq_bind, Option.bind_some]
  dsimp only
  rw [if_neg (by rw [hlen]; omega), hnumber]
  split_ifs
  · obtain ⟨parts', hcollected, -⟩ := hadded.collect
    exact ⟨_, parts', rfl, hcollected⟩
  · exact ⟨_, parts, rfl, hadded⟩

theorem Extracted.foldlM (h : Extracted r changes parts x) (overflows : Extraction → Bool)
    {l : List Entry} (hl : AccountChanges l) :
    ∃ x' parts', l.foldlM (Db.extractChange r false overflows) x = some x' ∧
      Extracted r (changes ++ l) parts' x' := by
  induction l generalizing changes parts x with
  | nil => exact ⟨x, parts, rfl, by rwa [List.append_nil]⟩
  | cons e l ih =>
    obtain ⟨⟨n, a, bytes, rfl⟩, hrest⟩ := List.forall_mem_cons.mp hl
    obtain ⟨x', parts', hstep, h'⟩ := h.extractChange overflows n a bytes
    obtain ⟨x'', parts'', hrun, h''⟩ := ih h' hrest
    refine ⟨x'', parts'', ?_, ?_⟩
    · rw [List.foldlM_cons, hstep]
      exact hrun
    · rwa [List.append_assoc] at h''

/-- The changes are spread over the parts that are collected. -/
theorem exists_extract (r : Roaring) (overflows : Extraction → Bool) {l : List Entry}
    (hl : AccountChanges l) :
    ∃ (x : Extraction) (parts : List (Address × Finset ℕ)),
      extract r false overflows l = some x ∧ x.collected = parts.map (partEntry r) ∧
      (∀ p ∈ parts, p.2.Nonempty ∧ ∀ m ∈ p.2, HasChange l p.1 m) ∧
      (∀ a m, HasChange l a m → ∃ p ∈ parts, p.1 = a ∧ m ∈ p.2) ∧
      ∀ e, l.getLast? = some e → x.blockNumber = ofBigEndian e.1 := by
  obtain ⟨x, parts, hrun, h⟩ := (extracted_nil (r := r)).foldlM overflows hl
  obtain ⟨parts', h', hempty⟩ := h.collect
  refine ⟨x.collect r, parts', ?_, h'.collected, h'.parts_sound, fun a m hc => ?_, h'.blockNumber⟩
  · rw [extract, hrun]
    rfl
  · rcases h'.complete a m hc with ⟨s, hf, -⟩ | hp
    · rw [hempty] at hf
      cases hf
    · exact hp

end Extraction

/-- The index holds changes, and all of those before the last block that was processed. -/
structure HistoryHolds (r : Roaring) (changes : List Entry) (h : History) (s : Address → Finset ℕ) :
    Prop where
  indexed : Indexed r h.index s
  sound : ∀ a, ∀ m ∈ s a, HasChange changes a m
  complete : ∀ a m, HasChange changes a m → m < h.progress → m ∈ s a

/-- Where a run of the stage starts. -/
def startOf (full : Bool) (h : History) : History := if full then {} else h

/-- A run that loads what it has collected. -/
theorem historyIndex_eq_some {r : Roaring} {storage full : Bool} {overflows : Extraction → Bool}
    {changeset : Table} {h : History} {x : Extraction} {index : PlainTable}
    (hextract : extract r storage overflows (changeset.entries.dropWhile fun e =>
      e.1 < bigU64 (BitVec.ofNat 64 (startOf full h).progress)) = some x)
    (hne : x.collected ≠ [])
    (hload : (sortedEntries x.collected).foldlM (loadBitmap r ((startOf full h).progress = 0))
      (startOf full h).index = some index) :
    historyIndex r storage full overflows changeset h = some ⟨index, x.blockNumber⟩ := by
  rw [startOf] at hextract hload
  rw [historyIndex, hextract, Option.bind_eq_bind, Option.bind_some, if_neg hne, hload]
  rfl

/-- In a run of the stage every part fits. -/
def RunFits (r : Roaring) (full : Bool) (overflows : Extraction → Bool) (changeset : Table)
    (h : History) : Prop :=
  ∀ x, extract r false overflows (changeset.entries.dropWhile fun e =>
    e.1 < bigU64 (BitVec.ofNat 64 (startOf full h).progress)) = some x →
    LoadsFit r ((startOf full h).progress = 0) (startOf full h).index (sortedEntries x.collected)

section Stage

theorem indexed_empty (r : Roaring) : Indexed r {} fun _ => ∅ := by
  have hmap (key : Bytes) : chunkMap r {} key = fun _ => none := by
    funext k
    rw [chunkMap]
    split_ifs <;> rfl
  refine ⟨fun e he => absurd he List.not_mem_nil, fun a => ⟨?_, fun k _ v hv => ?_⟩⟩
  · rw [hmap]
    exact chunks_empty
  · cases hv

theorem le_of_getLast? {changeset : Table} {e e' : Entry}
    (hlast : changeset.entries.getLast? = some e) (he' : e' ∈ changeset.entries) : ¬e.1 < e'.1 := by
  obtain ⟨l, hl⟩ := List.getLast?_eq_some_iff.mp hlast
  have hsorted := changeset.sorted
  rw [hl] at hsorted he'
  rcases List.mem_append.mp he' with he' | he'
  · have hbefore := (List.pairwise_append.mp hsorted).2.2 e' he' e (List.mem_singleton_self _)
    intro hlt
    rcases hbefore.trans (.inl hlt) with h | ⟨-, h⟩ <;> exact List.lt_irrefl _ h
  · cases List.mem_singleton.mp he'
    exact List.lt_irrefl _

variable {r : Roaring} (hcut : CutsLeft r.cutLeft) {numbers : Set ℕ} (hround : r.RoundTrips numbers)
  (hnum : ∀ x ∈ numbers, x ≤ kLastChunk)

include hcut hround hnum

/-- After a run of the stage the index holds all changes. -/
theorem exists_historyIndex {changeset : Table} (hformat : AccountChanges changeset.entries)
    (hchanges : ∀ a m, HasChange changeset.entries a m → m ∈ numbers) {h : History}
    {s : Address → Finset ℕ} (hholds : HistoryHolds r changeset.entries h s)
    (hprogress : h.progress ≤ kLastChunk) {full : Bool} {overflows : Extraction → Bool}
    (hfits : RunFits r full overflows changeset h) :
    ∃ h' s', historyIndex r false full overflows changeset h = some h' ∧
      Indexed r h'.index s' ∧ (∀ a m, m ∈ s' a ↔ HasChange changeset.entries a m) ∧
      (h'.progress = h.progress ∨ ∃ a, HasChange changeset.entries a h'.progress) ∧
      ∀ a m, HasChange changeset.entries a m → m ≤ h'.progress := by
  -- the run starts with an index that holds the changes before its progress
  obtain ⟨s₀, hstart, hstart_le⟩ : ∃ s₀, HistoryHolds r changeset.entries (startOf full h) s₀ ∧
      (startOf full h).progress ≤ kLastChunk := by
    cases full with
    | false => exact ⟨s, hholds, hprogress⟩
    | true =>
      exact ⟨fun _ => ∅, ⟨indexed_empty r, fun a m hm => absurd hm (Finset.notMem_empty m),
        fun a m _ hm => absurd hm (Nat.not_lt_zero m)⟩, Nat.zero_le _⟩
  generalize hl : (changeset.entries.dropWhile fun e =>
    e.1 < bigU64 (BitVec.ofNat 64 (startOf full h).progress)) = l at *
  have hsub : ∀ e ∈ l, e ∈ changeset.entries := fun e he => by
    rw [← hl] at he
    exact List.dropWhile_subset _ he
  have hnew : ∀ a m, HasChange changeset.entries a m → (startOf full h).progress ≤ m →
      HasChange l a m := by
    rintro a _ ⟨n, bytes, hm, rfl⟩ hle
    refine ⟨n, bytes, ?_, rfl⟩
    rw [← hl]
    refine mem_dropWhile_of_not hm ?_
    rw [decide_eq_true_eq, blockKey, bigU64_lt_iff, toNat_ofNat_chunk hstart_le]
    omega
  obtain ⟨x, parts, hextract, hcollected, hsound, hcomplete, hblock⟩ :=
    exists_extract r overflows fun e he => hformat e (hsub e he)
  have hold : ∀ a m, HasChange l a m → HasChange changeset.entries a m := by
    rintro a m ⟨n, bytes, hm, rfl⟩
    exact ⟨n, bytes, hsub _ hm, rfl⟩
  have hrun := hfits
  rw [RunFits, hl] at hrun
  by_cases hnone : x.collected = []
  · -- there is nothing to load
    have hparts : parts = [] := by
      rw [hcollected] at hnone
      exact List.map_eq_nil_iff.mp hnone
    have hbelow : ∀ a m, HasChange changeset.entries a m → m < (startOf full h).progress := by
      intro a m hm
      by_contra hle
      obtain ⟨p, hp, -⟩ := hcomplete a m (hnew a m hm (not_lt.mp hle))
      rw [hparts] at hp
      cases hp
    have hrest : historyIndex r false full overflows changeset h = some h := by
      rw [startOf] at hl
      rw [historyIndex, hl, hextract, Option.bind_eq_bind, Option.bind_some, if_pos hnone]
    have hlt : ∀ a m, HasChange changeset.entries a m → m < h.progress := by
      intro a m hm
      have := hbelow a m hm
      cases full with
      | false => exact this
      | true => exact absurd this (Nat.not_lt_zero m)
    exact ⟨h, s, hrest, hholds.indexed, fun a m => ⟨hholds.sound a m, fun hm =>
      hholds.complete a m hm (hlt a m hm)⟩, .inl rfl, fun a m hm => (hlt a m hm).le⟩
  · have hentries : ∀ e ∈ sortedEntries x.collected, ∃ p, p ∈ parts ∧ e = partEntry r p := by
      intro e he
      rw [(sortedEntries_perm _).mem_iff, hcollected] at he
      obtain ⟨p, hp, rfl⟩ := List.mem_map.mp he
      exact ⟨p, hp, rfl⟩
    obtain ⟨sorted, hsorted, hmem⟩ := exists_eq_map hentries
    have hmem' : ∀ p ∈ parts, p ∈ sorted := by
      intro p hp
      have hin : partEntry r p ∈ sortedEntries x.collected := by
        rw [(sortedEntries_perm _).mem_iff, hcollected]
        exact List.mem_map_of_mem hp
      rw [hsorted] at hin
      obtain ⟨q, hq, heq⟩ := List.mem_map.mp hin
      have hread {p : Address × Finset ℕ} (hp : p ∈ parts) : r.readSafe (r.write p.2) = some p.2 :=
        hround p.2 fun m hm => hchanges p.1 m (hold _ _ ((hsound p hp).2 m hm))
      obtain ⟨ha, hw⟩ := Prod.mk.inj heq
      have hset : q.2 = p.2 := by
        have := hread (hmem q hq)
        rw [hw, hread hp] at this
        exact (Option.some.inj this).symm
      have hqp : q = p := Prod.ext (Subtype.ext ha) hset
      rwa [hqp] at hq
    have hfit := hrun x hextract
    rw [hsorted] at hfit
    obtain ⟨t', s', hload, hindexed, hs'⟩ := exists_loadBitmaps hcut hround hnum hstart.indexed
      (fun a m hm => hchanges a m (hstart.sound a m hm))
      (fun p hp => ⟨(hsound p (hmem p hp)).1, fun m hm =>
        hchanges p.1 m (hold _ _ ((hsound p (hmem p hp)).2 m hm))⟩) hfit
    obtain ⟨e, hlast⟩ : ∃ e, l.getLast? = some e := by
      obtain ⟨p, hp⟩ : ∃ p, p ∈ parts := by
        apply List.exists_mem_of_ne_nil
        rintro rfl
        exact hnone hcollected
      obtain ⟨⟨m, hm⟩, hchange⟩ := hsound p hp
      obtain ⟨n, bytes, hin, -⟩ := hchange m hm
      exact ⟨_, List.getLast?_eq_some_getLast (List.ne_nil_of_mem hin)⟩
    obtain ⟨n, a, bytes, rfl⟩ := hformat e (hsub e (List.mem_of_getLast? hlast))
    have hprogress' : x.blockNumber = n.toNat := by
      rw [hblock _ hlast, blockKey, bigU64, ofBigEndian_fixedBigEndian]
    refine ⟨⟨t', x.blockNumber⟩, s', ?_, hindexed, fun a m => ?_,
      .inr ⟨a, n, bytes, hsub _ (List.mem_of_getLast? hlast), hprogress'⟩, fun a' m hm => ?_⟩
    · rw [← hsorted] at hload
      rw [← hl] at hextract
      exact historyIndex_eq_some hextract hnone hload
    · rw [hs']
      constructor
      · rintro (hm | ⟨p, hp, rfl, hm⟩)
        · exact hstart.sound a m hm
        · exact hold p.1 m ((hsound p (hmem p hp)).2 m hm)
      · intro hm
        by_cases hbefore : m < (startOf full h).progress
        · exact .inl (hstart.complete a m hm hbefore)
        · obtain ⟨p, hp, ha, hmp⟩ := hcomplete a m (hnew a m hm (not_lt.mp hbefore))
          exact .inr ⟨p, hmem' p hp, ha, hmp⟩
    · -- the last change that is read is the last one there is
      obtain ⟨n', bytes', hin, rfl⟩ := hm
      have hwhole : changeset.entries.getLast? = some (blockKey n, a.val ++ bytes) := by
        obtain ⟨before, hbefore⟩ := List.dropWhile_suffix (l := changeset.entries) fun e =>
          decide (e.1 < bigU64 (BitVec.ofNat 64 (startOf full h).progress))
        rw [← hbefore, hl, List.getLast?_append, hlast]
        rfl
      have := le_of_getLast? hwhole hin
      rw [blockKey, blockKey, bigU64_lt_iff] at this
      exact (not_lt.mp this).trans_eq hprogress'.symm

omit hcut hround hnum in
theorem not_lt_of_mem_dropWhile {l : List Entry} (hl : l.Pairwise Before) {key : Bytes} {e : Entry}
    (he : e ∈ l.dropWhile fun e => e.1 < key) : ¬e.1 < key := by
  induction l with
  | nil => cases he
  | cons x l ih =>
    obtain ⟨hx, hl⟩ := List.pairwise_cons.mp hl
    rw [List.dropWhile_cons] at he
    split_ifs at he with hbelow
    · exact ih hl he
    · rw [decide_eq_true_eq] at hbelow
      rcases List.mem_cons.mp he with rfl | he
      · exact hbelow
      · intro hlt
        rcases hx e he with h | ⟨heq, -⟩
        · exact hbelow (List.lt_trans h hlt)
        · exact hbelow (heq ▸ hlt)

omit hcut hround hnum in
theorem collected_foldlM {l : List Entry} {x x' : Extraction}
    (h : l.foldlM (extractChange r false fun _ => false) x = some x') :
    x'.collected = x.collected := by
  induction l generalizing x with
  | nil =>
    cases h
    rfl
  | cons e l ih =>
    rw [List.foldlM_cons] at h
    obtain ⟨x₁, hstep, hrun⟩ := Option.bind_eq_some_iff.mp h
    rw [ih hrun]
    obtain ⟨key, -, hstep⟩ := Option.bind_eq_some_iff.mp hstep
    dsimp only at hstep
    split_ifs at hstep with hlen hfull
    · exact hfull.elim
    · cases hstep
      rfl

/-- As long as the buffer of bitmaps does not overflow, everything fits. A run from the beginning
needs an index that is empty. -/
theorem runFits_of_no_overflow {changeset : Table} (hformat : AccountChanges changeset.entries)
    (hchanges : ∀ a m, HasChange changeset.entries a m → m ∈ numbers) {h : History} {full : Bool}
    {s : Address → Finset ℕ} (hindexed : Indexed r (startOf full h).index s)
    (hs : ∀ a, ∀ m ∈ s a, m ∈ numbers ∧ m ≤ (startOf full h).progress)
    (hprogress : (startOf full h).progress ≤ kLastChunk)
    (hzero : (startOf full h).progress = 0 → (startOf full h).index.entries = []) :
    RunFits r full (fun _ => false) changeset h := by
  intro x hx
  generalize hl : (changeset.entries.dropWhile fun e =>
    e.1 < bigU64 (BitVec.ofNat 64 (startOf full h).progress)) = l at hx
  have hlater : ∀ e ∈ l, e ∈ changeset.entries ∧
      ¬e.1 < bigU64 (BitVec.ofNat 64 (startOf full h).progress) := by
    intro e he
    rw [← hl] at he
    exact ⟨List.dropWhile_subset _ he, not_lt_of_mem_dropWhile changeset.sorted he⟩
  have hchange : ∀ a m, HasChange l a m → m ∈ numbers ∧ (startOf full h).progress ≤ m := by
    rintro a _ ⟨n, bytes, hm, rfl⟩
    obtain ⟨hmem, hnot⟩ := hlater _ hm
    rw [blockKey, bigU64_lt_iff, toNat_ofNat_chunk hprogress] at hnot
    exact ⟨hchanges a _ ⟨n, bytes, hmem, rfl⟩, not_lt.mp hnot⟩
  obtain ⟨x', parts, hrun, hextracted⟩ := (extracted_nil (r := r)).foldlM (fun _ => false)
    fun e he => hformat e (hlater e he).1
  rw [extract, hrun] at hx
  cases hx
  have hcollected : (x'.collect r).collected = x'.bitmaps.toList.map fun e => (e.1, r.write e.2) := by
    rw [Extraction.collect, collected_foldlM hrun]
    rfl
  have hentries : ∀ e ∈ sortedEntries (x'.collect r).collected,
      ∃ p : Address × Finset ℕ, x'.bitmaps.find p.1.val = some p.2 ∧ e = partEntry r p := by
    intro e he
    rw [(sortedEntries_perm _).mem_iff, hcollected] at he
    obtain ⟨⟨key, set⟩, hm, rfl⟩ := List.mem_map.mp he
    have hfind := HashMap.mem_toList.mp hm
    obtain ⟨a, rfl, -⟩ := hextracted.bitmaps_sound key set hfind
    exact ⟨(a, set), hfind, rfl⟩
  -- every address has one part
  have hdistinct : (sortedEntries (x'.collect r).collected).Pairwise fun e e' => e.1 ≠ e'.1 := by
    rw [← List.pairwise_map (f := Prod.fst)]
    refine ((sortedEntries_perm _).map Prod.fst).nodup_iff.mpr ?_
    rw [hcollected, List.map_map]
    exact x'.bitmaps.keys_toList_nodup
  have hsorted : (sortedEntries (x'.collect r).collected).Pairwise fun e e' => e.1 < e'.1 := by
    refine (hdistinct.and (sortedEntries_pairwise _)).imp fun {e e'} hee => ?_
    rcases SortedTables.lt_or_eq_or_gt e.1 e'.1 with hlt | heq | hgt
    · exact hlt
    · exact absurd heq hee.1
    · exact absurd (.inl hgt) hee.2
  obtain ⟨sorted, hparts, hfind⟩ := exists_eq_map hentries
  rw [hparts] at hsorted ⊢
  refine loadsFit_of_sorted hcut hround hnum hindexed (fun a m hm => (hs a m hm).1)
    (fun p hp => ?_) ?_ fun ha e he => ?_
  · obtain ⟨a, ha, hne, hset⟩ := hextracted.bitmaps_sound _ _ (hfind p hp)
    cases Subtype.ext ha
    exact ⟨hne, fun m hm => (hchange _ m (hset m hm)).1, fun m hm y hy =>
      (hs _ y hy).2.trans (hchange _ m (hset m hm)).2⟩
  · rw [List.pairwise_map] at hsorted
    exact hsorted
  · rw [hzero (of_decide_eq_true ha)] at he
    cases he

end Stage

end Silkworm.Db
