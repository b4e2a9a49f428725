import Silkworm.SenderUnwinding

/-!
# Ranges of canonical headers

The scan for the headers of a range starts at its first height and ends with the table, although the
last height is known. It finds the hashes of the range exactly if nothing is stored above it.
-/

namespace Silkworm.Senders
open BigEndian Db SortedTables

inductive HeadersError where
  | headerNotFound | badHeaderSequence | badHeaderHash
  deriving DecidableEq

/-- A table with heights as keys and one value to a key. -/
structure HashesTable extends Table where
  keys : ∀ e ∈ entries, ∃ number : Uint64, e.1 = blockKey number
  unique : ∀ e ∈ entries, ∀ e' ∈ entries, e.1 = e'.1 → e = e'

/-- The loop over the rows from the cursor on. -/
def scanHeaders (heightTo expected reached : Uint64) (headers : List Bytes32) :
    List Entry → Except HeadersError (List Bytes32)
  | [] => if reached ≠ heightTo then .error .headerNotFound else .ok headers
  | e :: rows =>
    let reached := BitVec.ofNat 64 (blockNumber e)
    if reached ≠ expected then .error .badHeaderSequence
    else if h : e.2.length = kHashLength then
      scanHeaders heightTo (expected + 1) reached (headers ++ [⟨e.2, h⟩]) rows
    else .error .badHeaderHash

namespace HashesTable

variable (t : HashesTable)

def fillCanonicalHeaders (heightFrom heightTo : Uint64) : Except HeadersError (List Bytes32) :=
  match t.seekExact (blockKey heightFrom) with
  | [] => .error .headerNotFound
  | e :: rows => scanHeaders heightTo heightFrom 0 [] (e :: rows)

/-- The hashes of a range in their order. -/
def Stores (heightFrom heightTo : Uint64) (hashes : List Bytes32) : Prop :=
  hashes.length = heightTo.toNat - heightFrom.toNat + 1 ∧
    ∀ (i : ℕ) (h : i < hashes.length),
      (blockKey (heightFrom + BitVec.ofNat 64 i), (hashes[i]).val) ∈ t.entries

/-- What loading a range is meant to do. -/
def Loads (heightFrom heightTo : Uint64) : Prop :=
  (∀ hashes, t.Stores heightFrom heightTo hashes →
    t.fillCanonicalHeaders heightFrom heightTo = .ok hashes) ∧
  ((¬∃ hashes, t.Stores heightFrom heightTo hashes) →
    ∃ e, t.fillCanonicalHeaders heightFrom heightTo = .error e)

end HashesTable

section Scans

/-- Rows of consecutive heights. -/
def consecutiveRows : Uint64 → List Bytes32 → List Entry
  | _, [] => []
  | number, hash :: hashes => (blockKey number, hash.val) :: consecutiveRows (number + 1) hashes

/-- The last height of consecutive rows. -/
def lastReached (reached : Uint64) : Uint64 → List Bytes32 → Uint64
  | _, [] => reached
  | number, _ :: hashes => lastReached number (number + 1) hashes

variable {e : Entry} {rows : List Entry} {number heightTo reached : Uint64}
  {headers hashes : List Bytes32}

theorem blockNumber_of_blockKey (h : e.1 = blockKey number) : blockNumber e = number.toNat := by
  rw [blockNumber, h, blockKey, List.take_of_length_le (length_bigU64 number).le, bigU64,
    ofBigEndian_fixedBigEndian]

theorem scanHeaders_eq_ok (hkeys : ∀ e ∈ rows, ∃ number : Uint64, e.1 = blockKey number) :
    scanHeaders heightTo number reached headers rows = .ok hashes ↔
      ∃ hs, hashes = headers ++ hs ∧ rows = consecutiveRows number hs ∧
        lastReached reached number hs = heightTo := by
  induction rows generalizing number reached headers with
  | nil =>
    rw [scanHeaders]
    constructor
    · intro h
      split_ifs at h with hreached
      cases h
      exact ⟨[], by simp, rfl, not_not.mp hreached⟩
    · rintro ⟨hs, rfl, hrows, hlast⟩
      cases hs with
      | nil =>
        have hreached : reached = heightTo := hlast
        rw [if_neg (not_not.mpr hreached), List.append_nil]
      | cons h hs => cases hrows
  | cons e rows ih =>
    obtain ⟨⟨n, hn⟩, hrest⟩ := List.forall_mem_cons.mp hkeys
    have hnumber : BitVec.ofNat 64 (blockNumber e) = n := by
      rw [blockNumber_of_blockKey hn, BitVec.ofNat_toNat, BitVec.setWidth_eq]
    rw [scanHeaders, hnumber]
    constructor
    · intro h
      split_ifs at h with hne hlen
      obtain ⟨hs, hhashes, hrows, hlast⟩ := (ih hrest).mp h
      obtain rfl : n = number := not_not.mp hne
      refine ⟨⟨e.2, hlen⟩ :: hs, ?_, ?_, hlast⟩
      · rw [hhashes, List.append_assoc, List.singleton_append]
      · rw [consecutiveRows, ← hrows, ← hn]
    · rintro ⟨hs, rfl, hrows, hlast⟩
      cases hs with
      | nil => cases hrows
      | cons h hs =>
        cases hrows
        obtain rfl : number = n := bigU64_injective hn
        rw [if_neg (not_not.mpr rfl), dif_pos h.property]
        refine (ih hrest).mpr ⟨hs, ?_, rfl, hlast⟩
        rw [List.append_assoc, List.singleton_append]

theorem add_one_add_ofNat (n : Uint64) (i : ℕ) :
    n + 1 + BitVec.ofNat 64 i = n + BitVec.ofNat 64 (i + 1) := by
  rw [BitVec.ofNat_add, BitVec.add_assoc, BitVec.add_comm 1]
  rfl

theorem mem_consecutiveRows : e ∈ consecutiveRows number hashes ↔
    ∃ i : ℕ, ∃ h : i < hashes.length,
      e = (blockKey (number + BitVec.ofNat 64 i), (hashes[i]).val) := by
  induction hashes generalizing number with
  | nil => simp [consecutiveRows]
  | cons hash hashes ih =>
    rw [consecutiveRows, List.mem_cons, ih]
    constructor
    · rintro (rfl | ⟨i, h, rfl⟩)
      · exact ⟨0, Nat.succ_pos _, by simp⟩
      · exact ⟨i + 1, Nat.succ_lt_succ h, by rw [add_one_add_ofNat, List.getElem_cons_succ]⟩
    · rintro ⟨i, h, rfl⟩
      cases i with
      | zero => exact .inl (by simp)
      | succ i => exact .inr ⟨i, Nat.lt_of_succ_lt_succ h, by rw [add_one_add_ofNat, List.getElem_cons_succ]⟩

theorem lastReached_eq (h : hashes ≠ []) :
    lastReached reached number hashes = number + BitVec.ofNat 64 (hashes.length - 1) := by
  induction hashes generalizing number reached with
  | nil => exact absurd rfl h
  | cons hash hashes ih =>
    rw [lastReached]
    cases hashes with
    | nil => simp [lastReached]
    | cons hash' hashes =>
      rw [ih (List.cons_ne_nil _ _)]
      simp only [List.length_cons, Nat.add_sub_cancel]
      exact add_one_add_ofNat number hashes.length

/-- Sorted consecutive rows do not wrap around. -/
theorem fits_of_pairwise (h : (consecutiveRows number hashes).Pairwise Before) :
    number.toNat + hashes.length ≤ 2 ^ 64 ∨ hashes = [] := by
  induction hashes generalizing number with
  | nil => exact .inr rfl
  | cons hash hashes ih =>
    obtain ⟨hhead, htail⟩ := List.pairwise_cons.mp h
    have hlt := number.isLt
    cases hashes with
    | nil => exact .inl (by simp only [List.length_singleton]; omega)
    | cons hash' hashes =>
      have hbefore : blockKey number < blockKey (number + 1) := by
        rcases hhead _ List.mem_cons_self with hk | ⟨hk, -⟩
        · exact hk
        · have hsame : number = number + 1 := bigU64_injective hk
          bv_omega
      have hsucc := bigU64_lt_iff.mp hbefore
      have hfits := (ih htail).resolve_right (List.cons_ne_nil _ _)
      refine .inl ?_
      rw [List.length_cons]
      have : (number + 1).toNat = number.toNat + 1 := by bv_omega
      omega

theorem pairwise_consecutiveRows (h : number.toNat + hashes.length ≤ 2 ^ 64) :
    (consecutiveRows number hashes).Pairwise Before := by
  induction hashes generalizing number with
  | nil => exact .nil
  | cons hash hashes ih =>
    rw [List.length_cons] at h
    cases hashes with
    | nil => exact List.pairwise_singleton _ _
    | cons hash' hashes =>
      have hsucc : (number + 1).toNat = number.toNat + 1 := by
        simp only [List.length_cons] at h
        bv_omega
      refine List.pairwise_cons.mpr ⟨fun e he => ?_, ih (by omega)⟩
      obtain ⟨i, hi, rfl⟩ := mem_consecutiveRows.mp he
      refine .inl (bigU64_lt_iff.mpr ?_)
      rw [BitVec.toNat_add, BitVec.toNat_ofNat, hsucc, Nat.mod_eq_of_lt (a := i) (by omega),
        Nat.mod_eq_of_lt (by omega)]
      omega

end Scans

namespace HashesTable

variable {t : HashesTable} {heightFrom heightTo number : Uint64} {hashes : List Bytes32}

/-- The rows from the cursor on, which stands at a key. -/
theorem mem_seekExact {t : Table} {key : Bytes} {e : Entry} (hkey : ∃ e ∈ t.entries, e.1 = key) :
    e ∈ t.seekExact key ↔ e ∈ t.entries ∧ ¬e.1 < key := by
  rw [Table.seekExact]
  obtain ⟨es, hsorted⟩ := t
  dsimp only at hkey ⊢
  induction es with
  | nil => simp
  | cons x es ih =>
    obtain ⟨hx, hes⟩ := List.pairwise_cons.mp hsorted
    obtain ⟨y, hy, hykey⟩ := hkey
    rw [List.dropWhile_cons]
    split_ifs with hne
    · have hne : x.1 ≠ key := of_decide_eq_true hne
      have hmem : y ∈ es := (List.mem_cons.mp hy).resolve_left fun h => hne (h ▸ hykey)
      have hlt : x.1 < key := by
        rcases hx y hmem with h | ⟨h, -⟩
        · exact hykey ▸ h
        · exact absurd (h.trans hykey) hne
      rw [ih hes ⟨y, hmem, hykey⟩, List.mem_cons]
      constructor
      · exact fun h => ⟨.inr h.1, h.2⟩
      · rintro ⟨rfl | h, hge⟩
        · exact absurd hlt hge
        · exact ⟨h, hge⟩
    · have heq : x.1 = key := by simpa using hne
      refine (and_iff_left_of_imp fun he => ?_).symm
      rcases List.mem_cons.mp he with rfl | he
      · exact heq ▸ List.lt_irrefl _
      · rcases hx e he with h | ⟨h, -⟩
        · exact heq ▸ List.lt_asymm h
        · exact h ▸ heq ▸ List.lt_irrefl _

theorem fillCanonicalHeaders_eq_ok : t.fillCanonicalHeaders heightFrom heightTo = .ok hashes ↔
    hashes ≠ [] ∧ t.seekExact (blockKey heightFrom) = consecutiveRows heightFrom hashes ∧
      lastReached 0 heightFrom hashes = heightTo := by
  have hkeys : ∀ e ∈ t.seekExact (blockKey heightFrom), ∃ number : Uint64, e.1 = blockKey number :=
    fun e he => t.keys e ((List.dropWhile_sublist _).subset he)
  rw [fillCanonicalHeaders]
  cases hrows : t.seekExact (blockKey heightFrom) with
  | nil =>
    refine iff_of_false nofun ?_
    rintro ⟨hne, hrows, -⟩
    cases hashes with
    | nil => exact hne rfl
    | cons hash hashes => cases hrows
  | cons e rows =>
    rw [hrows] at hkeys
    dsimp only
    rw [scanHeaders_eq_ok hkeys]
    constructor
    · rintro ⟨hs, rfl, hrows, hlast⟩
      refine ⟨?_, hrows, hlast⟩
      rintro rfl
      cases hrows
    · exact fun h => ⟨hashes, rfl, h.2.1, h.2.2⟩

/-- What is loaded is the range, and the end of the table. -/
theorem stores_of_ok (h : t.fillCanonicalHeaders heightFrom heightTo = .ok hashes) :
    t.Stores heightFrom heightTo hashes ∧ ∀ e ∈ t.entries, blockNumber e ≤ heightTo.toNat := by
  obtain ⟨hne, hrows, hlast⟩ := fillCanonicalHeaders_eq_ok.mp h
  have hsorted : (consecutiveRows heightFrom hashes).Pairwise Before :=
    hrows ▸ t.sorted.sublist (List.dropWhile_sublist _)
  have hfits := (fits_of_pairwise hsorted).resolve_right hne
  have hpos := List.length_pos_of_ne_nil hne
  have hlast : heightTo.toNat = heightFrom.toNat + (hashes.length - 1) := by
    rw [← hlast, lastReached_eq hne, BitVec.toNat_add, BitVec.toNat_ofNat]
    omega
  have hmem (e : Entry) (he : e ∈ consecutiveRows heightFrom hashes) : e ∈ t.entries :=
    (List.dropWhile_sublist _).subset (hrows ▸ he)
  refine ⟨⟨by omega, fun i hi => hmem _ (mem_consecutiveRows.mpr ⟨i, hi, rfl⟩)⟩, fun e he => ?_⟩
  have hfrom : ∃ e ∈ t.entries, e.1 = blockKey heightFrom :=
    ⟨_, hmem _ (mem_consecutiveRows.mpr ⟨0, hpos, rfl⟩), by simp⟩
  obtain ⟨number, hnumber⟩ := t.keys e he
  rw [blockNumber_of_blockKey hnumber]
  by_cases hlt : e.1 < blockKey heightFrom
  · rw [hnumber] at hlt
    have := bigU64_lt_iff.mp hlt
    omega
  · have hrow : e ∈ consecutiveRows heightFrom hashes :=
      hrows ▸ (mem_seekExact hfrom).mpr ⟨he, hlt⟩
    obtain ⟨i, hi, rfl⟩ := mem_consecutiveRows.mp hrow
    rw [← bigU64_injective hnumber, BitVec.toNat_add, BitVec.toNat_ofNat]
    omega

/-- A range at the end of the table is loaded. -/
theorem ok_of_stores (hle : heightFrom ≤ heightTo) (h : t.Stores heightFrom heightTo hashes)
    (hend : ∀ e ∈ t.entries, blockNumber e ≤ heightTo.toNat) :
    t.fillCanonicalHeaders heightFrom heightTo = .ok hashes := by
  obtain ⟨hlength, hmem⟩ := h
  have hle : heightFrom.toNat ≤ heightTo.toNat := hle
  have hlt := heightTo.isLt
  have hne : hashes ≠ [] := by
    rintro rfl
    rw [List.length_nil] at hlength
    omega
  have hpos := List.length_pos_of_ne_nil hne
  have hfrom : ∃ e ∈ t.entries, e.1 = blockKey heightFrom := ⟨_, hmem 0 hpos, by simp⟩
  have hlast : lastReached 0 heightFrom hashes = heightTo := by
    apply BitVec.eq_of_toNat_eq
    rw [lastReached_eq hne, BitVec.toNat_add, BitVec.toNat_ofNat]
    omega
  refine fillCanonicalHeaders_eq_ok.mpr ⟨hne, ?_, hlast⟩
  have hrows : (t.seekExact (blockKey heightFrom)).Pairwise Before :=
    t.sorted.sublist (List.dropWhile_sublist _)
  have hconsecutive : (consecutiveRows heightFrom hashes).Pairwise Before :=
    pairwise_consecutiveRows (by omega)
  suffices hext : (⟨_, hrows⟩ : Table) = ⟨_, hconsecutive⟩ from congrArg Table.entries hext
  refine Table.ext_of_mem fun e => ?_
  rw [mem_seekExact hfrom, mem_consecutiveRows]
  constructor
  · rintro ⟨he, hge⟩
    obtain ⟨number, hnumber⟩ := t.keys e he
    have hto := hend e he
    rw [blockNumber_of_blockKey hnumber] at hto
    have hfrom : heightFrom.toNat ≤ number.toNat := by
      rw [hnumber] at hge
      exact Nat.not_lt.mp fun h => hge (bigU64_lt_iff.mpr h)
    have hi : number.toNat - heightFrom.toNat < hashes.length := by omega
    refine ⟨number.toNat - heightFrom.toNat, hi, t.unique e he _ (hmem _ hi) ?_⟩
    have hsum : heightFrom + BitVec.ofNat 64 (number.toNat - heightFrom.toNat) = number := by
      apply BitVec.eq_of_toNat_eq
      rw [BitVec.toNat_add, BitVec.toNat_ofNat]
      omega
    rw [hnumber, hsum]
  · rintro ⟨i, hi, rfl⟩
    refine ⟨hmem i hi, fun hlt => ?_⟩
    have := bigU64_lt_iff.mp hlt
    rw [BitVec.toNat_add, BitVec.toNat_ofNat] at this
    omega

/-- A range is loaded, or refused if it is not complete, unless it is complete and something is
stored above it. -/
theorem fillCanonicalHeaders_exact (t : HashesTable) (hle : heightFrom ≤ heightTo) :
    t.Loads heightFrom heightTo ↔
      ((∃ hashes, t.Stores heightFrom heightTo hashes) →
        ∀ e ∈ t.entries, blockNumber e ≤ heightTo.toNat) := by
  constructor
  · rintro ⟨hok, -⟩ ⟨hashes, hstores⟩
    exact (stores_of_ok (hok hashes hstores)).2
  · intro hend
    refine ⟨fun hashes h => ok_of_stores hle h (hend ⟨hashes, h⟩), fun hnone => ?_⟩
    cases hfill : t.fillCanonicalHeaders heightFrom heightTo with
    | ok hashes => exact absurd ⟨hashes, (stores_of_ok hfill).1⟩ hnone
    | error e => exact ⟨e, rfl⟩

section Rows

/-- A canonical hash as it is stored. -/
def hashEntry (row : Uint64 × Bytes32) : Entry := (blockKey row.1, row.2.val)

def status : HeadersError → Status
  | .headerNotFound => .headerNotFound
  | .badHeaderSequence => .badHeaderSequence
  | .badHeaderHash => .badHeaderHash

theorem collectHeaders_eq (rows : List (Uint64 × Bytes32)) (expected reached : Uint64)
    (headers : List Bytes32) :
    collectHeaders heightTo expected reached headers rows =
      (scanHeaders heightTo expected reached headers (rows.map hashEntry)).mapError status := by
  induction rows generalizing expected reached headers with
  | nil =>
    rw [collectHeaders, List.map_nil, scanHeaders]
    split_ifs
    · rfl
    · rfl
  | cons row rows ih =>
    have hnumber : BitVec.ofNat 64 (blockNumber (hashEntry row)) = row.1 := by
      rw [blockNumber_of_blockKey rfl, BitVec.ofNat_toNat, BitVec.setWidth_eq]
    have hlength : (hashEntry row).2.length = kHashLength := row.2.prop
    rw [collectHeaders, List.map_cons, scanHeaders, hnumber]
    split_ifs
    · rfl
    · exact ih _ _ _

/-- The recovery of senders reads the rows of a table of whole hashes. -/
theorem fillCanonicalHeaders_eq {rows : List (Uint64 × Bytes32)}
    (h : t.entries = rows.map hashEntry) : Senders.fillCanonicalHeaders rows heightFrom heightTo =
      (t.fillCanonicalHeaders heightFrom heightTo).mapError status := by
  have hkey (row : Uint64 × Bytes32) : (hashEntry row).1 = blockKey heightFrom ↔ row.1 = heightFrom :=
    ⟨bigU64_injective, congrArg blockKey⟩
  have hseek : t.seekExact (blockKey heightFrom) =
      (rows.dropWhile fun row => row.1 ≠ heightFrom).map hashEntry := by
    rw [Table.seekExact, h, List.dropWhile_map]
    simp only [Function.comp_def, ne_eq, hkey]
  rw [Senders.fillCanonicalHeaders, fillCanonicalHeaders, hseek]
  cases hrows : rows.dropWhile fun row => row.1 ≠ heightFrom with
  | nil => rfl
  | cons row rows => exact collectHeaders_eq (row :: rows) _ _ _

end Rows

section Examples

private def twoHeaders : HashesTable where
  entries := [(blockKey 1, (default : Bytes32).val), (blockKey 2, (default : Bytes32).val)]
  sorted := by decide
  keys e he := by
    rcases List.mem_cons.mp he with rfl | he
    · exact ⟨1, rfl⟩
    · rw [List.mem_singleton.mp he]
      exact ⟨2, rfl⟩
  unique := by decide

theorem fillCanonicalHeaders_exact_twoHeaders :
    twoHeaders.fillCanonicalHeaders 1 2 = .ok [default, default] ∧
      (twoHeaders.Loads 1 2 ↔ ((∃ hashes, twoHeaders.Stores 1 2 hashes) →
        ∀ e ∈ twoHeaders.entries, blockNumber e ≤ (2 : Uint64).toNat)) :=
  ⟨by decide, twoHeaders.fillCanonicalHeaders_exact (by decide)⟩

/-- The header of block 2 is in the way of loading that of block 1. -/
theorem not_fillCanonicalHeaders_exact :
    twoHeaders.Stores 1 1 [default] ∧
      twoHeaders.fillCanonicalHeaders 1 1 = .error .headerNotFound ∧ ¬twoHeaders.Loads 1 1 := by
  have hstores : twoHeaders.Stores 1 1 [default] := by
    refine ⟨by decide, fun i hi => ?_⟩
    obtain rfl : i = 0 := Nat.lt_one_iff.mp hi
    exact List.mem_cons_self
  have hfill : twoHeaders.fillCanonicalHeaders 1 1 = .error .headerNotFound := by decide
  refine ⟨hstores, hfill, fun h => ?_⟩
  have hok := h.1 _ hstores
  rw [hfill] at hok
  cases hok

end Examples

end HashesTable

end Silkworm.Senders
