import Mathlib.Data.Finset.Max
import Mathlib.Order.Interval.Finset.Nat
import Mathlib.Tactic.Linarith

/-!
# Cutting bitmaps

The library of bitmaps is a parameter: its bitmaps are finite sets of numbers of 32 or 64 bits, with
a size that depends on how they are stored. The search for the cutting point starts with its bounds
exchanged, so that it never runs, and a bitmap above the limit loses its greatest number.
-/

namespace Silkworm.Db

/-- A bitmap of numbers of `w` bits, whose containers may be stored as runs. -/
structure RoaringBitmap (w : ℕ) where
  values : Finset ℕ
  runOptimized : Bool := false
  lt : ∀ x ∈ values, x < 2 ^ w

namespace RoaringBitmap

variable {w : ℕ}

def runOptimize (bm : RoaringBitmap w) : RoaringBitmap w := { bm with runOptimized := true }

/-- The intersection with a range. -/
def inter (bm : RoaringBitmap w) (range : Finset ℕ) : RoaringBitmap w where
  values := range ∩ bm.values
  lt x hx := bm.lt x (Finset.mem_of_mem_inter_right hx)

def removeRangeClosed (bm : RoaringBitmap w) (min max : ℕ) : RoaringBitmap w :=
  { bm with
    values := bm.values \ Finset.Icc min max
    lt := fun x hx => bm.lt x (Finset.sdiff_subset hx) }

def clear (w : ℕ) : RoaringBitmap w where
  values := ∅
  lt _ hx := absurd hx (Finset.notMem_empty _)

def remove (bm : RoaringBitmap w) (k : ℕ) : RoaringBitmap w :=
  { bm with
    values := bm.values.erase k
    lt := fun x hx => bm.lt x (Finset.mem_of_mem_erase hx) }

/-- The bitmap with one more number. -/
def add (bm : RoaringBitmap w) (k : ℕ) (hk : k < 2 ^ w) : RoaringBitmap w :=
  { bm with
    values := insert k bm.values
    lt := by
      intro x hx
      obtain rfl | hx := Finset.mem_insert.mp hx
      · exact hk
      · exact bm.lt x hx }

def singleton (k : ℕ) (hk : k < 2 ^ w) : RoaringBitmap w := (clear w).add k hk

end RoaringBitmap

/-- What the library does. `roaring_bitmap_from_range` returns no bitmap for an empty range. -/
structure RoaringApi (w : ℕ) where
  fromRange : ℕ → ℕ → Option (Finset ℕ)
  getSizeInBytes : RoaringBitmap w → ℕ

/-- The documentation of the library: a range is half open and made of numbers of 32 bits, the
size grows with the set, and runs are only used where they are shorter. -/
structure RoaringApi.Documented {w : ℕ} (api : RoaringApi w) : Prop where
  mem_fromRange : ∀ {min max : ℕ} {range : Finset ℕ}, api.fromRange min max = some range →
    ∀ x, x ∈ range ↔ min ≤ x ∧ x < max ∧ x < 2 ^ 32
  fromRange_isSome : ∀ {min max : ℕ}, min < max → min < 2 ^ 32 → (api.fromRange min max).isSome
  size_mono : ∀ {a b : RoaringBitmap w}, a.values ⊆ b.values → a.runOptimized = b.runOptimized →
    api.getSizeInBytes a ≤ api.getSizeInBytes b
  size_runOptimize : ∀ a, api.getSizeInBytes a.runOptimize ≤ api.getSizeInBytes a

section Cut

variable {w : ℕ} (api : RoaringApi w)

/-- `res &= bm` and `res.runOptimize()` for a range. -/
def cutRange (bm : RoaringBitmap w) (min max : ℕ) : Option (RoaringBitmap w) :=
  (api.fromRange min max).map fun range => (bm.inter range).runOptimize

/-- The search for the cutting point. -/
def searchCut (fits : ℕ → Option Bool) (i j : ℕ) : Option ℕ :=
  if i < j then
    let h := (i + j) / 2
    match fits i with
    | none => none
    | some true => searchCut fits (h + 1) j
    | some false => searchCut fits i h
  else some i
termination_by j - i

/-- The code of both overloads, which remove the numbers from `from` to `from + i` in ways of
their own. -/
def cutLeft (removeCut : RoaringBitmap w → ℕ → ℕ → Option (RoaringBitmap w))
    (bm : RoaringBitmap w) (hne : bm.values.Nonempty) (sizeLimit : ℕ) :
    Option (RoaringBitmap w × RoaringBitmap w) := do
  let minimum := bm.values.min' hne
  let maximum := bm.values.max' hne
  if api.getSizeInBytes bm ≤ sizeLimit then
    -- the upper bound has the width of the numbers
    let res ← cutRange api bm minimum ((maximum + 1) % 2 ^ w)
    some (res, RoaringBitmap.clear w)
  else
    let minMax := maximum - minimum
    let fits := fun i => (cutRange api bm minimum ((minimum + i + 1) % 2 ^ 64)).map fun bm =>
      decide (api.getSizeInBytes bm ≤ sizeLimit)
    let i ← searchCut fits minMax 0
    let res ← cutRange api bm minimum ((minimum + i) % 2 ^ 64)
    let rest ← removeCut bm minimum ((minimum + i) % 2 ^ 64)
    some (res, rest)

/-- `for (k = from; k <= from + i; k++)`, below the last number. -/
def removeUpTo (bm : RoaringBitmap w) (k last : ℕ) : RoaringBitmap w :=
  if k ≤ last then removeUpTo (bm.remove k) (k + 1) last else bm
termination_by last + 1 - k

end Cut

/-- Up to the greatest number of 64 bits the loop does not end. -/
def removeLoop (bm : RoaringBitmap 64) (first last : ℕ) : Option (RoaringBitmap 64) :=
  if last = 2 ^ 64 - 1 then none else some (removeUpTo bm first last)

def cutLeft64 (api : RoaringApi 64) := cutLeft api removeLoop

def cutLeft32 (api : RoaringApi 32) :=
  cutLeft api fun bm first last => some (bm.removeRangeClosed first last)

section Splits

variable {w : ℕ} (api : RoaringApi w) {bm : RoaringBitmap w} {hne : bm.values.Nonempty}

/-- The cut loses nothing, takes the lower part, and takes as much as fits if anything does. -/
structure SplitsLeft (bm : RoaringBitmap w) (hne : bm.values.Nonempty) (sizeLimit : ℕ)
    (res rest : RoaringBitmap w) : Prop where
  union : res.values ∪ rest.values = bm.values
  nonempty : res.values.Nonempty
  below : ∀ x ∈ res.values, ∀ y ∈ rest.values, x < y
  size : api.getSizeInBytes
      (RoaringBitmap.singleton _ (bm.lt _ (bm.values.min'_mem hne))).runOptimize ≤ sizeLimit →
    api.getSizeInBytes res ≤ sizeLimit ∧
      ∀ (y : ℕ) (hy : y ∈ rest.values), (∀ z ∈ rest.values, y ≤ z) →
        sizeLimit < api.getSizeInBytes (res.add y (rest.lt y hy)).runOptimize

def CutSplits (cut : Option (RoaringBitmap w × RoaringBitmap w)) (bm : RoaringBitmap w)
    (hne : bm.values.Nonempty) (sizeLimit : ℕ) : Prop :=
  ∃ res rest, cut = some (res, rest) ∧ SplitsLeft api bm hne sizeLimit res rest

/-- The search ends where it starts. -/
theorem searchCut_zero (fits : ℕ → Option Bool) (i : ℕ) : searchCut fits i 0 = some i := by
  rw [searchCut, if_neg (Nat.not_lt_zero i)]

variable {api} {removeCut : RoaringBitmap w → ℕ → ℕ → Option (RoaringBitmap w)} {sizeLimit : ℕ}

/-- The result of a cut below the limit. -/
theorem cutLeft_of_le (h : api.getSizeInBytes bm ≤ sizeLimit) :
    cutLeft api removeCut bm hne sizeLimit =
      (cutRange api bm (bm.values.min' hne) ((bm.values.max' hne + 1) % 2 ^ w)).map fun res =>
        (res, RoaringBitmap.clear w) := by
  rw [cutLeft, if_pos h]
  cases cutRange api bm (bm.values.min' hne) ((bm.values.max' hne + 1) % 2 ^ w) <;> rfl

/-- Above the limit the range ends in front of the greatest number. -/
theorem cutLeft_of_lt (hw : w ≤ 64) (h : sizeLimit < api.getSizeInBytes bm) :
    cutLeft api removeCut bm hne sizeLimit = (do
      let res ← cutRange api bm (bm.values.min' hne) (bm.values.max' hne)
      let rest ← removeCut bm (bm.values.min' hne) (bm.values.max' hne)
      some (res, rest)) := by
  have hlast : (bm.values.min' hne + (bm.values.max' hne - bm.values.min' hne)) % 2 ^ 64 =
      bm.values.max' hne := by
    have hle := bm.values.min'_le_max' hne
    have hlt : bm.values.max' hne < 2 ^ 64 :=
      (bm.lt _ (bm.values.max'_mem hne)).trans_le (Nat.pow_le_pow_right (by norm_num) hw)
    rw [Nat.add_sub_cancel' hle, Nat.mod_eq_of_lt hlt]
  rw [cutLeft, if_neg (Nat.not_le.mpr h)]
  dsimp only
  rw [searchCut_zero, Option.bind_eq_bind, Option.bind_some, hlast]

theorem mem_cutRange (hapi : api.Documented) {min max : ℕ} {res : RoaringBitmap w}
    (h : cutRange api bm min max = some res) (x : ℕ) :
    x ∈ res.values ↔ (min ≤ x ∧ x < max ∧ x < 2 ^ 32) ∧ x ∈ bm.values := by
  obtain ⟨range, hrange, rfl⟩ := Option.map_eq_some_iff.mp h
  rw [← hapi.mem_fromRange hrange]
  exact Finset.mem_inter

/-- A cut above the limit loses the greatest number. -/
theorem not_cutSplits_of_lt (hapi : api.Documented) (hw : w ≤ 64)
    (hremove : ∀ first last rest, removeCut bm first last = some rest → first ≤ last →
      last ∉ rest.values)
    (h : sizeLimit < api.getSizeInBytes bm) :
    ¬CutSplits api (cutLeft api removeCut bm hne sizeLimit) bm hne sizeLimit := by
  intro hsplits
  obtain ⟨res, rest, hcut, hsplit⟩ := hsplits
  rw [cutLeft_of_lt hw h] at hcut
  obtain ⟨res', hres, hcut⟩ := Option.bind_eq_some_iff.mp hcut
  obtain ⟨rest', hrest, hcut⟩ := Option.bind_eq_some_iff.mp hcut
  obtain ⟨rfl, rfl⟩ := Prod.mk.inj (Option.some.inj hcut)
  have hmax : bm.values.max' hne ∈ res'.values ∪ rest'.values := by
    rw [hsplit.union]
    exact bm.values.max'_mem hne
  obtain hmem | hmem := Finset.mem_union.mp hmax
  · exact absurd ((mem_cutRange hapi hres _).mp hmem).1.2.1 (lt_irrefl _)
  · exact hremove _ _ _ hrest (bm.values.min'_le_max' hne) hmem

/-- A cut below the limit takes everything, if the upper bound of the range does not wrap and the
range holds the greatest number. -/
theorem cutSplits_iff_of_le (hapi : api.Documented) (h : api.getSizeInBytes bm ≤ sizeLimit) :
    CutSplits api (cutLeft api removeCut bm hne sizeLimit) bm hne sizeLimit ↔
      bm.values.max' hne + 1 < 2 ^ w ∧ bm.values.max' hne < 2 ^ 32 := by
  have hmem := bm.values.max'_mem hne
  have hmax := bm.lt _ hmem
  have hle := bm.values.min'_le_max' hne
  rw [cutLeft_of_le h]
  constructor
  · intro ⟨res, rest, hcut, hsplit⟩
    obtain ⟨res', hres, hcut⟩ := Option.map_eq_some_iff.mp hcut
    obtain ⟨rfl, rfl⟩ := Prod.mk.inj hcut
    have hunion := hsplit.union
    rw [RoaringBitmap.clear, Finset.union_empty] at hunion
    have hmem' : bm.values.max' hne ∈ res'.values := by
      rw [hunion]
      exact hmem
    obtain ⟨⟨-, hbelow, hword⟩, -⟩ := (mem_cutRange hapi hres _).mp hmem'
    refine ⟨?_, hword⟩
    -- if the bound wraps it is 0
    by_contra hwrap
    have hzero : bm.values.max' hne + 1 = 2 ^ w := by omega
    rw [hzero, Nat.mod_self] at hbelow
    exact Nat.not_lt_zero _ hbelow
  · intro ⟨hbound, hword⟩
    rw [Nat.mod_eq_of_lt hbound]
    have hlt : bm.values.min' hne < bm.values.max' hne + 1 := by omega
    have hsome := hapi.fromRange_isSome hlt (by omega)
    obtain ⟨range, hrange⟩ := Option.isSome_iff_exists.mp hsome
    have hres : cutRange api bm (bm.values.min' hne) (bm.values.max' hne + 1) =
        some (bm.inter range).runOptimize := by
      rw [cutRange, hrange]
      rfl
    have hvalues : (bm.inter range).values = bm.values := by
      apply Finset.inter_eq_right.mpr
      intro x hx
      have hx_min := bm.values.min'_le x hx
      have hx_max := bm.values.le_max' x hx
      exact (hapi.mem_fromRange hrange x).mpr ⟨hx_min, by omega, by omega⟩
    rw [hres]
    refine ⟨_, _, rfl, ⟨?_, ?_, ?_, ?_⟩⟩
    · exact (Finset.union_empty _).trans hvalues
    · exact hvalues.symm ▸ hne
    · intro x _ y hy
      exact absurd hy (Finset.notMem_empty y)
    · intro _
      constructor
      · have hmono : api.getSizeInBytes (bm.inter range).runOptimize ≤
            api.getSizeInBytes bm.runOptimize := hapi.size_mono hvalues.subset rfl
        have hopt := hapi.size_runOptimize bm
        omega
      · intro y hy
        exact absurd hy (Finset.notMem_empty y)

/-- A cut splits exactly the bitmaps below the limit for which it takes everything. -/
theorem cutSplits_iff (hapi : api.Documented) (hw : w ≤ 64)
    (hremove : ∀ first last rest, removeCut bm first last = some rest → first ≤ last →
      last ∉ rest.values) :
    CutSplits api (cutLeft api removeCut bm hne sizeLimit) bm hne sizeLimit ↔
      api.getSizeInBytes bm ≤ sizeLimit ∧ bm.values.max' hne + 1 < 2 ^ w ∧
        bm.values.max' hne < 2 ^ 32 := by
  by_cases h : api.getSizeInBytes bm ≤ sizeLimit
  · rw [cutSplits_iff_of_le hapi h]
    exact (and_iff_right h).symm
  · apply iff_of_false
    · exact not_cutSplits_of_lt hapi hw hremove (Nat.not_le.mp h)
    · exact fun hc => h hc.1

end Splits

section Overloads

theorem notMem_removeUpTo_of_notMem {w : ℕ} (bm : RoaringBitmap w) (k last : ℕ) {x : ℕ}
    (h : x ∉ bm.values) : x ∉ (removeUpTo bm k last).values := by
  fun_induction removeUpTo bm k last with
  | case1 bm k hle ih =>
    exact ih fun hx => h (Finset.mem_of_mem_erase hx)
  | case2 bm k hle => exact h

theorem last_notMem_removeUpTo {w : ℕ} (bm : RoaringBitmap w) {k last : ℕ} (hle : k ≤ last) :
    last ∉ (removeUpTo bm k last).values := by
  fun_induction removeUpTo bm k last with
  | case1 bm k hle' ih =>
    obtain rfl | hlt := Nat.eq_or_lt_of_le hle
    · exact notMem_removeUpTo_of_notMem _ _ _ (Finset.notMem_erase _ _)
    · exact ih hlt
  | case2 bm k hlt => exact absurd hle hlt

theorem last_notMem_removeLoop {bm rest : RoaringBitmap 64} {first last : ℕ}
    (h : removeLoop bm first last = some rest) (hle : first ≤ last) : last ∉ rest.values := by
  rw [removeLoop] at h
  split at h
  · cases h
  · rw [← Option.some.inj h]
    exact last_notMem_removeUpTo bm hle

theorem last_notMem_removeRangeClosed {w : ℕ} {bm : RoaringBitmap w} {first last : ℕ}
    (hle : first ≤ last) : last ∉ (bm.removeRangeClosed first last).values := by
  intro hlast
  exact (Finset.mem_sdiff.mp hlast).2 (Finset.mem_Icc.mpr ⟨hle, le_rfl⟩)

/-- The two overloads split a bitmap exactly if its size is within the limit and its greatest
number is, for numbers of 64 bits, one of 32 bits and, for numbers of 32 bits, not the last one. -/
theorem cutLeft_splits_iff {api : RoaringApi 64} (hapi : api.Documented) {api' : RoaringApi 32}
    (hapi' : api'.Documented) {bm : RoaringBitmap 64} (hne : bm.values.Nonempty)
    {bm' : RoaringBitmap 32} (hne' : bm'.values.Nonempty) (sizeLimit : ℕ) :
    (CutSplits api (cutLeft64 api bm hne sizeLimit) bm hne sizeLimit ↔
      api.getSizeInBytes bm ≤ sizeLimit ∧ bm.values.max' hne < 2 ^ 32) ∧
    (CutSplits api' (cutLeft32 api' bm' hne' sizeLimit) bm' hne' sizeLimit ↔
      api'.getSizeInBytes bm' ≤ sizeLimit ∧ bm'.values.max' hne' < 2 ^ 32 - 1) := by
  constructor
  · rw [cutLeft64, cutSplits_iff hapi le_rfl fun _ _ _ => last_notMem_removeLoop]
    omega
  · rw [cutLeft32, cutSplits_iff hapi' (by norm_num)]
    · omega
    · intro first last rest h hle
      rw [← Option.some.inj h]
      exact last_notMem_removeRangeClosed hle

/-- The sizes of bitmaps whose numbers are in one array, behind a header. -/
def arrayApi (w headerSize : ℕ) : RoaringApi w where
  fromRange min max :=
    if min < max ∧ min < 2 ^ 32 then some (Finset.Ico min (Nat.min max (2 ^ 32))) else none
  getSizeInBytes bm := headerSize + 2 * bm.values.card

theorem arrayApi_documented (w headerSize : ℕ) : (arrayApi w headerSize).Documented where
  mem_fromRange := by
    intro min max range h x
    dsimp only [arrayApi] at h
    split_ifs at h
    rw [← Option.some.inj h, Finset.mem_Ico, lt_inf_iff]
  fromRange_isSome := by
    intro min max hlt hword
    dsimp only [arrayApi]
    rw [if_pos ⟨hlt, hword⟩]
    rfl
  size_mono := by
    intro a b hsub _
    exact Nat.add_le_add_left (Nat.mul_le_mul_left 2 (Finset.card_le_card hsub)) headerSize
  size_runOptimize _ := le_rfl

/-- The numbers 5 and 7, which take 32 bytes in a map of 64 bits and 20 bytes in one of 32 bits. -/
def fiveAndSeven {w : ℕ} (hw : 3 ≤ w) : RoaringBitmap w where
  values := {5, 7}
  lt := by
    have h8 : 2 ^ 3 ≤ 2 ^ w := Nat.pow_le_pow_right two_pos hw
    simp only [Finset.mem_insert, Finset.mem_singleton, forall_eq_or_imp, forall_eq]
    omega

theorem fiveAndSeven_nonempty {w : ℕ} (hw : 3 ≤ w) : (fiveAndSeven hw).values.Nonempty :=
  ⟨5, Finset.mem_insert_self 5 {7}⟩

theorem cutLeft_splits_iff_fiveAndSeven :
    CutSplits (arrayApi 64 28) (cutLeft64 (arrayApi 64 28) (fiveAndSeven (by decide))
        (fiveAndSeven_nonempty (by decide)) 32) (fiveAndSeven (by decide))
        (fiveAndSeven_nonempty (by decide)) 32 ∧
      CutSplits (arrayApi 32 16) (cutLeft32 (arrayApi 32 16) (fiveAndSeven (by decide))
        (fiveAndSeven_nonempty (by decide)) 32) (fiveAndSeven (by decide))
        (fiveAndSeven_nonempty (by decide)) 32 := by
  have h := cutLeft_splits_iff (arrayApi_documented 64 28) (arrayApi_documented 32 16)
    (fiveAndSeven_nonempty (w := 64) (by decide)) (fiveAndSeven_nonempty (w := 32) (by decide)) 32
  exact ⟨h.1.mpr ⟨by decide, by decide⟩, h.2.mpr ⟨by decide, by decide⟩⟩

/-- With a limit of 31 bytes the number 7 is lost. -/
theorem not_cutLeft_splits :
    ¬∀ (api : RoaringApi 64), api.Documented → ∀ (bm : RoaringBitmap 64)
      (hne : bm.values.Nonempty) (sizeLimit : ℕ),
      CutSplits api (cutLeft64 api bm hne sizeLimit) bm hne sizeLimit := by
  intro h
  have hlt : 31 < (arrayApi 64 28).getSizeInBytes (fiveAndSeven (by decide)) := by decide
  exact not_cutSplits_of_lt (arrayApi_documented 64 28) le_rfl
    (fun _ _ _ => last_notMem_removeLoop) hlt
    (h (arrayApi 64 28) (arrayApi_documented 64 28) (fiveAndSeven (by decide))
      (fiveAndSeven_nonempty (by decide)) 31)

end Overloads

end Silkworm.Db
