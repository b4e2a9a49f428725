import Silkworm.SenderRecovery

/-!
# Unwinding the recovery of senders

All entries of the table of senders from the block after the new height on are deleted, one after the
other. For the first heights there is a shortcut, which clears the table.
-/

namespace Silkworm.Senders
open BigEndian Db SortedTables

/-- The entry at the cursor is deleted, which leaves the cursor at the next one. -/
def deleteFrom (t : Table) : List Entry → Table
  | [] => t
  | e :: es => deleteFrom (t.erase e) es

/-- The table of senders and the height of the stage afterwards. The loop ends, also before its first
round, where no entry is found. -/
def unwind (newHeight : Uint64) (senders : Table) : Status × Table × Uint64 :=
  let senders :=
    if senders.entries.isEmpty then senders
    else if newHeight ≤ 1 then {}
    else deleteFrom senders (senders.seek (bigU64 (newHeight + 1) ++ List.replicate kHashLength 0))
  (.succeded, senders, newHeight)

/-- A table with keys of blocks. -/
structure SendersTable extends Table where
  keys : ∀ e ∈ entries, ∃ (number : Uint64) (hash : Bytes32), e.1 = blockKey number ++ hash.val

def blockNumber (e : Entry) : ℕ := ofBigEndian (e.1.take 8)

section Keys

variable {e : Entry} {number : Uint64} {hash : Bytes32}

theorem blockNumber_of_key (h : e.1 = blockKey number ++ hash.val) :
    blockNumber e = number.toNat := by
  rw [blockNumber, h, blockKey, List.take_left' (length_bigU64 number), bigU64,
    ofBigEndian_fixedBigEndian]

/-- The keys below the first possible one of a block are those of the blocks before it. -/
theorem key_lt_iff (h : e.1 = blockKey number ++ hash.val) (n : Uint64) :
    e.1 < bigU64 n ++ List.replicate kHashLength 0 ↔ number.toNat < n.toNat := by
  have hhash : hash.val.length = kHashLength := hash.property
  have hlt := ofBigEndian_lt hash.val
  rw [h, blockKey, lt_iff_ofBigEndian_lt (by simp [hhash]), ofBigEndian_append, ofBigEndian_append,
    List.length_replicate, ofBigEndian_replicate, hhash, bigU64, bigU64, ofBigEndian_fixedBigEndian,
    ofBigEndian_fixedBigEndian]
  rw [hhash] at hlt
  generalize 256 ^ kHashLength = m at hlt ⊢
  constructor
  · intro hk
    by_contra hge
    have hle := Nat.mul_le_mul_left m (Nat.not_lt.mp hge)
    omega
  · intro hn
    have hle := Nat.mul_le_mul_left m (Nat.succ_le_of_lt hn)
    rw [Nat.mul_succ] at hle
    omega

end Keys

theorem mem_deleteFrom {t : Table} {es : List Entry} {x : Entry} :
    x ∈ (deleteFrom t es).entries ↔ x ∈ t.entries ∧ x ∉ es := by
  induction es generalizing t with
  | nil => simp [deleteFrom]
  | cons e es ih =>
    rw [deleteFrom, ih, Table.mem_erase, List.mem_cons]
    tauto

/-- In a table the entries that a cursor passes are those from its start on. -/
theorem mem_seek {t : Table} {lowerBound : Bytes} {x : Entry} :
    x ∈ t.seek lowerBound ↔ x ∈ t.entries ∧ ¬x.1 < lowerBound := by
  rw [Table.seek]
  obtain ⟨es, hsorted⟩ := t
  dsimp only
  induction es with
  | nil => simp
  | cons e es ih =>
    obtain ⟨he, hes⟩ := List.pairwise_cons.mp hsorted
    rw [List.dropWhile_cons]
    split_ifs with hlt
    · rw [ih hes, List.mem_cons]
      have hlt : e.1 < lowerBound := of_decide_eq_true hlt
      constructor
      · rintro ⟨hx, hge⟩
        exact ⟨.inr hx, hge⟩
      · rintro ⟨rfl | hx, hge⟩
        · exact absurd hlt hge
        · exact ⟨hx, hge⟩
    · have hge : ¬e.1 < lowerBound := fun h => hlt (decide_eq_true h)
      refine (and_iff_left_of_imp fun hx => ?_).symm
      rcases List.mem_cons.mp hx with rfl | hx
      · exact hge
      · rcases he x hx with hlt' | ⟨heq, -⟩
        · exact fun h => hge (List.lt_trans hlt' h)
        · exact heq ▸ hge

/-- What unwinding to a height is meant to do. -/
def Unwinds (newHeight : Uint64) (senders : Table) : Prop :=
  ∃ senders', unwind newHeight senders = (.succeded, senders', newHeight) ∧
    ∀ e, e ∈ senders'.entries ↔ e ∈ senders.entries ∧ blockNumber e ≤ newHeight.toNat

/-- Unwinding keeps the entries up to the new height, unless it takes the shortcut, or the next
height wraps around to 0, and there are such entries. -/
theorem unwind_exact (newHeight : Uint64) (senders : SendersTable) :
    Unwinds newHeight senders.toTable ↔
      (newHeight ≤ 1 ∨ newHeight + 1 = 0 →
        ∀ e ∈ senders.entries, newHeight.toNat < blockNumber e) := by
  have hall (t : Table) (h : unwind newHeight senders.toTable = (.succeded, t, newHeight)) :
      Unwinds newHeight senders.toTable ↔
        ∀ e, e ∈ t.entries ↔ e ∈ senders.entries ∧ blockNumber e ≤ newHeight.toNat := by
    rw [Unwinds, h]
    constructor
    · rintro ⟨t', heq, hmem⟩
      cases heq
      exact hmem
    · exact fun hmem => ⟨t, rfl, hmem⟩
  -- the table is cleared, by the shortcut or because the first possible key is sought
  have hcleared (t : Table) (h : unwind newHeight senders.toTable = (.succeded, t, newHeight))
      (hempty : ∀ e, e ∉ t.entries) : Unwinds newHeight senders.toTable ↔
        ∀ e ∈ senders.entries, newHeight.toNat < blockNumber e := by
    rw [hall t h]
    constructor
    · intro hmem e he
      exact Nat.lt_of_not_le fun hle => hempty e ((hmem e).mpr ⟨he, hle⟩)
    · intro hlt e
      exact iff_of_false (hempty e) fun h => Nat.not_le.mpr (hlt e h.1) h.2
  unfold unwind at hall hcleared
  dsimp only at hall hcleared
  by_cases hnil : senders.entries.isEmpty = true
  · have hnone : ∀ e, e ∉ senders.entries := by simp [List.isEmpty_iff.mp hnil]
    rw [hcleared senders.toTable (by rw [if_pos hnil]) hnone]
    exact iff_of_true (fun e he => absurd he (hnone e)) fun _ e he => absurd he (hnone e)
  rw [if_neg hnil] at hall hcleared
  by_cases hsmall : newHeight ≤ 1
  · rw [hcleared {} (by rw [if_pos hsmall]) fun e he => by cases he]
    exact ⟨fun h _ => h, fun h => h (.inl hsmall)⟩
  rw [if_neg hsmall] at hall hcleared
  have hmem {e : Entry} : e ∈ (deleteFrom senders.toTable (senders.seek (bigU64 (newHeight + 1) ++
      List.replicate kHashLength 0))).entries ↔
        e ∈ senders.entries ∧ blockNumber e < (newHeight + 1).toNat := by
    rw [mem_deleteFrom, mem_seek]
    constructor
    · rintro ⟨he, hlt⟩
      obtain ⟨number, hash, hkey⟩ := senders.keys e he
      rw [blockNumber_of_key hkey, ← key_lt_iff hkey]
      exact ⟨he, not_not.mp fun h => hlt ⟨he, h⟩⟩
    · rintro ⟨he, hlt⟩
      obtain ⟨number, hash, hkey⟩ := senders.keys e he
      rw [blockNumber_of_key hkey, ← key_lt_iff hkey] at hlt
      exact ⟨he, fun h => h.2 hlt⟩
  by_cases hwrap : newHeight + 1 = 0
  · rw [hcleared _ rfl fun e he => ?_]
    · exact ⟨fun h _ => h, fun h => h (.inr hwrap)⟩
    · have hlt := (hmem.mp he).2
      rw [hwrap] at hlt
      exact Nat.not_lt_zero _ hlt
  · have hsucc : (newHeight + 1).toNat = newHeight.toNat + 1 := by bv_omega
    rw [hall _ rfl]
    refine iff_of_true (fun e => ?_) fun h => absurd h (not_or.mpr ⟨hsmall, hwrap⟩)
    rw [hmem, hsucc, Nat.lt_succ_iff]

section Examples

private def recovered : SendersTable where
  entries := [(blockKey 1 ++ (default : Bytes32).val, [7])]
  sorted := List.pairwise_singleton _ _
  keys e he := by
    rw [List.mem_singleton.mp he]
    exact ⟨1, default, rfl⟩

/-- Unwinding to block 1 loses its senders. -/
theorem not_unwind_exact :
    (∃ e ∈ recovered.entries, blockNumber e ≤ (1 : Uint64).toNat) ∧
      (unwind 1 recovered.toTable).2.1.entries = [] ∧ ¬Unwinds 1 recovered.toTable := by
  have hkept : ∃ e ∈ recovered.entries, blockNumber e ≤ (1 : Uint64).toNat :=
    ⟨_, List.mem_singleton_self _, by decide⟩
  have hlost : (unwind 1 recovered.toTable).2.1.entries = [] := by decide
  refine ⟨hkept, hlost, ?_⟩
  rintro ⟨t, h, hmem⟩
  obtain ⟨e, he, hle⟩ := hkept
  rw [h] at hlost
  have := (hmem e).mpr ⟨he, hle⟩
  rw [hlost] at this
  cases this

end Examples

end Silkworm.Senders
