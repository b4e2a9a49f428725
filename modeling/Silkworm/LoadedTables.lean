import Silkworm.HistoryIndex
import Silkworm.IncrementalIndexes

/-!
# Tables that are loaded

A stage loads what it has collected in order. Into an empty table every entry is put behind all
others, which fails if a key comes twice, and into any other table the entries are put one by one.
-/

namespace Silkworm.Db
open SortedTables IncrementalIndexes

/-- The last step of a stage, without a transformation of the entries. -/
def loadTable (t : PlainTable) (l : List Entry) : Option PlainTable :=
  (etlSorted l).foldlM (fun t' e => putChunk t.entries.isEmpty t' e.1 e.2) t

section Loads

variable {append : Bool} {t t' : PlainTable} {l : List Entry}

theorem putChunk_eq_some {key data : Bytes} (h : putChunk append t key data = some t') :
    t' = t.put key data := by
  rw [putChunk, putAppend] at h
  split_ifs at h <;> exact (Option.some.inj h).symm

/-- Entries whose keys have one value each. -/
def SingleKeys (l : List Entry) : Prop := ∀ x ∈ l, ∀ y ∈ l, x.1 = y.1 → x.2 = y.2

theorem loads_foldlM (hl : SingleKeys l)
    (h : l.foldlM (fun t e => putChunk append t e.1 e.2) t = some t') :
    Loads {e | e ∈ l} t.get t'.get := by
  induction l generalizing t with
  | nil =>
    cases h
    exact ⟨nofun, fun _ _ => rfl⟩
  | cons x l ih =>
    rw [List.foldlM_cons] at h
    obtain ⟨t₁, ht₁, h⟩ := Option.bind_eq_some_iff.mp h
    cases putChunk_eq_some ht₁
    have hrest := ih (fun y hy z hz => hl y (List.mem_cons_of_mem x hy) z (List.mem_cons_of_mem x hz)) h
    constructor
    · intro e he
      by_cases hin : ∃ v, (e.1, v) ∈ l
      · obtain ⟨v, hv⟩ := hin
        have heq : v = e.2 := hl (e.1, v) (List.mem_cons_of_mem x hv) e he rfl
        rw [← heq]
        exact hrest.loaded (e.1, v) hv
      · rcases List.mem_cons.mp he with rfl | he
        · rw [hrest.kept e.1 (not_exists.mp hin), PlainTable.get_put, if_pos rfl]
        · exact absurd ⟨e.2, he⟩ hin
    · intro key hkey
      have hne : key ≠ x.1 := fun heq => hkey x.2 (heq ▸ List.mem_cons_self)
      rw [hrest.kept key fun v hv => hkey v (List.mem_cons_of_mem x hv), PlainTable.get_put,
        if_neg hne]

theorem loads_loadTable (hl : SingleKeys l) (h : loadTable t l = some t') :
    Loads {e | e ∈ l} t.get t'.get := by
  have hsorted : SingleKeys (etlSorted l) := fun x hx y hy =>
    hl x (mem_etlSorted.mp hx) y (mem_etlSorted.mp hy)
  have hloads := loads_foldlM hsorted h
  simpa only [mem_etlSorted] using hloads

theorem exists_foldlM_putChunk (l : List Entry) (t : PlainTable) :
    ∃ t', l.foldlM (fun t e => putChunk false t e.1 e.2) t = some t' := by
  induction l generalizing t with
  | nil => exact ⟨t, rfl⟩
  | cons x l ih =>
    rw [List.foldlM_cons]
    exact ih (t.put x.1 x.2)

/-- Different keys can be loaded into any table. -/
theorem exists_loadTable (hnodup : l.Nodup) (hl : SingleKeys l) :
    ∃ t', loadTable t l = some t' := by
  rw [loadTable]
  cases hempty : t.entries.isEmpty with
  | true =>
    have hnil := List.isEmpty_iff.mp hempty
    have ht : t = {} := PlainTable.ext_of_get fun key => by
      rw [Table.get, hnil]
      rfl
    obtain ⟨t', hload, -⟩ := exists_load hnodup fun x hx y hy heq =>
      Prod.ext heq (hl x hx y hy heq)
    exact ⟨t', by simpa [putChunk, ht] using hload⟩
  | false => exact exists_foldlM_putChunk (etlSorted l) t

end Loads

end Silkworm.Db
