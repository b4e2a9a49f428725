import Silkworm.Evm
import Silkworm.LruCache

/-!
# The cache of analyses

The analyses of codes, by the hashes of the codes, for one revision at a time. What is found is what
was put last for that code at that revision, and the cache holds the analyses that were used most
recently.
-/

namespace Silkworm
open Recency

structure AnalysisCache (A : Type) where
  cache : LruCache Bytes32 A
  revision : Revision := .shanghai

namespace AnalysisCache

variable {A : Type}

section Operations

def init (maxSize : ℕ) : AnalysisCache A where
  cache := { maxSize }

def get (key : Bytes32) (revision : Revision) (c : AnalysisCache A) :
    Option (Option A × AnalysisCache A) :=
  if c.revision = revision then
    (c.cache.get key).map fun r => (r.1, { c with cache := r.2 })
  else some (none, c)

/-- Entries of other revisions are not kept. -/
def put (key : Bytes32) (analysis : A) (revision : Revision) (c : AnalysisCache A) :
    Option (AnalysisCache A) :=
  let cache := if c.revision ≠ revision then c.cache.clear else c.cache
  (cache.put key analysis).map fun cache => { cache, revision }

/-- The analysis with which `execute_with_default_interpreter` executes a code. -/
def analysisFor (analyze : Revision → Bytes → A) (revision : Revision) (code : Bytes)
    (codeHash : Option Bytes32) (c : AnalysisCache A) : Option (A × AnalysisCache A) :=
  match codeHash with
  | some codeHash => do
    let (analysis, c) ← c.get codeHash revision
    match analysis with
    | some analysis => some (analysis, c)
    | none =>
      let c ← c.put codeHash (analyze revision code) revision
      some (analyze revision code, c)
  | none => some (analyze revision code, c)

end Operations

section Histories

inductive Use (A : Type)
  | get (key : Bytes32) (revision : Revision)
  | put (key : Bytes32) (analysis : A) (revision : Revision)

def use (c : AnalysisCache A) : Use A → Option (AnalysisCache A)
  | .get key revision => (c.get key revision).map Prod.snd
  | .put key analysis revision => c.put key analysis revision

/-- The revision of the last put. Here and below, the latest use comes first. -/
def revisionOf : List (Use A) → Revision
  | [] => .shanghai
  | .get _ _ :: uses => revisionOf uses
  | .put _ _ revision :: _ => revision

/-- The value of the last put for a key at a revision, unless another revision came in between. -/
def lastPut (key : Bytes32) (revision : Revision) : List (Use A) → Option A
  | [] => none
  | .get _ _ :: uses => lastPut key revision uses
  | .put key' analysis revision' :: uses =>
    if revision' ≠ revision then none
    else if key' = key then some analysis
    else lastPut key revision uses

/-- Everything that has been put since the revision changed, in the order of the last use. A get is a
use only if it finds something among the first entries, as many as the cache holds. -/
def ranking (maxSize : ℕ) : List (Use A) → List (Bytes32 × A)
  | [] => []
  | .get key revision :: uses =>
    if revisionOf uses = revision ∧ (find key ((ranking maxSize uses).take maxSize)).isSome then
      promote key (ranking maxSize uses)
    else ranking maxSize uses
  | .put key analysis revision :: uses =>
    Recency.put key analysis (if revisionOf uses ≠ revision then [] else ranking maxSize uses)

variable {maxSize : ℕ} {uses : List (Use A)} {c : AnalysisCache A}

theorem distinct_ranking (maxSize : ℕ) (uses : List (Use A)) : Distinct (ranking maxSize uses) := by
  induction uses with
  | nil => exact List.nodup_nil
  | cons u uses ih =>
    cases u with
    | get key revision =>
      rw [ranking]
      split_ifs
      · exact ih.promote
      · exact ih
    | put key analysis revision =>
      rw [ranking]
      split_ifs
      · exact Distinct.put List.nodup_nil
      · exact ih.put

theorem lastPut_of_mem_ranking {e : Bytes32 × A} (h : e ∈ ranking maxSize uses) :
    lastPut e.1 (revisionOf uses) uses = some e.2 := by
  induction uses with
  | nil => exact absurd h List.not_mem_nil
  | cons u uses ih =>
    cases u with
    | get key revision =>
      rw [ranking] at h
      split_ifs at h
      · exact ih ((mem_promote (distinct_ranking maxSize uses)).mp h)
      · exact ih h
    | put key analysis revision =>
      rw [ranking] at h
      rw [revisionOf, lastPut, if_neg (not_not.mpr rfl)]
      rcases List.mem_cons.mp h with rfl | h
      · rw [if_pos rfl]
      · obtain ⟨h, hne⟩ := mem_others.mp h
        rw [if_neg hne.symm]
        split_ifs at h with hrev
        · exact absurd h List.not_mem_nil
        · rw [← not_not.mp hrev]
          exact ih h

/-- The cache holds the first entries. -/
structure Holds (maxSize : ℕ) (uses : List (Use A)) (c : AnalysisCache A) : Prop where
  linked : c.cache.Linked
  size : c.cache.maxSize = maxSize
  revision : c.revision = revisionOf uses
  entries : c.cache.entries = (ranking maxSize uses).take maxSize

theorem Holds.length_le (h : Holds maxSize uses c) :
    c.cache.cacheItemsList.length ≤ c.cache.maxSize := by
  have hlength := congrArg List.length h.entries
  rw [LruCache.entries, List.length_map] at hlength
  rw [hlength, h.size]
  exact List.length_take_le _ _

theorem holds_init (maxSize : ℕ) : Holds maxSize [] (init maxSize : AnalysisCache A) where
  linked := LruCache.linked_init maxSize
  size := rfl
  revision := rfl
  entries := List.take_nil.symm

theorem Holds.get (h : Holds maxSize uses c) (key : Bytes32) (revision : Revision) :
    ∃ r c', c.get key revision = some (r, c') ∧ Holds maxSize (.get key revision :: uses) c' ∧
      ∀ analysis, r = some analysis → lastPut key revision uses = some analysis := by
  rw [AnalysisCache.get]
  by_cases hrev : c.revision = revision
  · obtain ⟨cache, hget, hlinked, hentries, hmax⟩ := LruCache.get_spec h.linked key
    rw [if_pos hrev, hget]
    refine ⟨_, _, rfl, ⟨hlinked, hmax.trans h.size, h.revision, ?_⟩, fun analysis hr => ?_⟩
    · rw [hentries, h.entries, ranking]
      cases hfind : find key ((ranking maxSize uses).take maxSize) with
      | none =>
        rw [if_neg (by simp), promote, hfind]
      | some e =>
        rw [if_pos ⟨h.revision.symm.trans hrev, rfl⟩, take_promote (distinct_ranking _ _) hfind]
    · obtain ⟨e, hfind, rfl⟩ := Option.map_eq_some_iff.mp hr
      obtain ⟨he, rfl⟩ := (find_eq_some_iff h.linked.distinct).mp hfind
      rw [h.entries] at he
      rw [← hrev, h.revision]
      exact lastPut_of_mem_ranking (List.mem_of_mem_take he)
  · rw [if_neg hrev]
    refine ⟨none, c, rfl, ⟨h.linked, h.size, h.revision, ?_⟩, fun analysis hr => ?_⟩
    · rw [h.entries, ranking, if_neg]
      exact fun hfound => hrev (h.revision.trans hfound.1)
    · cases hr

theorem Holds.put (h : Holds maxSize uses c) (key : Bytes32) (analysis : A) (revision : Revision) :
    ∃ c', c.put key analysis revision = some c' ∧
      Holds maxSize (.put key analysis revision :: uses) c' := by
  have hput (cache : LruCache Bytes32 A) (es : List (Bytes32 × A)) (hes : Distinct es)
      (hlinked : cache.Linked) (hsize : cache.maxSize = maxSize)
      (hentries : cache.entries = es.take maxSize) :
      ∃ cache', cache.put key analysis = some cache' ∧ cache'.Linked ∧ cache'.maxSize = maxSize ∧
        cache'.entries = (Recency.put key analysis es).take maxSize := by
    have hle : cache.cacheItemsList.length ≤ cache.maxSize := by
      have hlength := congrArg List.length hentries
      rw [LruCache.entries, List.length_map] at hlength
      rw [hlength, hsize]
      exact List.length_take_le _ _
    obtain ⟨cache', hput, hlinked', hentries', hmax⟩ := LruCache.put_spec hlinked hle key analysis
    refine ⟨cache', hput, hlinked', hmax.trans hsize, ?_⟩
    rw [hentries', hentries, hsize, take_put hes]
  rw [AnalysisCache.put]
  by_cases hrev : c.revision = revision
  · obtain ⟨cache, hcache, hlinked, hmax, hentries⟩ :=
      hput c.cache _ (distinct_ranking maxSize uses) h.linked h.size h.entries
    rw [if_neg (not_not.mpr hrev), hcache]
    refine ⟨_, rfl, hlinked, hmax, rfl, ?_⟩
    rw [hentries, ranking, if_neg (not_not.mpr (h.revision.symm.trans hrev))]
  · obtain ⟨cache, hcache, hlinked, hmax, hentries⟩ :=
      hput c.cache.clear [] List.nodup_nil (LruCache.linked_clear _) h.size List.take_nil.symm
    rw [if_pos hrev, hcache]
    refine ⟨_, rfl, hlinked, hmax, rfl, ?_⟩
    rw [hentries, ranking, if_pos fun heq => hrev (h.revision.trans heq)]

theorem Holds.use (h : Holds maxSize uses c) (u : Use A) :
    ∃ c', c.use u = some c' ∧ Holds maxSize (u :: uses) c' := by
  cases u with
  | get key revision =>
    obtain ⟨r, c', hget, h', -⟩ := h.get key revision
    exact ⟨c', by rw [AnalysisCache.use, hget]; rfl, h'⟩
  | put key analysis revision => exact h.put key analysis revision

/-- After any uses. -/
theorem holds_uses (maxSize : ℕ) (uses : List (Use A)) :
    ∃ c, uses.foldlM AnalysisCache.use (init maxSize) = some c ∧ Holds maxSize uses.reverse c := by
  induction uses using List.reverseRecOn with
  | nil => exact ⟨_, rfl, holds_init maxSize⟩
  | append_singleton uses u ih =>
    obtain ⟨c, hc, h⟩ := ih
    obtain ⟨c', hu, h'⟩ := h.use u
    refine ⟨c', ?_, ?_⟩
    · rw [List.foldlM_append, hc]
      change (List.foldlM AnalysisCache.use c [u]) = some c'
      rw [List.foldlM_cons, hu]
      rfl
    · rwa [List.reverse_append]

end Histories

section Executions

/-- The code of a contract, known by its hash, or the code of a deployment, which is not cached. -/
inductive Code
  | contract (hash : Bytes32)
  | deployment (code : Bytes)

def Code.bytes (codeOf : Bytes32 → Bytes) : Code → Bytes
  | .contract hash => codeOf hash
  | .deployment code => code

def Code.hash : Code → Option Bytes32
  | .contract hash => some hash
  | .deployment _ => none

/-- The analyses for executions one after the other. -/
def analysesFor (analyze : Revision → Bytes → A) (codeOf : Bytes32 → Bytes) :
    List (Revision × Code) → AnalysisCache A → Option (List A × AnalysisCache A)
  | [], c => some ([], c)
  | (revision, code) :: executions, c => do
    let (analysis, c) ← c.analysisFor analyze revision (code.bytes codeOf) code.hash
    let (analyses, c) ← analysesFor analyze codeOf executions c
    some (analysis :: analyses, c)

variable {analyze : Revision → Bytes → A} {codeOf : Bytes32 → Bytes} {c : AnalysisCache A}
  {maxSize : ℕ} {uses : List (Use A)}

/-- Only the analyses of codes have been put. -/
def Analyses (analyze : Revision → Bytes → A) (codeOf : Bytes32 → Bytes) (uses : List (Use A)) : Prop :=
  ∀ key revision analysis, lastPut key revision uses = some analysis →
    analysis = analyze revision (codeOf key)

theorem analysisFor_spec (h : Holds maxSize uses c) (hall : Analyses analyze codeOf uses)
    (revision : Revision) (code : Code) :
    ∃ c' uses', c.analysisFor analyze revision (code.bytes codeOf) code.hash =
        some (analyze revision (code.bytes codeOf), c') ∧
      Holds maxSize uses' c' ∧ Analyses analyze codeOf uses' := by
  cases code with
  | deployment code => exact ⟨c, uses, rfl, h, hall⟩
  | contract hash =>
    obtain ⟨r, c', hget, h', hr⟩ := h.get hash revision
    have hall' : Analyses analyze codeOf (.get hash revision :: uses) := hall
    rw [Code.hash, Code.bytes, analysisFor]
    cases r with
    | some analysis =>
      refine ⟨c', _, ?_, h', hall'⟩
      rw [← hall hash revision analysis (hr analysis rfl)]
      simp [hget]
    | none =>
      obtain ⟨c'', hput, h''⟩ := h'.put hash (analyze revision (codeOf hash)) revision
      refine ⟨c'', _, by simp [hget, hput], h'', fun key revision' analysis hlast => ?_⟩
      rw [lastPut] at hlast
      split_ifs at hlast with hrev hkey
      · obtain rfl := not_not.mp hrev
        obtain rfl := hkey
        exact (Option.some.inj hlast).symm
      · exact hall' key revision' analysis hlast

theorem analysesFor_spec (h : Holds maxSize uses c) (hall : Analyses analyze codeOf uses)
    (executions : List (Revision × Code)) :
    ∃ c', c.analysesFor analyze codeOf executions =
      some (executions.map fun e => analyze e.1 (e.2.bytes codeOf), c') := by
  induction executions generalizing c uses with
  | nil => exact ⟨c, rfl⟩
  | cons e executions ih =>
    obtain ⟨c', uses', hanalysis, h', hall'⟩ := analysisFor_spec h hall e.1 e.2
    obtain ⟨c'', hrest⟩ := ih h' hall'
    exact ⟨c'', by simp [analysesFor, hanalysis, hrest]⟩

/-- The cache is never undefined, links its list and its map, keeps the entries that were used most
recently and finds what was put last. An execution gets the analysis of its code. -/
theorem cache_sound (maxSize : ℕ) (uses : List (Use A)) :
    (∃ c, uses.foldlM AnalysisCache.use (init maxSize) = some c ∧
      c.cache.Linked ∧ c.cache.size ≤ maxSize ∧
      c.cache.entries = (ranking maxSize uses.reverse).take maxSize ∧
      (∀ key revision, ∃ r c', c.get key revision = some (r, c') ∧
        ∀ analysis, r = some analysis → lastPut key revision uses.reverse = some analysis) ∧
      ∀ key analysis, ∃ c', c.put key analysis c.revision = some c' ∧
        ∀ e ∈ c.cache.entries, e.1 ≠ key → e ∉ c'.cache.entries →
          c.cache.entries.getLast? = some e) ∧
    ∀ (analyze : Revision → Bytes → A) (codeOf : Bytes32 → Bytes)
      (executions : List (Revision × Code)),
      ∃ c, analysesFor analyze codeOf executions (init maxSize) =
        some (executions.map fun e => analyze e.1 (e.2.bytes codeOf), c) := by
  refine ⟨?_, fun analyze codeOf executions => analysesFor_spec (holds_init maxSize) nofun executions⟩
  obtain ⟨c, hc, h⟩ := holds_uses maxSize uses
  have hlength : c.cache.entries.length ≤ maxSize := by
    rw [LruCache.entries, List.length_map, ← h.size]
    exact h.length_le
  refine ⟨c, hc, h.linked, ?_, h.entries, fun key revision => ?_, fun key analysis => ?_⟩
  · rw [h.linked.size_eq, ← h.size]
    exact h.length_le
  · obtain ⟨r, c', hget, -, hr⟩ := h.get key revision
    exact ⟨r, c', hget, hr⟩
  · obtain ⟨cache, hput, -, hentries, -⟩ := LruCache.put_spec h.linked h.length_le key analysis
    refine ⟨{ cache, revision := c.revision }, ?_, fun e he hkey hout => ?_⟩
    · rw [AnalysisCache.put, if_neg (not_not.mpr rfl), hput]
      rfl
    · rw [hentries, h.size] at hout
      exact getLast?_of_not_mem_put hlength he hkey hout

end Executions

end AnalysisCache

end Silkworm
