import Mathlib.Data.List.Perm.Basic
import Mathlib.Logic.Function.Basic

/-!
# Merging sorted runs

A queue holds the first element of each run that is not exhausted, with the index of its run.
The smallest element is taken out and the next one of its run put in its place. What is taken
out in the end is everything, in order.
-/

namespace Silkworm.RunMerging

variable {α ι : Type} [BEq (α × ι)] [DecidableEq ι]

/-- The queue and the runs without their elements in the queue. -/
structure State (α ι : Type) where
  queue : List (α × ι)
  runs : ι → List α

/-- The element is replaced by the next one of its run. -/
def State.replace (s : State α ι) (x : α × ι) : State α ι where
  queue := match s.runs x.2 with
    | [] => s.queue.erase x
    | y :: _ => (y, x.2) :: s.queue.erase x
  runs := Function.update s.runs x.2 (s.runs x.2).tail

theorem State.runs_replace (s : State α ι) (x : α × ι) :
    (s.replace x).runs = Function.update s.runs x.2 (s.runs x.2).tail := rfl

/-- All elements that are left. -/
def State.contents (s : State α ι) : List α := s.queue.flatMap fun x => x.1 :: s.runs x.2

variable (le : α → α → Prop)

/-- The elements taken out one after the other until the queue is empty. -/
inductive Merges : State α ι → List α → Prop
  | nil {s : State α ι} (h : s.queue = []) : Merges s []
  | cons {s : State α ι} {x : α × ι} {out : List α} (hx : x ∈ s.queue)
      (hmin : ∀ y ∈ s.queue, le x.1 y.1) (h : Merges (s.replace x) out) : Merges s (x.1 :: out)

/-- Each run is in the queue once at most, and starts with its smallest element. -/
structure State.Sorted (s : State α ι) : Prop where
  nodup : (s.queue.map Prod.snd).Nodup
  runs : ∀ x ∈ s.queue, (x.1 :: s.runs x.2).Pairwise le

variable {le} [LawfulBEq (α × ι)] {s : State α ι} {x : α × ι}

omit [DecidableEq ι] in
/-- The other elements in the queue belong to other runs. -/
theorem snd_ne_of_mem_erase (hn : (s.queue.map Prod.snd).Nodup) (hx : x ∈ s.queue) {y : α × ι}
    (hy : y ∈ s.queue.erase x) : y.2 ≠ x.2 := by
  have hperm := (List.perm_cons_erase hx).map Prod.snd
  have hnodup := hperm.nodup_iff.mp hn
  rw [List.map_cons, List.nodup_cons] at hnodup
  intro h
  exact hnodup.1 (List.mem_map.mpr ⟨y, hy, h⟩)

theorem State.contents_perm (hn : (s.queue.map Prod.snd).Nodup) (hx : x ∈ s.queue) :
    s.contents.Perm (x.1 :: (s.replace x).contents) := by
  have hrest : ((s.queue.erase x).flatMap fun y => y.1 :: s.runs y.2) =
      (s.queue.erase x).flatMap fun y => y.1 :: (s.replace x).runs y.2 := by
    apply List.flatMap_congr
    intro y hy
    rw [State.runs_replace, Function.update_of_ne (snd_ne_of_mem_erase hn hx hy)]
  have hfirst : (s.replace x).contents =
      s.runs x.2 ++ (s.queue.erase x).flatMap fun y => y.1 :: s.runs y.2 := by
    rw [hrest, State.contents]
    cases hrun : s.runs x.2 with
    | nil => simp only [State.replace, hrun, List.nil_append]
    | cons y ys =>
      simp only [State.replace, hrun, List.flatMap_cons, Function.update_self, List.tail_cons,
        List.cons_append]
  rw [hfirst]
  exact (List.perm_cons_erase hx).flatMap_right _

theorem State.Sorted.replace (h : s.Sorted le) (hx : x ∈ s.queue) : (s.replace x).Sorted le := by
  have hperm := (List.perm_cons_erase hx).map Prod.snd
  have hnodup := hperm.nodup_iff.mp h.nodup
  rw [List.map_cons] at hnodup
  have hothers (y : α × ι) (hy : y ∈ s.queue.erase x) :
      (y.1 :: (s.replace x).runs y.2).Pairwise le := by
    rw [State.runs_replace, Function.update_of_ne (snd_ne_of_mem_erase h.nodup hx hy)]
    exact h.runs y (List.mem_of_mem_erase hy)
  have hrun := (List.pairwise_cons.mp (h.runs x hx)).2
  cases hr : s.runs x.2 with
  | nil =>
    have hqueue : (s.replace x).queue = s.queue.erase x := by rw [State.replace, hr]
    constructor
    · rw [hqueue]
      exact (List.nodup_cons.mp hnodup).2
    · rw [hqueue]
      exact hothers
  | cons y ys =>
    have hqueue : (s.replace x).queue = (y, x.2) :: s.queue.erase x := by rw [State.replace, hr]
    constructor
    · rw [hqueue]
      exact hnodup
    · rw [hqueue]
      intro z hz
      rcases List.mem_cons.mp hz with rfl | hz
      · rw [State.runs_replace, Function.update_self, hr]
        rw [hr] at hrun
        exact hrun
      · exact hothers z hz

omit [BEq (α × ι)] [DecidableEq ι] [LawfulBEq (α × ι)] in
/-- Everything left is at least as large as some element in the queue. -/
theorem State.Sorted.le_contents (h : s.Sorted le) (hr : ∀ a, le a a)
    (ht : ∀ a b c, le a b → le b c → le a c) {a : α} (ha : ∀ y ∈ s.queue, le a y.1) :
    ∀ b ∈ s.contents, le a b := by
  intro b hb
  obtain ⟨y, hy, hb⟩ := List.mem_flatMap.mp hb
  refine ht a y.1 b (ha y hy) ?_
  rcases List.mem_cons.mp hb with rfl | hb
  · exact hr _
  · exact (List.pairwise_cons.mp (h.runs y hy)).1 b hb

/-- What is taken out is sorted and complete. -/
theorem Merges.sorted_perm {out : List α} (h : Merges le s out) (hr : ∀ a, le a a)
    (ht : ∀ a b c, le a b → le b c → le a c) (hs : s.Sorted le) :
    out.Pairwise le ∧ out.Perm s.contents := by
  induction h with
  | nil h =>
    refine ⟨.nil, ?_⟩
    rw [State.contents, h]
    exact .nil
  | cons hx hmin h ih =>
    rename_i s x out
    obtain ⟨hsorted, hperm⟩ := ih (hs.replace hx)
    have hall := State.contents_perm hs.nodup hx
    refine ⟨List.pairwise_cons.mpr ⟨fun b hb => ?_, hsorted⟩, (hperm.cons x.1).trans hall.symm⟩
    apply hs.le_contents hr ht hmin
    exact hall.mem_iff.mpr (List.mem_cons_of_mem _ (hperm.mem_iff.mp hb))

end Silkworm.RunMerging
