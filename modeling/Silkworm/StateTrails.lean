import Silkworm.StateChanges

/-!
# Trails of states

The trail of the worlds that the blocks of a chain lead through, with change sets that lead
back. Unwinding shortens the trail and executing blocks makes it longer.
-/

namespace Silkworm.Blockchain
open MemoryBuffer

/-- The execution of a block depends on the world alone, and its updates report the values of
the world in which the block began. -/
structure Faithful (ex : Execution) : Prop where
  world : ∀ b b' block, b.world = b'.world → ex.execute b block = ex.execute b' block
  reports : ∀ b block updates, ex.execute b block = .ok updates →
    ∀ u ∈ updates, u.Reports b.world

/-- A block leads from one world to another. -/
def Executes (ex : Execution) (w : World) (block : Block) (w' : World) : Prop :=
  ∃ b updates, b.world = w ∧ ex.execute b block = .ok updates ∧ w' = updates.foldl Update.onWorld w

/-- The blocks lead from a first world to a last one, and the change sets lead back. -/
inductive Trail (ex : Execution) (b : MemoryBuffer) (first : World) : List Block → World → Prop
  | nil : Trail ex b first [] first
  | snoc {blocks : List Block} {block : Block} {w w' : World} (ht : Trail ex b first blocks w)
      (hn : block.header.number.toNat = blocks.length + 1) (he : Executes ex w block w')
      (hu : b.undo block.header.number w' = w) : Trail ex b first (blocks ++ [block]) w'

section Trails

variable {ex : Execution} {b b' : MemoryBuffer} {first w w' : World} {blocks : List Block}
  {block : Block}

theorem Trail.congr (ht : Trail ex b first blocks w)
    (h : ∀ n : Uint64, n.toNat ≤ blocks.length → b'.undo n = b.undo n) :
    Trail ex b' first blocks w := by
  induction ht with
  | nil => exact .nil
  | @snoc blocks block w w' _ hn he hu ih =>
    have hlen : (blocks ++ [block]).length = blocks.length + 1 := List.length_append
    refine (ih fun n hle => h n (by omega)).snoc hn he ?_
    rw [h _ (by omega), hu]

/-- The last step of a trail. -/
theorem Trail.last (ht : Trail ex b first (blocks ++ [block]) w') :
    ∃ w, Trail ex b first blocks w ∧ block.header.number.toNat = blocks.length + 1 ∧
      Executes ex w block w' ∧ b.undo block.header.number w' = w := by
  generalize hl : blocks ++ [block] = l at ht
  cases ht with
  | nil => simp at hl
  | snoc ht hn he hu =>
    obtain ⟨rfl, hx⟩ := List.append_inj' hl rfl
    cases hx
    exact ⟨_, ht, hn, he, hu⟩

theorem Executes.execute (hf : Faithful ex) (he : Executes ex w block w') (hb : b.world = w) :
    ∃ updates, ex.execute b block = .ok updates ∧ (writeBlock block updates b).world = w' := by
  obtain ⟨b₀, updates, hw, hex, rfl⟩ := he
  refine ⟨updates, ?_, by rw [world_writeBlock, hb]⟩
  rw [hf.world b b₀ block (hb.trans hw.symm), hex]

theorem Executes.unique (hf : Faithful ex) {w₁ w₂ : World} (h₁ : Executes ex w block w₁)
    (h₂ : Executes ex w block w₂) : w₁ = w₂ := by
  obtain ⟨b, updates, hb, hex, rfl⟩ := h₁
  obtain ⟨updates', hex', hw⟩ := h₂.execute hf hb
  rw [hex] at hex'
  cases hex'
  rw [← hw, world_writeBlock, hb]

theorem Trail.unique (hf : Faithful ex) (ht : Trail ex b first blocks w)
    (ht' : Trail ex b' first blocks w') : w = w' := by
  induction ht generalizing w' with
  | nil =>
    generalize hl : ([] : List Block) = l at ht'
    cases ht' with
    | nil => rfl
    | snoc => simp at hl
  | snoc _ _ he _ ih =>
    obtain ⟨w₁, ht₁, -, he₁, -⟩ := ht'.last
    rw [← ih ht₁] at he₁
    exact he.unique hf he₁

/-- The loop that unwinds the blocks above the ancestor. -/
theorem Trail.unwind (ht : Trail ex b first blocks b.world) {ancestor : Uint64} {count : ℕ}
    (hlen : blocks.length = ancestor.toNat + count) :
    Trail ex (unwindLastChanges ancestor count b) first (blocks.take ancestor.toNat)
      (unwindLastChanges ancestor count b).world := by
  induction count generalizing b blocks with
  | zero =>
    rw [List.take_of_length_le (by omega)]
    exact ht
  | succ count ih =>
    obtain rfl | ⟨blocks', block, rfl⟩ := List.eq_nil_or_concat blocks
    · cases hlen
    rw [List.concat_eq_append] at ht hlen ⊢
    obtain ⟨w, ht', hn, -, hu⟩ := ht.last
    rw [List.length_append, List.length_singleton] at hlen
    have hnum : ancestor + BitVec.ofNat 64 (count + 1) = block.header.number := by
      refine BitVec.eq_of_toNat_eq ?_
      have := block.header.number.isLt
      rw [BitVec.toNat_add, BitVec.toNat_ofNat]
      omega
    rw [List.take_append_of_le_length (by omega), unwindLastChanges, hnum]
    refine ih ?_ (by omega)
    rw [world_unwindStateChanges, hu]
    exact ht'.congr fun _ _ => rfl

/-- A block that is executed without error makes the trail longer. -/
theorem Trail.write (hf : Faithful ex) (ht : Trail ex b first blocks b.world)
    (hn : block.header.number.toNat = blocks.length + 1) {updates : List Update}
    (hex : ex.execute b block = .ok updates) :
    Trail ex (writeBlock block updates b) first (blocks ++ [block])
      (writeBlock block updates b).world := by
  have hr : Recording block.header.number b (writeBlock block updates b) :=
    recording_writeBlock (hf.reports b block updates hex)
  refine (ht.congr fun n hle => hr.others n ?_).snoc hn
    ⟨b, updates, rfl, hex, world_writeBlock block updates b⟩ hr.undo
  rintro rfl
  omega

theorem Trail.executeBlock (hf : Faithful ex) (ht : Trail ex b first blocks b.world)
    (hn : block.header.number.toNat = blocks.length + 1) {check : Bool} {err : ValidationResult}
    (h : executeBlock ex block check b = some (err, b')) :
    Trail ex b' first (if err = .ok then blocks ++ [block] else blocks) b'.world := by
  unfold Blockchain.executeBlock at h
  cases hex : ex.execute b block with
  | error e =>
    rw [hex] at h
    cases h
    rw [if_neg e.property]
    exact ht
  | ok updates =>
    rw [hex] at h
    dsimp only at h
    have ht' := ht.write hf hn hex
    split_ifs at h with hcheck
    · obtain ⟨root, -, h⟩ := Option.bind_eq_some_iff.mp h
      split_ifs at h
      · -- The wrong root has been found after the block was written.
        cases h
        rw [if_neg nofun, world_unwindStateChanges]
        obtain ⟨w, ht₁, -, -, hu⟩ := ht'.last
        rw [hu]
        exact ht₁.congr fun _ _ => rfl
      · cases h
        rw [if_pos rfl]
        exact ht'
    · cases h
      rw [if_pos rfl]
      exact ht'

/-- The executed blocks of a chain make the trail longer. -/
theorem Trail.executeChain (hf : Faithful ex) {check : Bool} {chain : List BlockWithHash}
    {n m : ℕ} {err : ValidationResult} (ht : Trail ex b first blocks b.world)
    (hn : ∀ i x, chain[i]? = some x → x.block.header.number.toNat = blocks.length + i + 1)
    (h : executeChain ex check chain n b = some (err, m, b')) :
    ∃ k, m = n + k ∧ k ≤ chain.length ∧ (err = .ok → k = chain.length) ∧
      Trail ex b' first (blocks ++ (chain.take k).map BlockWithHash.block) b'.world := by
  induction chain generalizing b blocks n with
  | nil =>
    cases h
    exact ⟨0, rfl, le_rfl, fun _ => rfl, by simpa using ht⟩
  | cons x chain ih =>
    obtain ⟨⟨err₁, b₁⟩, h₁, h⟩ := Option.bind_eq_some_iff.mp h
    have ht₁ := ht.executeBlock hf (hn 0 x rfl) h₁
    dsimp only at h
    split_ifs at h with he
    · cases h
      rw [if_neg he] at ht₁
      exact ⟨0, rfl, Nat.zero_le _, fun h => absurd h he, by simpa using ht₁⟩
    · rw [if_pos (not_not.mp he)] at ht₁
      obtain ⟨k, rfl, hk, hok, htk⟩ := ih ht₁ (fun i y hi => by
        rw [List.length_append, List.length_singleton]
        have := hn (i + 1) y hi
        omega) h
      refine ⟨k + 1, by omega, Nat.succ_le_succ hk, fun h => congrArg Nat.succ (hok h), ?_⟩
      simpa using htk

end Trails

end Silkworm.Blockchain
