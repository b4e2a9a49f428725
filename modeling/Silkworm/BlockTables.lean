import Silkworm.Blockchain

/-!
# The tables of blocks

What the tables of the buffer hold after a block has been inserted or made canonical, and
that the execution of blocks leaves them alone.
-/

namespace Silkworm.MemoryBuffer

section Tables

variable {V : Type}

theorem resize_of_length_le {α : Type} {l : List α} {n : ℕ} (h : l.length ≤ n) (fill : α) :
    resize l n fill = l ++ List.replicate (n - l.length) fill := by
  rw [resize, List.take_of_length_le h]

@[simp] theorem lookup_grow (table : List (HashMap Bytes32 V)) (n m : ℕ) (h : Bytes32) :
    lookup (grow table n) m h = lookup table m h := by
  unfold grow
  split_ifs with hn
  · rw [resize_of_length_le (by omega), lookup, lookup]
    by_cases hm : m < table.length
    · rw [List.getElem?_append_left hm]
    · rw [List.getElem?_append_right (by omega), List.getElem?_replicate,
        List.getElem?_eq_none (by omega)]
      split_ifs
      · exact HashMap.find_empty h
      · rfl
  · rfl

theorem lt_length_grow (table : List (HashMap Bytes32 V)) (n : ℕ) : n < (grow table n).length := by
  unfold grow
  split_ifs with hn
  · rw [resize_of_length_le (by omega), List.length_append, List.length_replicate]
    omega
  · omega

theorem lookup_store (table : List (HashMap Bytes32 V)) (n m : ℕ) (h k : Bytes32) (v : V) :
    lookup (store table n h v) m k = if m = n ∧ k = h then some v else lookup table m k := by
  rw [← lookup_grow table n m k, store, lookup, lookup, List.getElem?_modify]
  by_cases hm : m = n
  · subst hm
    obtain ⟨t, ht⟩ : ∃ t, (grow table m)[m]? = some t :=
      ⟨_, List.getElem?_eq_getElem (lt_length_grow table m)⟩
    rw [ht]
    simp [HashMap.find_set]
  · have hne : ¬n = m := fun h => hm h.symm
    simp [hm, hne]

/-- The difficulty of a stored parent is not inserted again. -/
theorem lookup_parentDifficulty {table : List (HashMap Bytes32 Uint256)} {header : BlockHeader}
    (hp : header.number ≠ 0 →
      (lookup table (header.number.toNat - 1) header.parentHash).isSome) (n : ℕ) (h : Bytes32) :
    lookup (parentDifficulty table header).2 n h = lookup table n h := by
  unfold parentDifficulty
  split_ifs with h0
  · rfl
  · dsimp only
    rw [lookup, lookup, List.getElem?_modify]
    by_cases hn : header.number.toNat - 1 = n
    · have hp := hp h0
      rw [hn, lookup] at hp
      cases ht : table[n]? with
      | none => rfl
      | some m =>
        rw [ht, Option.bind_some] at hp
        simp [hn, HashMap.tryEmplace, hp]
    · simp [hn]

end Tables

section Insertion

variable (block : Block) (hash : Bytes32) (b : MemoryBuffer)

theorem lookup_headers_insertBlock (n : ℕ) (h : Bytes32) :
    lookup (b.insertBlock block hash).headers n h =
      if n = block.header.number.toNat ∧ h = hash then some block.header
      else lookup b.headers n h := lookup_store ..

theorem lookup_bodies_insertBlock (n : ℕ) (h : Bytes32) :
    lookup (b.insertBlock block hash).bodies n h =
      if n = block.header.number.toNat ∧ h = hash then some block.toBlockBody
      else lookup b.bodies n h := lookup_store ..

variable {block b} in
theorem lookup_difficulty_insertBlock (hp : block.header.number ≠ 0 →
    (lookup b.difficulty (block.header.number.toNat - 1) block.header.parentHash).isSome)
    (n : ℕ) (h : Bytes32) :
    lookup (b.insertBlock block hash).difficulty n h =
      if n = block.header.number.toNat ∧ h = hash then
        some ((parentDifficulty b.difficulty block.header).1 + block.header.difficulty)
      else lookup b.difficulty n h := by
  have htd : (parentDifficulty (grow b.difficulty block.header.number.toNat) block.header).1 =
      (parentDifficulty b.difficulty block.header).1 := by
    unfold parentDifficulty
    split_ifs
    · rfl
    · simp only [lookup_grow]
  refine (lookup_store
    (parentDifficulty (grow b.difficulty block.header.number.toNat) block.header).2
    block.header.number.toNat n hash h
    ((parentDifficulty (grow b.difficulty block.header.number.toNat) block.header).1 +
      block.header.difficulty)).trans ?_
  rw [lookup_parentDifficulty (by simpa using hp), lookup_grow, htd]

theorem canonicalHashes_canonizeBlock {n : Uint64} (hn : n.toNat = b.canonicalHashes.length) :
    (b.canonizeBlock n hash).canonicalHashes = b.canonicalHashes ++ [hash] := by
  rw [canonizeBlock]
  dsimp only
  rw [if_pos hn.ge, hn, resize_of_length_le (by omega), Nat.add_sub_cancel_left,
    List.replicate_one, List.set_append_right _ _ le_rfl, Nat.sub_self]
  rfl

end Insertion

/-- The tables of blocks are the same. -/
structure SameBlocks (b b' : MemoryBuffer) : Prop where
  headers : b'.headers = b.headers
  bodies : b'.bodies = b.bodies
  difficulty : b'.difficulty = b.difficulty
  canonicalHashes : b'.canonicalHashes = b.canonicalHashes

variable {b b' b'' : MemoryBuffer}

theorem SameBlocks.refl (b : MemoryBuffer) : SameBlocks b b := ⟨rfl, rfl, rfl, rfl⟩

theorem SameBlocks.trans (h : SameBlocks b b') (h' : SameBlocks b' b'') : SameBlocks b b'' :=
  ⟨h'.headers.trans h.headers, h'.bodies.trans h.bodies, h'.difficulty.trans h.difficulty,
    h'.canonicalHashes.trans h.canonicalHashes⟩

theorem sameBlocks_unwindStateChanges (n : Uint64) (b : MemoryBuffer) :
    SameBlocks b (b.unwindStateChanges n) := ⟨rfl, rfl, rfl, rfl⟩

theorem sameBlocks_apply (u : Update) (b : MemoryBuffer) : SameBlocks b (u.apply b) := by
  cases u with
  | account a initial current =>
    dsimp only [Update.apply, updateAccount]
    cases current with
    | some account => exact ⟨rfl, rfl, rfl, rfl⟩
    | none => cases initial <;> exact ⟨rfl, rfl, rfl, rfl⟩
  | code a incarnation codeHash bytes => exact ⟨rfl, rfl, rfl, rfl⟩
  | storage a incarnation location initial current => exact ⟨rfl, rfl, rfl, rfl⟩

end Silkworm.MemoryBuffer

namespace Silkworm.Blockchain
open MemoryBuffer

variable {ex : Execution} {b b' : MemoryBuffer}

theorem sameBlocks_writeBlock (block : Block) (updates : List Update) (b : MemoryBuffer) :
    SameBlocks b (writeBlock block updates b) := by
  have hfold : ∀ (us : List Update) (b : MemoryBuffer), SameBlocks b (us.foldl Update.apply b) := by
    intro us
    induction us with
    | nil => exact .refl
    | cons u us ih => exact fun b => (sameBlocks_apply u b).trans (ih _)
  have hbegin : SameBlocks b (b.beginBlock block.header.number) := ⟨rfl, rfl, rfl, rfl⟩
  exact hbegin.trans (hfold updates _)

theorem sameBlocks_executeBlock {block : Block} {check : Bool} {err : ValidationResult}
    (h : executeBlock ex block check b = some (err, b')) : SameBlocks b b' := by
  unfold executeBlock at h
  split at h
  · cases h
    exact .refl b
  · rename_i updates _
    have hw := sameBlocks_writeBlock block updates b
    dsimp only at h
    split_ifs at h
    · obtain ⟨root, -, hroot⟩ := Option.bind_eq_some_iff.mp h
      split_ifs at hroot
      · cases hroot
        exact hw.trans (sameBlocks_unwindStateChanges _ _)
      · cases hroot
        exact hw
    · cases h
      exact hw

theorem sameBlocks_unwindLastChanges (ancestor : Uint64) (count : ℕ) (b : MemoryBuffer) :
    SameBlocks b (unwindLastChanges ancestor count b) := by
  induction count generalizing b with
  | zero => exact .refl b
  | succ count ih => exact (sameBlocks_unwindStateChanges _ b).trans (ih _)

theorem sameBlocks_reExecuteCanonicalChain {ancestor : Uint64} {count : ℕ}
    (h : reExecuteCanonicalChain ex ancestor count b = some b') : SameBlocks b b' := by
  induction count generalizing b' with
  | zero =>
    cases h
    exact .refl b
  | succ count ih =>
    obtain ⟨b₁, h₁, h⟩ := Option.bind_eq_some_iff.mp h
    obtain ⟨k, -, h⟩ := Option.bind_eq_some_iff.mp h
    obtain ⟨block, -, h⟩ := Option.bind_eq_some_iff.mp h
    obtain ⟨⟨err, b₂⟩, h₂, h⟩ := Option.bind_eq_some_iff.mp h
    cases h
    exact (ih h₁).trans (sameBlocks_executeBlock h₂)

theorem sameBlocks_restoreCanonicalChain {ancestor current : Uint64} {executed : ℕ}
    (h : restoreCanonicalChain ex ancestor current executed b = some b') : SameBlocks b b' :=
  (sameBlocks_unwindLastChanges ancestor executed b).trans (sameBlocks_reExecuteCanonicalChain h)

theorem sameBlocks_executeChain {check : Bool} {chain : List BlockWithHash} {n m : ℕ}
    {err : ValidationResult} (h : executeChain ex check chain n b = some (err, m, b')) :
    SameBlocks b b' := by
  induction chain generalizing n b with
  | nil =>
    cases h
    exact .refl _
  | cons x chain ih =>
    obtain ⟨⟨err₁, b₁⟩, h₁, h⟩ := Option.bind_eq_some_iff.mp h
    dsimp only at h
    split_ifs at h
    · cases h
      exact sameBlocks_executeBlock h₁
    · exact (sameBlocks_executeBlock h₁).trans (ih h)

end Silkworm.Blockchain
