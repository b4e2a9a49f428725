import Silkworm.ChainBranches

/-!
# Insertions of blocks

The ways in which an insertion returns. All of them but the first execute the branch that the
new block ends, on a state that has been unwound to the ancestor of the branch.
-/

namespace Silkworm.Blockchain
open MemoryBuffer Validity

variable (ex : Execution)

@[simp] theorem recoverSenders_header (block : Block) :
    (recoverSenders ex block).header = block.header := rfl

/-- The block as it is executed and stored. -/
def recovered (block : Block) : BlockWithHash := ⟨recoverSenders ex block, hash ex block.header⟩

/-- The execution of the branch that a block ends, with the error, the number of blocks that
were executed before it and the buffer that is left. -/
structure Attempt (c : Blockchain) (block : Block) (checkStateRoot : Bool) where
  parentNumber : ℕ
  ancestor : Uint64
  chain : List BlockWithHash
  err : ValidationResult
  executed : ℕ
  state : MemoryBuffer
  number : block.header.number.toNat = parentNumber + 1
  parent : (lookup c.state.headers parentNumber block.header.parentHash).isSome
  fresh : c.state.canonicalHash block.header.number ≠ some (hash ex block.header)
  branch : StoredBranch c.state ancestor chain parentNumber block.header.parentHash
  execution : executeChain ex checkStateRoot (chain ++ [recovered ex block]) 0
    (unwindLastChanges ancestor (c.state.currentCanonicalBlock.toNat - ancestor.toNat) c.state) =
      some (err, executed, state)

variable {ex}

/-- The buffer in which a block has been inserted after the execution of its branch. -/
def Attempt.inserted {c : Blockchain} {block : Block} {check : Bool}
    (a : Attempt ex c block check) : MemoryBuffer :=
  a.state.insertBlock (recoverSenders ex block) (hash ex block.header)

/-- An execution without error, with the difficulties that are compared after it. -/
structure Acceptance (ex : Execution) (c : Blockchain) (block : Block) (check : Bool) extends
    Attempt ex c block check where
  currentHash : Bytes32
  currentTotalDifficulty : Uint256
  ok : err = .ok
  number_lt : block.header.number.toNat + 1 < 2 ^ 64
  canonicalHash_current :
    toAttempt.inserted.canonicalHash c.state.currentCanonicalBlock = some currentHash
  totalDifficulty_current :
    toAttempt.inserted.totalDifficulty c.state.currentCanonicalBlock currentHash =
      some currentTotalDifficulty

/-- The new block is heavier than the current one. -/
def Acceptance.Heavier {c : Blockchain} {block : Block} {check : Bool}
    (a : Acceptance ex c block check) : Prop :=
  a.currentTotalDifficulty.toNat <
    ((a.inserted.totalDifficulty block.header.number (hash ex block.header)).map BitVec.toNat).getD 0

inductive Outcome (ex : Execution) (c : Blockchain) (block : Block) (check : Bool) :
    ValidationResult → Blockchain → Prop
  | refused {err : ValidationResult} (he : err ≠ .ok) : Outcome ex c block check err c
  | failed (a : Attempt ex c block check) (he : a.err ≠ .ok) {b : MemoryBuffer}
      (hr : restoreCanonicalChain ex a.ancestor c.state.currentCanonicalBlock a.executed a.state =
        some b) :
      Outcome ex c block check a.err
        { state := b, badBlocks := c.badBlocks.set (hash ex block.header) a.err }
  | heavier (a : Acceptance ex c block check) (hw : a.Heavier) :
      Outcome ex c block check .ok
        { c with
          state := canonizeChain a.ancestor c.state.currentCanonicalBlock
            (a.chain ++ [recovered ex block]) a.inserted }
  | lighter (a : Acceptance ex c block check) (hw : ¬a.Heavier) {b : MemoryBuffer}
      (hr : restoreCanonicalChain ex a.ancestor c.state.currentCanonicalBlock a.executed a.inserted =
        some b) : Outcome ex c block check .ok { c with state := b }

/-- Block numbers below the first one are no parents. -/
theorem WellStored.number_pos {b : MemoryBuffer} (hs : WellStored b) {header : BlockHeader}
    (hp : (getParent b header).isSome) : ∃ n, header.number.toNat = n + 1 ∧
      (lookup b.headers n header.parentHash).isSome := by
  obtain ⟨parent, hp⟩ := Option.isSome_iff_exists.mp hp
  change b.readHeader (header.number - 1) header.parentHash = some parent at hp
  rw [readHeader] at hp
  have hlt := (hs.number _ _ parent hp).2
  have hpos : header.number.toNat ≠ 0 := by
    intro h0
    rw [BitVec.toNat_sub, h0] at hlt
    simp only [BitVec.ofNat_eq_ofNat, BitVec.toNat_ofNat] at hlt
    omega
  obtain ⟨n, hn⟩ := Nat.exists_eq_succ_of_ne_zero hpos
  rw [toNat_sub_one hn] at hp
  exact ⟨n, hn, by rw [hp]; rfl⟩

/-- The branch above the ancestor that is read from the unwound buffer. -/
theorem storedBranch_of_intermediateChain {b b' : MemoryBuffer} (hs : WellStored b)
    (hb : SameBlocks b b') {header : BlockHeader} {h : Bytes32} {n : ℕ} {ancestor : Uint64}
    {chain : List BlockWithHash} (hn : header.number.toNat = n + 1)
    (ha : canonicalAncestor b header.number.toNat header h = some ancestor)
    (hle : ¬(header.number - 1).toNat < ancestor.toNat)
    (hi : intermediateChain b' ((header.number - 1).toNat - ancestor.toNat) (header.number - 1)
      header.parentHash = some chain) :
    b.canonicalHash header.number ≠ some h ∧
      StoredBranch b ancestor chain n header.parentHash := by
  rw [hn, canonicalAncestor] at ha
  split_ifs at ha with hc
  · cases ha
    rw [toNat_sub_one hn] at hle
    omega
  · obtain ⟨parent, hp, ha⟩ := Option.bind_eq_some_iff.mp ha
    rw [readHeader, toNat_sub_one hn] at hp
    obtain ⟨chain', hi', hbr⟩ := storedBranch_of_canonicalAncestor hs hp ha
    have hparent : header.number - 1 = parent.number :=
      BitVec.eq_of_toNat_eq (by rw [toNat_sub_one hn, (hs.number n _ parent hp).1])
    rw [intermediateChain_congr hb, toNat_sub_one hn, hparent, hi'] at hi
    cases hi
    exact ⟨hc, hbr⟩

/-- Every insertion that returns is one of the outcomes. -/
theorem insertBlock_outcome {c c' : Blockchain} {block : Block} {check : Bool}
    {err : ValidationResult} (hs : WellStored c.state)
    (hbad : ∀ h e, c.badBlocks.find h = some e → e ≠ .ok)
    (h : insertBlock ex block check c = some (err, c')) : Outcome ex c block check err c' := by
  unfold insertBlock at h
  dsimp only at h
  by_cases hv : preValidateBlock ex.toChainRules c.state block = .ok
  swap
  · rw [if_pos hv] at h
    cases h
    exact .refused hv
  rw [if_neg (not_not.mpr hv)] at h
  cases hf : c.badBlocks.find (hash ex block.header) with
  | some e =>
    rw [hf] at h
    cases h
    exact .refused (hbad _ _ hf)
  | none =>
    rw [hf] at h
    obtain ⟨n, hn, hp⟩ := hs.number_pos (getParent_isSome_of_preValidateBlock hv)
    obtain ⟨ancestor, ha, h⟩ := Option.bind_eq_some_iff.mp h
    by_cases hle : ((recoverSenders ex block).header.number - 1).toNat < ancestor.toNat
    · rw [if_pos hle] at h
      cases h
    rw [if_neg hle] at h
    obtain ⟨chain, hi, h⟩ := Option.bind_eq_some_iff.mp h
    obtain ⟨⟨e, executed, b⟩, hex, h⟩ := Option.bind_eq_some_iff.mp h
    obtain ⟨hfresh, hbr⟩ := storedBranch_of_intermediateChain hs
      (sameBlocks_unwindLastChanges ancestor _ c.state) hn ha hle hi
    let a : Attempt ex c block check :=
      ⟨n, ancestor, chain, e, executed, b, hn, hp, hfresh, hbr, hex⟩
    dsimp only at h
    by_cases he : e = .ok
    swap
    · rw [if_pos he] at h
      obtain ⟨b', hr, h⟩ := Option.bind_eq_some_iff.mp h
      cases h
      exact .failed a he hr
    rw [if_neg (not_not.mpr he)] at h
    by_cases hmax : (recoverSenders ex block).header.number.toNat + 1 = 2 ^ 64
    · rw [if_pos hmax] at h
      cases h
    rw [if_neg hmax] at h
    obtain ⟨currentHash, hch, h⟩ := Option.bind_eq_some_iff.mp h
    obtain ⟨currentTotalDifficulty, htd, h⟩ := Option.bind_eq_some_iff.mp h
    have hlt := block.header.number.isLt
    let acc : Acceptance ex c block check :=
      ⟨a, currentHash, currentTotalDifficulty, he, Nat.lt_of_le_of_ne hlt hmax, hch, htd⟩
    split_ifs at h with hw
    · cases h
      exact .heavier acc hw
    · obtain ⟨b', hr, h⟩ := Option.bind_eq_some_iff.mp h
      cases h
      exact .lighter acc hw hr

end Silkworm.Blockchain
