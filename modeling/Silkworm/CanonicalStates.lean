import Silkworm.ForkChoice
import Silkworm.StateTrails

/-!
# States of the canonical chain

After every insertion that returns, the accounts and the storage are those that the blocks of
the canonical chain lead to.
-/

namespace Silkworm.Blockchain
open MemoryBuffer

section Blocks

/-- The blocks of the canonical chain above the genesis block up to a number. -/
def canonicalBlocks (b : MemoryBuffer) : ℕ → Option (List Block)
  | 0 => some []
  | n + 1 => do
    let blocks ← canonicalBlocks b n
    let h ← b.canonicalHash (BitVec.ofNat 64 (n + 1))
    let block ← readBlock b (BitVec.ofNat 64 (n + 1)) h
    some (blocks ++ [block])

variable {b b' : MemoryBuffer}

theorem canonicalBlocks_succ {n : ℕ} {blocks : List Block} :
    canonicalBlocks b (n + 1) = some blocks ↔ ∃ blocks' h block,
      canonicalBlocks b n = some blocks' ∧ b.canonicalHash (BitVec.ofNat 64 (n + 1)) = some h ∧
      readBlock b (BitVec.ofNat 64 (n + 1)) h = some block ∧ blocks = blocks' ++ [block] := by
  simp only [canonicalBlocks, Option.bind_eq_bind, Option.bind_eq_some_iff, Option.some.injEq]
  constructor
  · rintro ⟨blocks', h₁, h, h₂, block, h₃, rfl⟩
    exact ⟨blocks', h, block, h₁, h₂, h₃, rfl⟩
  · rintro ⟨blocks', h, block, h₁, h₂, h₃, rfl⟩
    exact ⟨blocks', h₁, h, h₂, block, h₃, rfl⟩

theorem length_canonicalBlocks {n : ℕ} {blocks : List Block}
    (h : canonicalBlocks b n = some blocks) : blocks.length = n := by
  induction n generalizing blocks with
  | zero =>
    cases h
    rfl
  | succ n ih =>
    obtain ⟨blocks', k, block, hn, -, -, rfl⟩ := canonicalBlocks_succ.mp h
    rw [List.length_append, ih hn]
    rfl

theorem canonicalBlocks_take {n m : ℕ} (hle : m ≤ n) {blocks : List Block}
    (h : canonicalBlocks b n = some blocks) : canonicalBlocks b m = some (blocks.take m) := by
  induction n generalizing blocks with
  | zero =>
    obtain rfl := Nat.le_zero.mp hle
    cases h
    rfl
  | succ n ih =>
    by_cases hm : m = n + 1
    · subst hm
      rw [h, List.take_of_length_le (length_canonicalBlocks h).le]
    · obtain ⟨blocks', k, block, hn, -, -, rfl⟩ := canonicalBlocks_succ.mp h
      have hlen := length_canonicalBlocks hn
      rw [ih (by omega) hn, List.take_append_of_le_length (by omega)]

/-- The same canonical hashes and blocks up to a number. -/
theorem canonicalBlocks_congr {n : ℕ} (hn : n < 2 ^ 64)
    (hc : ∀ i ≤ n, b'.canonicalHashes[i]? = b.canonicalHashes[i]?)
    (hr : ∀ (i : Uint64) h, i.toNat ≤ n → b.canonicalHashes[i.toNat]? = some h →
      readBlock b' i h = readBlock b i h) : canonicalBlocks b' n = canonicalBlocks b n := by
  induction n with
  | zero => rfl
  | succ n ih =>
    have hto : (BitVec.ofNat 64 (n + 1)).toNat = n + 1 := by
      rw [BitVec.toNat_ofNat, Nat.mod_eq_of_lt hn]
    rw [canonicalBlocks, canonicalBlocks, ih (by omega) (fun i hi => hc i (by omega))
      fun i h hi => hr i h (by omega), canonicalHash, canonicalHash, hto, hc (n + 1) le_rfl]
    cases hk : b.canonicalHashes[n + 1]? with
    | none => rfl
    | some h =>
      simp only [Option.bind_eq_bind, Option.bind_some]
      rw [hr _ h (by omega) (by rw [hto, hk])]

/-- The blocks of a branch that is canonical. -/
theorem canonicalBlocks_branch {canonical : List Bytes32} {ancestor n : ℕ}
    {chain : List BlockWithHash} {h : Bytes32} (hb : Branch canonical ancestor chain n h)
    (hc : ∀ i x, chain[i]? = some x → b.canonicalHashes[ancestor + i + 1]? = some x.hash)
    (hr : ∀ x ∈ chain, readBlock b x.block.header.number x.hash = some x.block)
    {blocks : List Block} (hblocks : canonicalBlocks b ancestor = some blocks) :
    canonicalBlocks b n = some (blocks ++ chain.map BlockWithHash.block) := by
  induction hb with
  | nil _ => rw [hblocks, List.map_nil, List.append_nil]
  | @snoc chain n h hb x hn _ ih =>
    have hlen := hb.length_eq
    have hnum : x.block.header.number = BitVec.ofNat 64 (n + 1) := by
      rw [← hn, BitVec.ofNat_toNat, BitVec.setWidth_eq]
    have hx := hc chain.length x (by simp)
    rw [hlen, ← hn] at hx
    refine canonicalBlocks_succ.mpr ⟨blocks ++ chain.map BlockWithHash.block, x.hash, x.block,
      ih (fun i y hy => hc i y ?_) fun y hy => hr y (List.mem_append_left _ hy), ?_, ?_, by simp⟩
    · rw [List.getElem?_append_left (List.getElem?_eq_some_iff.mp hy).1, hy]
    · rw [← hnum]
      exact hx
    · rw [← hnum]
      exact hr x (by simp)

end Blocks

section Restoring

variable {ex : Execution} {b b' b₀ : MemoryBuffer} {first w : World} {blocks : List Block}

/-- The loop that executes the canonical chain again from the ancestor on. -/
theorem Trail.reExecute (hf : Faithful ex) {ancestor : Uint64} {count : ℕ}
    (hlt : ancestor.toNat + count < 2 ^ 64)
    (hblocks : canonicalBlocks b (ancestor.toNat + count) = some blocks)
    (hold : Trail ex b₀ first blocks w)
    (ht : Trail ex b first (blocks.take ancestor.toNat) b.world)
    (h : reExecuteCanonicalChain ex ancestor count b = some b') :
    Trail ex b' first blocks b'.world := by
  induction count generalizing b' blocks w with
  | zero =>
    cases h
    have hlen := length_canonicalBlocks hblocks
    rwa [List.take_of_length_le (by omega)] at ht
  | succ count ih =>
    obtain ⟨b₁, h₁, h⟩ := Option.bind_eq_some_iff.mp h
    obtain ⟨k, hk, h⟩ := Option.bind_eq_some_iff.mp h
    obtain ⟨block, hr, h⟩ := Option.bind_eq_some_iff.mp h
    obtain ⟨⟨err, b₂⟩, h₂, h⟩ := Option.bind_eq_some_iff.mp h
    cases h
    have hs := sameBlocks_reExecuteCanonicalChain h₁
    have hnum : ancestor + BitVec.ofNat 64 (count + 1) =
        BitVec.ofNat 64 (ancestor.toNat + count + 1) := by
      refine BitVec.eq_of_toNat_eq ?_
      simp only [BitVec.toNat_add, BitVec.toNat_ofNat]
      omega
    rw [← Nat.add_assoc] at hblocks
    obtain ⟨blocks', k', block', hb', hk', hr', rfl⟩ := canonicalBlocks_succ.mp hblocks
    have hlen := length_canonicalBlocks hb'
    rw [hnum, canonicalHash, hs.canonicalHashes] at hk
    rw [canonicalHash, hk] at hk'
    cases hk'
    rw [hnum, readBlock_congr hs, hr'] at hr
    cases hr
    obtain ⟨w', hold', hn, he, -⟩ := hold.last
    have ht₁ := ih (by omega) hb' hold'
      (by rwa [List.take_append_of_le_length (by omega)] at ht) h₁
    obtain ⟨updates, hex, -⟩ := he.execute hf (ht₁.unique hf hold')
    have herr : err = .ok := by
      rw [Blockchain.executeBlock, hex] at h₂
      cases h₂
      rfl
    have ht₂ := ht₁.executeBlock hf hn h₂
    rwa [if_pos herr] at ht₂

theorem canonicalBlocks_of_sameBlocks (hs : SameBlocks b b') {n : ℕ} (hn : n < 2 ^ 64) :
    canonicalBlocks b' n = canonicalBlocks b n :=
  canonicalBlocks_congr hn (fun _ _ => by rw [hs.canonicalHashes])
    fun _ _ _ _ => by rw [readBlock_congr hs]

/-- Back to the canonical chain after other blocks were executed above the ancestor. -/
theorem Trail.restore (hf : Faithful ex) {ancestor current : Uint64}
    (hle : ancestor.toNat ≤ current.toNat)
    (hblocks : canonicalBlocks b current.toNat = some blocks) (hold : Trail ex b₀ first blocks w)
    {others : List Block}
    (ht : Trail ex b first (blocks.take ancestor.toNat ++ others) b.world)
    (h : restoreCanonicalChain ex ancestor current others.length b = some b') :
    Trail ex b' first blocks b'.world := by
  have hlen := length_canonicalBlocks hblocks
  have htake : (blocks.take ancestor.toNat).length = ancestor.toNat := by
    rw [List.length_take]
    omega
  have hsum : (blocks.take ancestor.toNat ++ others).length = ancestor.toNat + others.length := by
    rw [List.length_append, htake]
  have hu := ht.unwind hsum
  rw [List.take_append_of_le_length htake.ge, List.take_take, Nat.min_self] at hu
  have hcur : ancestor.toNat + (current.toNat - ancestor.toNat) = current.toNat := by omega
  have hs := sameBlocks_unwindLastChanges ancestor others.length b
  refine hold.reExecute hf (by rw [hcur]; exact current.isLt) ?_ hu h
  rw [hcur, canonicalBlocks_of_sameBlocks hs current.isLt, hblocks]

end Restoring

section Insertion

/-- The state is the one to which the canonical chain leads. -/
def Follows (ex : Execution) (first : World) (b : MemoryBuffer) : Prop :=
  ∃ blocks, canonicalBlocks b b.currentCanonicalBlock.toNat = some blocks ∧
    Trail ex b first blocks b.world

variable {ex : Execution} {genesis : Block} {inserted blocks : List Block} {c c' : Blockchain}
  {block : Block} {check : Bool} {err : ValidationResult} {first : World}

/-- The blocks other than the new one stay as they are. -/
theorem Acceptance.readBlock_inserted (a : Acceptance ex c block check) {i : Uint64} {h : Bytes32}
    (hne : ¬(i.toNat = block.header.number.toNat ∧ h = hash ex block.header)) :
    readBlock a.inserted i h = readBlock c.state i h := by
  have hs := a.sameBlocks
  rw [readBlock, readBlock, readBody, readBody, readHeader, readHeader, Attempt.inserted,
    lookup_bodies_insertBlock, lookup_headers_insertBlock, recoverSenders_header, if_neg hne,
    if_neg hne, hs.bodies, hs.headers]

theorem Acceptance.readBlock_recovered (a : Acceptance ex c block check) :
    readBlock a.inserted block.header.number (hash ex block.header) =
      some (recoverSenders ex block) := by
  rw [readBlock, readBody, readHeader, Attempt.inserted, lookup_bodies_insertBlock,
    lookup_headers_insertBlock, recoverSenders_header, if_pos ⟨rfl, rfl⟩, if_pos ⟨rfl, rfl⟩]
  rfl

theorem Acceptance.canonicalBlocks_inserted (a : Acceptance ex c block check) {n : ℕ}
    (hn : n < 2 ^ 64) : canonicalBlocks a.inserted n = canonicalBlocks c.state n := by
  refine canonicalBlocks_congr hn (fun i _ => by rw [a.canonicalHashes_inserted]) ?_
  intro i h _ hi
  refine a.readBlock_inserted ?_
  rintro ⟨hn, rfl⟩
  rw [hn] at hi
  exact a.fresh hi

/-- The canonical blocks after the branch of the new block became canonical. -/
theorem Acceptance.canonicalBlocks_canonized (a : Acceptance ex c block check)
    (h : canonicalBlocks c.state a.ancestor.toNat = some blocks) :
    canonicalBlocks a.canonized (a.parentNumber + 1) =
      some (blocks ++ (a.chain ++ [recovered ex block]).map BlockWithHash.block) := by
  have hanc := a.branch.branch.ancestor_lt
  have hle := a.branch.branch.ancestor_le
  have hnum := a.number
  have hlen : (c.state.canonicalHashes.take (a.ancestor.toNat + 1)).length =
      a.ancestor.toNat + 1 := by
    rw [List.length_take]
    omega
  refine canonicalBlocks_branch a.branch_recovered (fun i x hx => ?_) (fun x hx => ?_) ?_
  · rw [Acceptance.canonized, List.getElem?_append_right (by omega), hlen, List.getElem?_map,
      show a.ancestor.toNat + i + 1 - (a.ancestor.toNat + 1) = i by omega, hx]
    rfl
  · rcases List.mem_append.mp hx with hx | hx
    · have := a.branch.branch.number_le x hx
      exact (a.readBlock_inserted (by omega)).trans (a.branch.stored x hx)
    · cases List.mem_singleton.mp hx
      exact a.readBlock_recovered
  · rw [← h]
    refine canonicalBlocks_congr a.ancestor.isLt (fun i hi => ?_) fun i k hi _ => ?_
    · rw [Acceptance.canonized, List.getElem?_append_left (by omega), List.getElem?_take,
        if_pos (by omega)]
    · exact a.readBlock_inserted (by omega)

/-- The trail of the blocks that were executed on the branch of a new block. -/
theorem Attempt.trail (hf : Faithful ex) (hc : Consistent ex genesis inserted c.state)
    (hblocks : canonicalBlocks c.state c.state.currentCanonicalBlock.toNat = some blocks)
    (ht : Trail ex c.state first blocks c.state.world) (a : Attempt ex c block check) :
    ∃ others, others.length = a.executed ∧
      (a.err = .ok → others = (a.chain ++ [recovered ex block]).map BlockWithHash.block) ∧
      Trail ex a.state first (blocks.take a.ancestor.toNat ++ others) a.state.world := by
  have hcur := hc.wellStored.currentCanonicalBlock
  have hanc := a.branch.branch.ancestor_lt
  have hlen := length_canonicalBlocks hblocks
  have hsum : blocks.length =
      a.ancestor.toNat + (c.state.currentCanonicalBlock.toNat - a.ancestor.toNat) := by omega
  have hu := ht.unwind hsum
  have htake : (blocks.take a.ancestor.toNat).length = a.ancestor.toNat := by
    rw [List.length_take]
    omega
  obtain ⟨k, hk, hle, hok, htk⟩ := hu.executeChain hf
    (by rw [htake]; exact a.branch_recovered.number_eq) a.execution
  refine ⟨_, ?_, fun he => ?_, htk⟩
  · rw [List.length_map, List.length_take, Nat.min_eq_left hle, hk, Nat.zero_add]
  · rw [hok he, List.take_length]

variable (hf : Faithful ex) (hc : Consistent ex genesis inserted c.state)
include hf hc

theorem Attempt.follows_of_restore (h : Follows ex first c.state) (a : Attempt ex c block check)
    {b b' : MemoryBuffer} (hw : b.world = a.state.world) (hu : b.undo = a.state.undo)
    (hs : b.canonicalHashes = c.state.canonicalHashes)
    (hb : canonicalBlocks b c.state.currentCanonicalBlock.toNat =
      canonicalBlocks c.state c.state.currentCanonicalBlock.toNat)
    (hr : restoreCanonicalChain ex a.ancestor c.state.currentCanonicalBlock a.executed b = some b') :
    Follows ex first b' := by
  obtain ⟨blocks, hblocks, ht⟩ := h
  obtain ⟨others, hlen, -, hta⟩ := a.trail hf hc hblocks ht
  have hcur := hc.wellStored.currentCanonicalBlock
  have hanc := a.branch.branch.ancestor_lt
  have hsame := sameBlocks_restoreCanonicalChain hr
  have hcur' : b'.currentCanonicalBlock = c.state.currentCanonicalBlock := by
    rw [currentCanonicalBlock, hsame.canonicalHashes, hs, currentCanonicalBlock]
  rw [hblocks] at hb
  rw [← hlen] at hr
  refine ⟨blocks, ?_, ht.restore hf (by omega) hb ?_ hr⟩
  · rw [hcur', canonicalBlocks_of_sameBlocks hsame (BitVec.isLt _), hb]
  · rw [hw]
    exact hta.congr fun n _ => congrFun hu n

theorem Follows.heavier (h : Follows ex first c.state) (a : Acceptance ex c block check) :
    Follows ex first a.canonized := by
  obtain ⟨blocks, hblocks, ht⟩ := h
  obtain ⟨others, -, hothers, hta⟩ := a.trail hf hc hblocks ht
  have hcur := hc.wellStored.currentCanonicalBlock
  have hanc := a.branch.branch.ancestor_lt
  obtain ⟨hn, -⟩ := a.head_canonized hc
  refine ⟨blocks.take a.ancestor.toNat ++ others, ?_, hta.congr fun _ _ => rfl⟩
  rw [hn, hothers a.ok, a.number]
  refine a.canonicalBlocks_canonized ?_
  exact canonicalBlocks_take (by omega) hblocks

/-- The state follows the canonical chain through every insertion that returns. -/
theorem Outcome.follows (h : Follows ex first c.state) (ho : Outcome ex c block check err c') :
    Follows ex first c'.state := by
  cases ho with
  | refused _ => exact h
  | failed a he hr =>
    exact a.follows_of_restore hf hc h rfl rfl a.sameBlocks.canonicalHashes
      (canonicalBlocks_of_sameBlocks a.sameBlocks (BitVec.isLt _)) hr
  | heavier a hw =>
    dsimp only
    rw [a.canonizeChain_eq_canonized hc]
    exact h.heavier hf hc a
  | lighter a hw hr =>
    exact a.toAttempt.follows_of_restore hf hc h (b := a.inserted) rfl rfl a.canonicalHashes_inserted
      (a.canonicalBlocks_inserted (BitVec.isLt _)) hr

end Insertion

section Runs

variable {ex : Execution} {start : MemoryBuffer} {genesis : Block} {inserted blocks : List Block}
  {c : Blockchain}

theorem Inserted.follows (hf : Faithful ex) (hi : Inserted ex start genesis inserted c) :
    Follows ex start.world c.state := by
  have hstep {inserted : List Block} {c c' : Blockchain} {block : Block} {check : Bool}
      {err : ValidationResult} (hi : Inserted ex start genesis inserted c)
      (h : insertBlock ex block check c = some (err, c')) (ih : Follows ex start.world c.state) :
      Follows ex start.world c'.state := by
    obtain ⟨-, hc, hbad, -⟩ := hi.consistent
    exact (insertBlock_outcome hc.wellStored hbad h).follows hf hc ih
  induction hi with
  | init hs h0 =>
    have hcur : (Blockchain.init ex start genesis).state.currentCanonicalBlock = 0 := by
      rw [currentCanonicalBlock, (init_tables hs h0).2.2.2, List.length_singleton]
      decide
    refine ⟨[], ?_, .nil⟩
    rw [hcur]
    rfl
  | accept hi h ih => exact hstep hi h ih
  | reject hi h _ ih => exact hstep hi h ih

/-- The execution of blocks one after the other, all of which succeed. -/
def executeBlocks (ex : Execution) (blocks : List Block) (b : MemoryBuffer) : Option MemoryBuffer :=
  blocks.foldlM (fun b block =>
    match executeBlock ex block false b with
    | some (.ok, b) => some b
    | _ => none) b

theorem Trail.executeBlocks (hf : Faithful ex) {b : MemoryBuffer} {w : World}
    (ht : Trail ex b start.world blocks w) :
    ∃ b', executeBlocks ex blocks start = some b' ∧ b'.world = w := by
  induction ht with
  | nil => exact ⟨start, rfl, rfl⟩
  | snoc _ _ he _ ih =>
    obtain ⟨b₁, h₁, hw₁⟩ := ih
    obtain ⟨updates, hex, hw⟩ := he.execute hf hw₁
    refine ⟨_, ?_, hw⟩
    rw [Blockchain.executeBlocks] at h₁ ⊢
    rw [List.foldlM_append, h₁, Option.bind_eq_bind, Option.bind_some, List.foldlM_cons,
      Blockchain.executeBlock, hex]
    rfl

/-- The state after the execution of the canonical chain above the genesis block. -/
theorem insertBlock_state (hf : Faithful ex) (hi : Inserted ex start genesis inserted c) :
    ∃ blocks b, canonicalBlocks c.state c.state.currentCanonicalBlock.toNat = some blocks ∧
      executeBlocks ex blocks start = some b ∧
      (∀ a, c.state.readAccount a = b.readAccount a) ∧
      ∀ a incarnation location,
        c.state.readStorage a incarnation location = b.readStorage a incarnation location := by
  obtain ⟨blocks, hblocks, ht⟩ := hi.follows hf
  obtain ⟨b, hb, hw⟩ := ht.executeBlocks hf
  refine ⟨blocks, b, hblocks, hb, fun a => ?_, fun a incarnation location => ?_⟩
  · exact (congrFun (congrArg World.account hw) a).symm
  · exact (congrFun (congrFun (congrFun (congrArg World.storage hw) a) incarnation) location).symm

end Runs

section Examples

theorem faithful_frontier : Faithful frontier := by
  refine ⟨fun b b' block h => ?_, fun b block updates h u hu => ?_⟩
  · have hr : b.readAccount = b'.readAccount := congrArg World.account h
    dsimp only [frontier]
    rw [hr]
  · cases h
    cases List.mem_singleton.mp hu
    rfl

/-- After the slower block was executed on a side chain the reward is the one of the faster. -/
theorem insertBlock_state_frontier :
    ∃ c, Inserted frontier {} genesisBlock [slowBlock, fastBlock, genesisBlock] c ∧
      ∃ blocks b, canonicalBlocks c.state c.state.currentCanonicalBlock.toNat = some blocks ∧
        executeBlocks frontier blocks {} = some b ∧
        ∀ a, c.state.readAccount a = b.readAccount a := by
  obtain ⟨c, hi, -⟩ := inserted_frontier
  obtain ⟨blocks, b, hblocks, hb, hread, -⟩ := insertBlock_state faithful_frontier hi
  exact ⟨c, hi, blocks, b, hblocks, hb, hread⟩

/-- The updates report the values that are held when they are made. -/
def ReportsCurrent : MemoryBuffer → List Update → Prop
  | _, [] => True
  | b, u :: us => u.Reports b.world ∧ ReportsCurrent (u.apply b) us

/-- The fees are paid out before the reward. -/
def twoPayments : Execution :=
  { frontier with
    execute := fun b block =>
      let a := block.header.beneficiary
      let initial := b.readAccount a
      let account := initial.getD {}
      let paid := { account with balance := account.balance + 1 }
      .ok [.account a initial (some paid),
        .account a (some paid) (some { paid with balance := paid.balance + 5000000000000000000 })] }

set_option maxRecDepth 10000 in
/-- An account that is paid twice in a block is not unwound to what it was before: after the
slower block it has been paid once more than the canonical chain says. -/
theorem insertBlock_state_twoPayments :
    (∀ b b' block, b.world = b'.world → twoPayments.execute b block = twoPayments.execute b' block) ∧
    (∀ b block updates, twoPayments.execute b block = .ok updates →
      ReportsCurrent (b.beginBlock block.header.number) updates) ∧
    ∃ c, Inserted twoPayments {} genesisBlock [slowBlock, fastBlock, genesisBlock] c ∧
      ∀ blocks b, canonicalBlocks c.state c.state.currentCanonicalBlock.toNat = some blocks →
        executeBlocks twoPayments blocks {} = some b →
        c.state.readAccount default ≠ b.readAccount default := by
  refine ⟨fun b b' block h => ?_, fun b block updates h => ?_, ?_⟩
  · have hr : b.readAccount = b'.readAccount := congrArg World.account h
    dsimp only [twoPayments]
    rw [hr]
  · cases h
    refine ⟨rfl, ?_, trivial⟩
    exact ((readAccount_updateAccount _ _ _ _ _).trans (if_pos rfl)).symm
  · have hrun : (do
        let (err, c) ← insertBlock twoPayments fastBlock false (init twoPayments {} genesisBlock)
        let (err', c') ← insertBlock twoPayments slowBlock false c
        let blocks ← canonicalBlocks c'.state c'.state.currentCanonicalBlock.toNat
        let b ← executeBlocks twoPayments blocks {}
        some (err, err', decide (c'.state.readAccount default = b.readAccount default))) =
          some (.ok, .ok, false) := by
      decide
    obtain ⟨⟨err, c⟩, h, hrun⟩ := Option.bind_eq_some_iff.mp hrun
    obtain ⟨⟨err', c'⟩, h', hrun⟩ := Option.bind_eq_some_iff.mp hrun
    obtain ⟨blocks, hblocks, hrun⟩ := Option.bind_eq_some_iff.mp hrun
    obtain ⟨b, hb, hrun⟩ := Option.bind_eq_some_iff.mp hrun
    obtain ⟨rfl, rfl, hne⟩ : err = .ok ∧ err' = .ok ∧
        ¬c'.state.readAccount default = b.readAccount default := by simpa using hrun
    refine ⟨c', ((Inserted.init (.refl _) rfl).accept h).accept h', fun blocks' b' hbs hb' => ?_⟩
    rw [hblocks] at hbs
    cases hbs
    rw [hb] at hb'
    cases hb'
    exact hne

end Examples

end Silkworm.Blockchain
