import Silkworm.BlockInsertions

/-!
# Tables of inserted blocks

What the tables hold after blocks have been inserted above a genesis block: headers with their
parents and difficulties, and canonical hashes that form a chain.
-/

namespace Silkworm.Blockchain
open MemoryBuffer

section Tables

variable (ex : Execution) (genesis : Block) (blocks : List Block)

/-- No two of the blocks have the same hash. -/
def CollisionFree : Prop :=
  ∀ x ∈ blocks, ∀ y ∈ blocks, hash ex x.header = hash ex y.header → x.header = y.header

instance : Decidable (CollisionFree ex blocks) :=
  inferInstanceAs (Decidable (∀ x ∈ blocks, ∀ y ∈ blocks, _ → _))

variable {ex blocks} in
theorem CollisionFree.tail {block : Block} (h : CollisionFree ex (block :: blocks)) :
    CollisionFree ex blocks := fun x hx y hy =>
  h x (List.mem_cons_of_mem _ hx) y (List.mem_cons_of_mem _ hy)

/-- What the tables hold after the blocks have been inserted. -/
structure Consistent (b : MemoryBuffer) : Prop where
  number : ∀ n h header, lookup b.headers n h = some header →
    header.number.toNat = n ∧ n + 1 < 2 ^ 64
  body : ∀ n h, (lookup b.headers n h).isSome → (lookup b.bodies n h).isSome
  origin : ∀ n h header, lookup b.headers n h = some header →
    ∃ block ∈ blocks, block.header = header ∧ hash ex block.header = h
  first : ∀ h header, lookup b.headers 0 h = some header → header = genesis.header
  parent : ∀ n h header, lookup b.headers (n + 1) h = some header →
    (lookup b.headers n header.parentHash).isSome
  inserted : ∀ block ∈ blocks,
    (lookup b.headers block.header.number.toNat (hash ex block.header)).isSome
  weighed : ∀ n h, (lookup b.difficulty n h).isSome = (lookup b.headers n h).isSome
  weight : CollisionFree ex blocks → ∀ n h header td, lookup b.headers n h = some header →
    lookup b.difficulty n h = some td →
    td = (parentDifficulty b.difficulty header).1 + header.difficulty
  chain : ChainOf b.headers (hash ex genesis.header) b.canonicalHashes

variable {ex genesis blocks} {b b' : MemoryBuffer}

theorem Consistent.wellStored (hc : Consistent ex genesis blocks b) : WellStored b where
  number := hc.number
  body := hc.body
  canonical := hc.chain.stored
  nonempty := by
    intro h
    have := hc.chain.head
    rw [h] at this
    cases this

theorem Consistent.congr (hc : Consistent ex genesis blocks b) (hs : SameBlocks b b') :
    Consistent ex genesis blocks b' := by
  obtain ⟨hh, hb, hd, hcan⟩ := hs
  constructor
  · rw [hh]; exact hc.number
  · rw [hh, hb]; exact hc.body
  · rw [hh]; exact hc.origin
  · rw [hh]; exact hc.first
  · rw [hh]; exact hc.parent
  · rw [hh]; exact hc.inserted
  · rw [hh, hd]; exact hc.weighed
  · rw [hh, hd]; exact hc.weight
  · rw [hh, hcan]; exact hc.chain

/-- A stored branch becomes canonical. -/
theorem Consistent.canonize (hc : Consistent ex genesis blocks b) {ancestor n : ℕ}
    {chain : List BlockWithHash} {h : Bytes32} (hb : Branch b.canonicalHashes ancestor chain n h)
    (hst : ∀ x ∈ chain, lookup b.headers x.block.header.number.toNat x.hash = some x.block.header) :
    Consistent ex genesis blocks { b with
      canonicalHashes := b.canonicalHashes.take (ancestor + 1) ++ chain.map BlockWithHash.hash } :=
  { hc with chain := (hb.chainOf hc.chain hst).1 }

end Tables

section Insertion

variable {ex : Execution} {genesis : Block} {blocks : List Block} {b : MemoryBuffer} {block : Block}
  {n : ℕ} (hc : Consistent ex genesis blocks b) (hn : block.header.number.toNat = n + 1)
  (hp : (lookup b.headers n block.header.parentHash).isSome)
include hc hn hp

theorem Consistent.lookup_difficulty (m : ℕ) (k : Bytes32) :
    lookup (b.insertBlock (recoverSenders ex block) (hash ex block.header)).difficulty m k =
      if m = n + 1 ∧ k = hash ex block.header then
        some ((parentDifficulty b.difficulty block.header).1 + block.header.difficulty)
      else lookup b.difficulty m k := by
  have hd : (lookup b.difficulty n block.header.parentHash).isSome := by rwa [hc.weighed]
  have hparent : (recoverSenders ex block).header.number ≠ 0 →
      (lookup b.difficulty ((recoverSenders ex block).header.number.toNat - 1)
        (recoverSenders ex block).header.parentHash).isSome := fun _ => by
    rwa [recoverSenders_header, hn, Nat.add_sub_cancel]
  have h := lookup_difficulty_insertBlock (hash ex block.header) hparent m k
  rwa [recoverSenders_header, hn] at h

/-- A block that is inserted again keeps its difficulty. -/
theorem Consistent.lookup_difficulty_of_isSome (hfree : CollisionFree ex (block :: blocks)) {m : ℕ}
    {k : Bytes32} (hk : (lookup b.headers m k).isSome) :
    lookup (b.insertBlock (recoverSenders ex block) (hash ex block.header)).difficulty m k =
      lookup b.difficulty m k := by
  rw [hc.lookup_difficulty hn hp]
  split_ifs with hm
  · obtain ⟨rfl, rfl⟩ := hm
    obtain ⟨header, hl⟩ := Option.isSome_iff_exists.mp hk
    obtain ⟨td, htd⟩ := Option.isSome_iff_exists.mp ((hc.weighed (n + 1) _).trans hk)
    obtain ⟨block', hb', rfl, hh⟩ := hc.origin _ _ _ hl
    have heq := hfree block' (List.mem_cons_of_mem _ hb') block List.mem_cons_self hh
    rw [htd, hc.weight hfree.tail _ _ _ _ hl htd, heq]
  · rfl

theorem Consistent.parentDifficulty_insertBlock (hfree : CollisionFree ex (block :: blocks))
    {header : BlockHeader} (hh : header.number ≠ 0 →
      (lookup b.headers (header.number.toNat - 1) header.parentHash).isSome) :
    (parentDifficulty (b.insertBlock (recoverSenders ex block) (hash ex block.header)).difficulty
      header).1 = (parentDifficulty b.difficulty header).1 := by
  unfold parentDifficulty
  split_ifs with h0
  · rfl
  · dsimp only
    rw [hc.lookup_difficulty_of_isSome hn hp hfree (hh h0)]

variable (hmax : n + 2 < 2 ^ 64)
  (hfresh : b.canonicalHashes[n + 1]? ≠ some (hash ex block.header))
include hmax hfresh

theorem Consistent.insertBlock : Consistent ex genesis (block :: blocks)
    (b.insertBlock (recoverSenders ex block) (hash ex block.header)) := by
  have hl (m : ℕ) (k : Bytes32) :
      lookup (b.insertBlock (recoverSenders ex block) (hash ex block.header)).headers m k =
        if m = n + 1 ∧ k = hash ex block.header then some block.header
        else lookup b.headers m k := by
    rw [lookup_headers_insertBlock, recoverSenders_header, hn]
  have hsome {m : ℕ} {k : Bytes32} (hk : (lookup b.headers m k).isSome) :
      (lookup (b.insertBlock (recoverSenders ex block) (hash ex block.header)).headers m k).isSome := by
    rw [hl]
    split_ifs
    · rfl
    · exact hk
  constructor
  case number =>
    intro m k header hm
    rw [hl] at hm
    split_ifs at hm with hk
    · cases hm
      exact ⟨by rw [hn, hk.1], by omega⟩
    · exact hc.number m k header hm
  case body =>
    intro m k hm
    rw [hl] at hm
    rw [lookup_bodies_insertBlock, recoverSenders_header, hn]
    split_ifs at hm ⊢
    · rfl
    · exact hc.body m k hm
  case origin =>
    intro m k header hm
    rw [hl] at hm
    split_ifs at hm with hk
    · cases hm
      exact ⟨block, List.mem_cons_self, rfl, hk.2.symm⟩
    · obtain ⟨block', hb, h⟩ := hc.origin m k header hm
      exact ⟨block', List.mem_cons_of_mem _ hb, h⟩
  case first =>
    intro k header hm
    rw [hl, if_neg (by simp)] at hm
    exact hc.first k header hm
  case parent =>
    intro m k header hm
    rw [hl] at hm
    split_ifs at hm with hk
    · cases hm
      obtain rfl : m = n := by omega
      exact hsome hp
    · exact hsome (hc.parent m k header hm)
  case inserted =>
    intro block' hb
    rcases List.mem_cons.mp hb with rfl | hb
    · rw [hl, hn, if_pos ⟨rfl, rfl⟩]
      rfl
    · exact hsome (hc.inserted block' hb)
  case weighed =>
    intro m k
    rw [hl, hc.lookup_difficulty hn hp]
    split_ifs
    · rfl
    · exact hc.weighed m k
  case weight =>
    intro hfree m k header td hm htd
    rw [hl] at hm
    rw [hc.lookup_difficulty hn hp] at htd
    split_ifs at hm htd with hk
    · cases hm
      cases htd
      rw [hc.parentDifficulty_insertBlock hn hp hfree fun _ => by rwa [hn, Nat.add_sub_cancel]]
    · rw [hc.parentDifficulty_insertBlock hn hp hfree fun h0 => ?_]
      · exact hc.weight hfree.tail m k header td hm htd
      · obtain ⟨m, rfl⟩ := Nat.exists_eq_succ_of_ne_zero fun h => h0 <|
          BitVec.eq_of_toNat_eq ((hc.number m k header hm).1.trans h)
        rw [(hc.number _ k header hm).1]
        exact hc.parent m k header hm
  case chain =>
    refine hc.chain.congr fun i k hi => ?_
    rw [hl, if_neg]
    rintro ⟨rfl, rfl⟩
    exact hfresh hi

end Insertion

section Steps

variable {ex : Execution} {genesis : Block} {blocks : List Block} {c c' : Blockchain} {block : Block}
  {check : Bool} {err : ValidationResult}

theorem Attempt.sameBlocks (a : Attempt ex c block check) : SameBlocks c.state a.state :=
  (sameBlocks_unwindLastChanges _ _ c.state).trans (sameBlocks_executeChain a.execution)

theorem Attempt.canonicalHashes_inserted (a : Attempt ex c block check) :
    a.inserted.canonicalHashes = c.state.canonicalHashes := a.sameBlocks.canonicalHashes

theorem Attempt.branch_recovered (a : Attempt ex c block check) :
    Branch c.state.canonicalHashes a.ancestor.toNat (a.chain ++ [recovered ex block])
      (a.parentNumber + 1) (hash ex block.header) :=
  a.branch.branch.snoc (recovered ex block) a.number rfl

/-- The blocks of the executed branch are stored with the new one. -/
theorem Acceptance.stored (a : Acceptance ex c block check) :
    ∀ x ∈ a.chain ++ [recovered ex block],
      lookup a.inserted.headers x.block.header.number.toNat x.hash = some x.block.header := by
  intro x hx
  rw [Attempt.inserted, lookup_headers_insertBlock, recoverSenders_header, a.number,
    a.sameBlocks.headers]
  rcases List.mem_append.mp hx with hx | hx
  · have hle := a.branch.branch.number_le x hx
    rw [if_neg (by omega)]
    exact lookup_of_readBlock (a.branch.stored x hx)
  · cases List.mem_singleton.mp hx
    exact if_pos ⟨a.number, rfl⟩

variable (hc : Consistent ex genesis blocks c.state)
include hc

theorem Acceptance.consistent (a : Acceptance ex c block check) :
    Consistent ex genesis (block :: blocks) a.inserted := by
  have hs := a.sameBlocks
  have hn := a.number
  have hlt := a.number_lt
  refine (hc.congr hs).insertBlock hn ?_ (by omega) ?_
  · rw [hs.headers]
    exact a.parent
  · rw [hs.canonicalHashes, ← hn]
    exact a.fresh

/-- The difficulties with the one of the new block. -/
theorem Acceptance.lookup_difficulty (a : Acceptance ex c block check) (m : ℕ) (k : Bytes32) :
    lookup a.inserted.difficulty m k =
      if m = block.header.number.toNat ∧ k = hash ex block.header then
        some ((parentDifficulty c.state.difficulty block.header).1 + block.header.difficulty)
      else lookup c.state.difficulty m k := by
  have hs := a.sameBlocks
  rw [a.number, Attempt.inserted, (hc.congr hs).lookup_difficulty a.number (by rw [hs.headers]; exact a.parent),
    hs.difficulty]

/-- The buffer after the branch of the new block became canonical. -/
def Acceptance.canonized (a : Acceptance ex c block check) : MemoryBuffer :=
  { a.inserted with
    canonicalHashes := c.state.canonicalHashes.take (a.ancestor.toNat + 1) ++
      (a.chain ++ [recovered ex block]).map BlockWithHash.hash }

theorem Acceptance.canonizeChain_eq_canonized (a : Acceptance ex c block check) :
    canonizeChain a.ancestor c.state.currentCanonicalBlock (a.chain ++ [recovered ex block])
      a.inserted = a.canonized := by
  have hcur := hc.wellStored.currentCanonicalBlock
  have hanc := a.branch_recovered.ancestor_lt
  rw [canonizeChain_eq a.branch_recovered (by rw [a.canonicalHashes_inserted, hcur]) (by omega),
    a.canonicalHashes_inserted]
  rfl

theorem Acceptance.consistent_canonized (a : Acceptance ex c block check) :
    Consistent ex genesis (block :: blocks) a.canonized := by
  have hbr := a.branch_recovered
  rw [← a.canonicalHashes_inserted] at hbr
  have h := (a.consistent hc).canonize hbr a.stored
  rw [a.canonicalHashes_inserted] at h
  exact h

/-- The new block is the head of the canonical chain. -/
theorem Acceptance.head_canonized (a : Acceptance ex c block check) :
    a.canonized.currentCanonicalBlock = block.header.number ∧
      a.canonized.canonicalHash block.header.number = some (hash ex block.header) := by
  have hbr := a.branch_recovered
  rw [← a.canonicalHashes_inserted] at hbr
  obtain ⟨-, hlen, hlast⟩ := hbr.chainOf (a.consistent hc).chain a.stored
  rw [a.canonicalHashes_inserted] at hlen hlast
  have hnew := (a.consistent_canonized hc).wellStored.currentCanonicalBlock
  constructor
  · exact BitVec.eq_of_toNat_eq ((Nat.succ.inj (hnew.trans hlen)).trans a.number.symm)
  · rw [canonicalHash, a.number]
    exact hlast

end Steps

section Heads

/-- The head of the canonical chain, which no stored block outweighs. -/
structure Heaviest (b : MemoryBuffer) (h : Bytes32) (td : Uint256) : Prop where
  hash : b.canonicalHash b.currentCanonicalBlock = some h
  difficulty : b.totalDifficulty b.currentCanonicalBlock h = some td
  le : ∀ n k td', lookup b.difficulty n k = some td' → td'.toNat ≤ td.toNat

theorem Heaviest.congr {b b' : MemoryBuffer} {h : Bytes32} {td : Uint256} (hh : Heaviest b h td)
    (hs : SameBlocks b b') : Heaviest b' h td := by
  obtain ⟨hash, difficulty, le⟩ := hh
  rw [canonicalHash, currentCanonicalBlock, ← hs.canonicalHashes] at hash
  rw [totalDifficulty, currentCanonicalBlock, ← hs.canonicalHashes, ← hs.difficulty] at difficulty
  rw [← hs.difficulty] at le
  exact ⟨hash, difficulty, le⟩

variable {ex : Execution} {genesis : Block} {blocks : List Block} {c c' : Blockchain} {block : Block}
  {check : Bool} {headHash : Bytes32} {headDifficulty : Uint256}
  (hc : Consistent ex genesis blocks c.state) (hh : Heaviest c.state headHash headDifficulty)
  (a : Acceptance ex c block check)
include hc hh

theorem Acceptance.lookup_head :
    lookup a.inserted.difficulty c.state.currentCanonicalBlock.toNat headHash =
      some headDifficulty := by
  rw [a.lookup_difficulty hc, if_neg]
  · exact hh.difficulty
  · rintro ⟨hn, rfl⟩
    refine a.fresh ?_
    rw [canonicalHash, ← hn]
    exact hh.hash

theorem Acceptance.current_eq : a.currentTotalDifficulty = headDifficulty := by
  have hhash : a.currentHash = headHash := by
    have h := a.canonicalHash_current
    rw [canonicalHash, show a.inserted.canonicalHashes = a.state.canonicalHashes from rfl,
      a.sameBlocks.canonicalHashes] at h
    exact Option.some.inj (h.symm.trans hh.hash)
  have h := a.totalDifficulty_current
  rw [totalDifficulty, hhash, a.lookup_head hc hh] at h
  exact (Option.some.inj h).symm

theorem Acceptance.heavier_iff {td : Uint256}
    (htd : a.inserted.totalDifficulty block.header.number (hash ex block.header) = some td) :
    a.Heavier ↔ headDifficulty.toNat < td.toNat := by
  rw [Acceptance.Heavier, a.current_eq hc hh, htd]
  rfl

/-- All difficulties are bounded by the greater one of the head and of the new block. -/
theorem Acceptance.difficulty_le {td : Uint256}
    (htd : a.inserted.totalDifficulty block.header.number (hash ex block.header) = some td)
    {n : ℕ} {k : Bytes32} {td' : Uint256} (h : lookup a.inserted.difficulty n k = some td') :
    td'.toNat ≤ max headDifficulty.toNat td.toNat := by
  rw [totalDifficulty, a.lookup_difficulty hc, if_pos ⟨rfl, rfl⟩] at htd
  rw [a.lookup_difficulty hc, htd] at h
  split_ifs at h
  · cases h
    exact le_max_right _ _
  · exact (hh.le n k td' h).trans (le_max_left _ _)

end Heads

end Silkworm.Blockchain
