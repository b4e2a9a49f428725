import Silkworm.BlockTables

/-!
# Branches of the chain

A block that is inserted ends a branch which leaves the canonical chain at the last common
ancestor. This is the branch that the insertion executes and makes canonical.
-/

namespace Silkworm.Blockchain
open MemoryBuffer Validity

section Chains

/-- A chain of stored blocks that are linked by their parent hashes. -/
structure ChainOf (table : List (HashMap Bytes32 BlockHeader)) (genesisHash : Bytes32)
    (l : List Bytes32) : Prop where
  head : l[0]? = some genesisHash
  stored : ∀ i h, l[i]? = some h → (lookup table i h).isSome
  linked : ∀ i h header, l[i + 1]? = some h → lookup table (i + 1) h = some header →
    l[i]? = some header.parentHash

/-- A branch that leaves the canonical chain at the ancestor and ends at a number and hash. -/
inductive Branch (canonical : List Bytes32) (ancestor : ℕ) :
    List BlockWithHash → ℕ → Bytes32 → Prop
  | nil {h : Bytes32} (hc : canonical[ancestor]? = some h) : Branch canonical ancestor [] ancestor h
  | snoc {chain : List BlockWithHash} {n : ℕ} {h : Bytes32} (hb : Branch canonical ancestor chain n h)
      (x : BlockWithHash) (hn : x.block.header.number.toNat = n + 1)
      (hp : x.block.header.parentHash = h) :
      Branch canonical ancestor (chain ++ [x]) (n + 1) x.hash

variable {table : List (HashMap Bytes32 BlockHeader)} {g : Bytes32} {l canonical : List Bytes32}

theorem ChainOf.take (h : ChainOf table g l) (n : ℕ) : ChainOf table g (l.take (n + 1)) := by
  have hget {i : ℕ} {k : Bytes32} (hi : (l.take (n + 1))[i]? = some k) : l[i]? = some k ∧ i < n + 1 := by
    rw [List.getElem?_take] at hi
    split_ifs at hi with hlt
    exact ⟨hi, hlt⟩
  refine ⟨?_, fun i k hi => h.stored i k (hget hi).1, fun i k header hi hl => ?_⟩
  · rw [List.getElem?_take, if_pos (Nat.succ_pos n)]
    exact h.head
  · rw [List.getElem?_take, if_pos (by have := (hget hi).2; omega)]
    exact h.linked i k header (hget hi).1 hl

theorem ChainOf.congr {table' : List (HashMap Bytes32 BlockHeader)} (h : ChainOf table g l)
    (heq : ∀ i k, l[i]? = some k → lookup table' i k = lookup table i k) : ChainOf table' g l := by
  refine ⟨h.head, fun i k hi => ?_, fun i k header hi hl => ?_⟩
  · rw [heq i k hi]
    exact h.stored i k hi
  · rw [heq (i + 1) k hi] at hl
    exact h.linked i k header hi hl

/-- One more block on top. -/
theorem ChainOf.snoc (h : ChainOf table g l) {n : ℕ} (hlen : l.length = n + 1) {k : Bytes32}
    {header : BlockHeader} (hl : lookup table (n + 1) k = some header)
    (hp : l[n]? = some header.parentHash) : ChainOf table g (l ++ [k]) := by
  have hget {i : ℕ} {k' : Bytes32} (hi : (l ++ [k])[i]? = some k') :
      l[i]? = some k' ∨ i = n + 1 ∧ k' = k := by
    by_cases hlt : i < l.length
    · rw [List.getElem?_append_left hlt] at hi
      exact .inl hi
    · rw [List.getElem?_append_right (by omega), List.getElem?_singleton] at hi
      split_ifs at hi with h0
      cases hi
      exact .inr ⟨by omega, rfl⟩
  refine ⟨?_, fun i k' hi => ?_, fun i k' header' hi hl' => ?_⟩
  · rw [List.getElem?_append_left (by omega)]
    exact h.head
  · rcases hget hi with hi | ⟨rfl, rfl⟩
    · exact h.stored i k' hi
    · rw [hl]
      rfl
  · rcases hget hi with hi | ⟨hi, rfl⟩
    · have hlt : i < l.length := by
        obtain ⟨hi', -⟩ := List.getElem?_eq_some_iff.mp hi
        omega
      rw [List.getElem?_append_left hlt]
      exact h.linked i k' header' hi hl'
    · have hin : i = n := by omega
      subst hin
      rw [hl] at hl'
      cases hl'
      rw [List.getElem?_append_left (by omega)]
      exact hp

theorem Branch.ancestor_le {ancestor n : ℕ} {chain : List BlockWithHash} {h : Bytes32}
    (hb : Branch canonical ancestor chain n h) : ancestor ≤ n := by
  induction hb with
  | nil _ => exact le_rfl
  | snoc _ _ _ _ ih => exact ih.trans (Nat.le_succ _)

theorem Branch.ancestor_lt {ancestor n : ℕ} {chain : List BlockWithHash} {h : Bytes32}
    (hb : Branch canonical ancestor chain n h) : ancestor < canonical.length := by
  induction hb with
  | nil hc => exact (List.getElem?_eq_some_iff.mp hc).1
  | snoc _ _ _ _ ih => exact ih

theorem Branch.length_eq {ancestor n : ℕ} {chain : List BlockWithHash} {h : Bytes32}
    (hb : Branch canonical ancestor chain n h) : ancestor + chain.length = n := by
  induction hb with
  | nil _ => rfl
  | snoc _ _ _ _ ih =>
    rw [List.length_append, ← ih]
    rfl

theorem Branch.number_eq {ancestor n : ℕ} {chain : List BlockWithHash} {h : Bytes32}
    (hb : Branch canonical ancestor chain n h) :
    ∀ i x, chain[i]? = some x → x.block.header.number.toNat = ancestor + i + 1 := by
  induction hb with
  | nil _ => nofun
  | @snoc chain n h hb x hn _ ih =>
    intro i y hy
    have hlen := hb.length_eq
    by_cases hi : i < chain.length
    · rw [List.getElem?_append_left hi] at hy
      exact ih i y hy
    · rw [List.getElem?_append_right (by omega), List.getElem?_singleton] at hy
      split_ifs at hy with h0
      cases hy
      omega

theorem Branch.number_le {ancestor n : ℕ} {chain : List BlockWithHash} {h : Bytes32}
    (hb : Branch canonical ancestor chain n h) :
    ∀ x ∈ chain, x.block.header.number.toNat ≤ n := by
  induction hb with
  | nil _ => nofun
  | snoc _ x hn _ ih =>
    intro y hy
    rcases List.mem_append.mp hy with hy | hy
    · exact (ih y hy).trans (Nat.le_succ _)
    · cases List.mem_singleton.mp hy
      exact hn.le

/-- The canonical chain up to the ancestor and a stored branch on top of it. -/
theorem Branch.chainOf {ancestor n : ℕ} {chain : List BlockWithHash} {h : Bytes32}
    (hb : Branch canonical ancestor chain n h) (hc : ChainOf table g canonical)
    (hst : ∀ x ∈ chain, lookup table x.block.header.number.toNat x.hash = some x.block.header) :
    ChainOf table g (canonical.take (ancestor + 1) ++ chain.map BlockWithHash.hash) ∧
      (canonical.take (ancestor + 1) ++ chain.map BlockWithHash.hash).length = n + 1 ∧
      (canonical.take (ancestor + 1) ++ chain.map BlockWithHash.hash)[n]? = some h := by
  induction hb with
  | nil ha =>
    have hlt := (List.getElem?_eq_some_iff.mp ha).1
    simp only [List.map_nil, List.append_nil]
    refine ⟨hc.take ancestor, by rw [List.length_take]; omega, ?_⟩
    rw [List.getElem?_take, if_pos (Nat.lt_succ_self _), ha]
  | @snoc chain n h _ x hn hp ih =>
    obtain ⟨hchain, hlen, hlast⟩ := ih fun y hy => hst y (List.mem_append_left _ hy)
    have hx := hst x (by simp)
    rw [hn] at hx
    rw [List.map_append, List.map_singleton, ← List.append_assoc]
    refine ⟨hchain.snoc hlen hx (by rw [hlast, hp]), by rw [List.length_append, hlen]; rfl, ?_⟩
    rw [List.getElem?_append_right (by omega), hlen, Nat.sub_self]
    rfl

end Chains

section Ancestors

/-- Headers are stored under their numbers and with bodies, and canonical hashes with headers. -/
structure WellStored (b : MemoryBuffer) : Prop where
  number : ∀ n h header, lookup b.headers n h = some header →
    header.number.toNat = n ∧ n + 1 < 2 ^ 64
  body : ∀ n h, (lookup b.headers n h).isSome → (lookup b.bodies n h).isSome
  canonical : ∀ n h, b.canonicalHashes[n]? = some h → (lookup b.headers n h).isSome
  nonempty : b.canonicalHashes ≠ []

variable {b b' : MemoryBuffer}

theorem WellStored.length_lt (hs : WellStored b) : b.canonicalHashes.length < 2 ^ 64 := by
  have hpos := List.length_pos_iff.mpr hs.nonempty
  obtain ⟨header, hl⟩ := Option.isSome_iff_exists.mp
    (hs.canonical (b.canonicalHashes.length - 1) _ (List.getElem?_eq_getElem (by omega)))
  have := (hs.number _ _ _ hl).2
  omega

theorem WellStored.currentCanonicalBlock (hs : WellStored b) :
    b.currentCanonicalBlock.toNat + 1 = b.canonicalHashes.length := by
  have hpos := List.length_pos_iff.mpr hs.nonempty
  have hlt := hs.length_lt
  rw [MemoryBuffer.currentCanonicalBlock, BitVec.toNat_sub, BitVec.toNat_ofNat]
  simp only [BitVec.ofNat_eq_ofNat, BitVec.toNat_ofNat]
  omega

theorem readBlock_congr (h : SameBlocks b b') : readBlock b' = readBlock b := by
  funext n k
  rw [readBlock, readBlock, readBody, readBody, readHeader, readHeader, h.bodies, h.headers]

theorem intermediateChain_congr (h : SameBlocks b b') (count : ℕ) :
    intermediateChain b' count = intermediateChain b count := by
  induction count with
  | zero => rfl
  | succ count ih =>
    funext n k
    rw [intermediateChain, intermediateChain, readBlock_congr h, ih]

theorem WellStored.readBlock (hs : WellStored b) {n : Uint64} {h : Bytes32} {header : BlockHeader}
    (hl : lookup b.headers n.toNat h = some header) :
    ∃ block, readBlock b n h = some block ∧ block.header = header := by
  obtain ⟨body, hb⟩ := Option.isSome_iff_exists.mp (hs.body n.toNat h (by rw [hl]; rfl))
  refine ⟨{ header, toBlockBody := body }, ?_, rfl⟩
  rw [Blockchain.readBlock, readBody, readHeader, hb, hl]
  rfl

theorem toNat_sub_one {n : Uint64} {m : ℕ} (h : n.toNat = m + 1) : (n - 1).toNat = m := by
  have := n.isLt
  rw [BitVec.toNat_sub, h]
  simp only [BitVec.ofNat_eq_ofNat, BitVec.toNat_ofNat]
  omega

/-- A branch whose blocks are stored. -/
structure StoredBranch (b : MemoryBuffer) (ancestor : Uint64) (chain : List BlockWithHash) (n : ℕ)
    (h : Bytes32) : Prop where
  branch : Branch b.canonicalHashes ancestor.toNat chain n h
  stored : ∀ x ∈ chain, Blockchain.readBlock b x.block.header.number x.hash = some x.block

theorem storedBranch_of_canonical {n : ℕ} {header : BlockHeader} {h : Bytes32}
    (hn : header.number.toNat = n) (hc : b.canonicalHash header.number = some h) :
    intermediateChain b (n - header.number.toNat) header.number h = some [] ∧
      StoredBranch b header.number [] n h := by
  subst hn
  rw [Nat.sub_self]
  exact ⟨rfl, .nil hc, nofun⟩

theorem lookup_of_readBlock {n : Uint64} {h : Bytes32} {block : Block}
    (hr : Blockchain.readBlock b n h = some block) :
    lookup b.headers n.toNat h = some block.header := by
  obtain ⟨body, -, hr⟩ := Option.bind_eq_some_iff.mp hr
  obtain ⟨header, hl, hr⟩ := Option.bind_eq_some_iff.mp hr
  cases hr
  exact hl

/-- The loop over the parents finds the branch that leaves the canonical chain at the ancestor. -/
theorem storedBranch_of_canonicalAncestor (hs : WellStored b) {n : ℕ} {header : BlockHeader}
    {h : Bytes32} {ancestor : Uint64} (hl : lookup b.headers n h = some header)
    (ha : canonicalAncestor b n header h = some ancestor) :
    ∃ chain, intermediateChain b (n - ancestor.toNat) header.number h = some chain ∧
      StoredBranch b ancestor chain n h := by
  induction n generalizing header h with
  | zero =>
    have hn := (hs.number 0 h header hl).1
    rw [canonicalAncestor] at ha
    split_ifs at ha with hc
    cases ha
    exact ⟨[], storedBranch_of_canonical hn hc⟩
  | succ n ih =>
    have hn := (hs.number (n + 1) h header hl).1
    rw [canonicalAncestor] at ha
    split_ifs at ha with hc
    · cases ha
      exact ⟨[], storedBranch_of_canonical hn hc⟩
    · obtain ⟨parent, hp, ha⟩ := Option.bind_eq_some_iff.mp ha
      rw [readHeader, toNat_sub_one hn] at hp
      obtain ⟨chain, hi, hb⟩ := ih hp ha
      have hparent : header.number - 1 = parent.number :=
        BitVec.eq_of_toNat_eq (by rw [toNat_sub_one hn, (hs.number n _ parent hp).1])
      rw [← hn] at hl
      obtain ⟨block, hr, rfl⟩ := hs.readBlock hl
      refine ⟨chain ++ [⟨block, h⟩], ?_, hb.branch.snoc ⟨block, h⟩ hn rfl, fun x hx => ?_⟩
      · have := hb.branch.ancestor_le
        rw [show n + 1 - ancestor.toNat = n - ancestor.toNat + 1 by omega, intermediateChain,
          hr, Option.bind_eq_bind, Option.bind_some, hparent, hi]
        rfl
      · rcases List.mem_append.mp hx with hx | hx
        · exact hb.stored x hx
        · cases List.mem_singleton.mp hx
          exact hr

end Ancestors

section Canonization

variable {b : MemoryBuffer} {ancestor current : Uint64}

/-- The loop that drops the canonical hashes above the ancestor. -/
theorem decanonizeBlocks_eq (hlen : current.toNat + 1 = b.canonicalHashes.length) {count : ℕ}
    (hcount : count ≤ current.toNat) :
    (List.range count).foldl (fun b i => b.decanonizeBlock (current - BitVec.ofNat 64 i)) b =
      { b with canonicalHashes := b.canonicalHashes.take (current.toNat + 1 - count) } := by
  induction count with
  | zero => rw [Nat.sub_zero, hlen, List.take_length]; rfl
  | succ count ih =>
    have hlt := current.isLt
    have hi : (current - BitVec.ofNat 64 count).toNat = current.toNat - count := by
      rw [BitVec.toNat_sub, BitVec.toNat_ofNat]
      omega
    rw [List.range_succ, List.foldl_append, ih (by omega), List.foldl_cons, List.foldl_nil,
      decanonizeBlock]
    dsimp only
    rw [hi, resize, List.take_take, List.length_take]
    have hz : current.toNat - count -
        min (current.toNat + 1 - count) b.canonicalHashes.length = 0 := by omega
    have hm : min (current.toNat - count) (current.toNat + 1 - count) =
        current.toNat + 1 - (count + 1) := by omega
    rw [hz, hm, List.replicate_zero, List.append_nil]

/-- A branch on top of the hashes up to the ancestor becomes canonical. -/
theorem canonizeBlocks_eq {canonical : List Bytes32} {a n : ℕ} {chain : List BlockWithHash}
    {h : Bytes32} (hb : Branch canonical a chain n h)
    (hlen : (b.canonicalHashes).length = a + 1) :
    chain.foldl (fun b x => b.canonizeBlock x.block.header.number x.hash) b =
        { b with canonicalHashes := b.canonicalHashes ++ chain.map BlockWithHash.hash } ∧
      (b.canonicalHashes ++ chain.map BlockWithHash.hash).length = n + 1 := by
  induction hb with
  | nil _ => simp [hlen]
  | @snoc chain n h _ x hn _ ih =>
    obtain ⟨hf, hl⟩ := ih
    rw [List.foldl_append, hf, List.foldl_cons, List.foldl_nil, List.map_append, List.map_singleton,
      ← List.append_assoc, List.length_append, hl]
    refine ⟨?_, rfl⟩
    have hc := canonicalHashes_canonizeBlock x.hash
      { b with canonicalHashes := b.canonicalHashes ++ chain.map BlockWithHash.hash }
      (n := x.block.header.number) (by rw [hn]; exact hl.symm)
    rw [canonizeBlock] at hc ⊢
    dsimp only at hc ⊢
    rw [hc]

theorem canonizeChain_eq {canonical : List Bytes32} {n : ℕ} {chain : List BlockWithHash}
    {h : Bytes32} (hb : Branch canonical ancestor.toNat chain n h)
    (hlen : current.toNat + 1 = b.canonicalHashes.length) (hle : ancestor.toNat ≤ current.toNat) :
    canonizeChain ancestor current chain b =
      { b with canonicalHashes :=
          b.canonicalHashes.take (ancestor.toNat + 1) ++ chain.map BlockWithHash.hash } := by
  have hd := decanonizeBlocks_eq (b := b) hlen (Nat.sub_le current.toNat ancestor.toNat)
  rw [show current.toNat + 1 - (current.toNat - ancestor.toNat) = ancestor.toNat + 1 by omega] at hd
  rw [canonizeChain, hd]
  exact (canonizeBlocks_eq hb (by simp only [List.length_take]; omega)).1

end Canonization

end Silkworm.Blockchain
