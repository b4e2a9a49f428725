import Silkworm.InsertedBlocks

/-!
# Fork choice

The canonical hashes are a chain of inserted blocks from the genesis block on, and its head
has the greatest total difficulty. This holds after every run of insertions that return.
-/

namespace Silkworm.Blockchain
open MemoryBuffer

section Effects

/-- What an insertion does to the tables of blocks. -/
inductive Effect (ex : Execution) (genesis : Block) (blocks : List Block) (b : MemoryBuffer)
    (headHash : Bytes32) (headDifficulty : Uint256) (block : Block) :
    ValidationResult → MemoryBuffer → Prop
  | unchanged {err : ValidationResult} {b' : MemoryBuffer} (he : err ≠ .ok) (hs : SameBlocks b b') :
      Effect ex genesis blocks b headHash headDifficulty block err b'
  | newHead {td : Uint256} {b' : MemoryBuffer} (hc : Consistent ex genesis (block :: blocks) b')
      (hh : Heaviest b' (hash ex block.header) td)
      (hn : b'.currentCanonicalBlock = block.header.number)
      (hlt : headDifficulty.toNat < td.toNat) :
      Effect ex genesis blocks b headHash headDifficulty block .ok b'
  | sideBlock {td : Uint256} {b' : MemoryBuffer} (hc : Consistent ex genesis (block :: blocks) b')
      (hh : Heaviest b' headHash headDifficulty)
      (hs : b'.canonicalHashes = b.canonicalHashes)
      (htd : b'.totalDifficulty block.header.number (hash ex block.header) = some td)
      (hle : td.toNat ≤ headDifficulty.toNat) :
      Effect ex genesis blocks b headHash headDifficulty block .ok b'

variable {ex : Execution} {genesis : Block} {blocks : List Block} {c c' : Blockchain} {block : Block}
  {check : Bool} {err : ValidationResult} {headHash : Bytes32} {headDifficulty : Uint256}
  (hc : Consistent ex genesis blocks c.state) (hh : Heaviest c.state headHash headDifficulty)
include hc hh

theorem Acceptance.effect_heavier (a : Acceptance ex c block check) (hw : a.Heavier) :
    Effect ex genesis blocks c.state headHash headDifficulty block .ok a.canonized := by
  obtain ⟨td, htd⟩ : ∃ td,
      a.inserted.totalDifficulty block.header.number (hash ex block.header) = some td :=
    ⟨_, by rw [totalDifficulty, a.lookup_difficulty hc, if_pos ⟨rfl, rfl⟩]⟩
  have hlt := (a.heavier_iff hc hh htd).mp hw
  obtain ⟨hn, hhead⟩ := a.head_canonized hc
  refine .newHead (a.consistent_canonized hc) ⟨?_, ?_, fun n k td' h => ?_⟩ hn hlt
  · rw [hn]
    exact hhead
  · rw [hn]
    exact htd
  · exact (a.difficulty_le hc hh htd h).trans (by omega)

theorem Acceptance.effect_lighter (a : Acceptance ex c block check) (hw : ¬a.Heavier)
    {b' : MemoryBuffer} (hs : SameBlocks a.inserted b') :
    Effect ex genesis blocks c.state headHash headDifficulty block .ok b' := by
  have hsame := a.canonicalHashes_inserted
  obtain ⟨td, htd⟩ : ∃ td,
      a.inserted.totalDifficulty block.header.number (hash ex block.header) = some td :=
    ⟨_, by rw [totalDifficulty, a.lookup_difficulty hc, if_pos ⟨rfl, rfl⟩]⟩
  have hle := not_lt.mp (mt (a.heavier_iff hc hh htd).mpr hw)
  have hcur : a.inserted.currentCanonicalBlock = c.state.currentCanonicalBlock := by
    rw [currentCanonicalBlock, hsame, currentCanonicalBlock]
  have hhead : Heaviest a.inserted headHash headDifficulty := by
    refine ⟨?_, ?_, fun n k td' h => ?_⟩
    · rw [hcur, canonicalHash, hsame]
      exact hh.hash
    · rw [hcur]
      exact a.lookup_head hc hh
    · exact (a.difficulty_le hc hh htd h).trans (by omega)
  refine .sideBlock ((a.consistent hc).congr hs) (hhead.congr hs)
    (hs.canonicalHashes.trans hsame) ?_ hle
  rw [totalDifficulty, hs.difficulty]
  exact htd

/-- One insertion keeps the tables consistent and the head heaviest. -/
theorem insertBlock_effect (hbad : ∀ h e, c.badBlocks.find h = some e → e ≠ .ok)
    (h : insertBlock ex block check c = some (err, c')) :
    Effect ex genesis blocks c.state headHash headDifficulty block err c'.state ∧
      ∀ h e, c'.badBlocks.find h = some e → e ≠ .ok := by
  cases insertBlock_outcome hc.wellStored hbad h with
  | refused he => exact ⟨.unchanged he (.refl _), hbad⟩
  | failed a he hr =>
    refine ⟨.unchanged he (a.sameBlocks.trans (sameBlocks_restoreCanonicalChain hr)), ?_⟩
    intro k e hk
    dsimp only at hk
    rw [HashMap.find_set] at hk
    split_ifs at hk
    · cases hk
      exact he
    · exact hbad k e hk
  | heavier a hw =>
    dsimp only
    rw [a.canonizeChain_eq_canonized hc]
    exact ⟨a.effect_heavier hc hh hw, hbad⟩
  | lighter a hw hr =>
    exact ⟨a.effect_lighter hc hh hw (sameBlocks_restoreCanonicalChain hr), hbad⟩

end Effects

section Runs

/-- The runs of insertions that return, from a buffer without blocks, with the blocks that were
inserted. -/
inductive Inserted (ex : Execution) (start : MemoryBuffer) (genesis : Block) :
    List Block → Blockchain → Prop
  | init (hs : SameBlocks {} start) (h0 : genesis.header.number = 0) :
      Inserted ex start genesis [genesis] (init ex start genesis)
  | accept {blocks : List Block} {c c' : Blockchain} {block : Block} {check : Bool}
      (hi : Inserted ex start genesis blocks c)
      (h : insertBlock ex block check c = some (.ok, c')) :
      Inserted ex start genesis (block :: blocks) c'
  | reject {blocks : List Block} {c c' : Blockchain} {block : Block} {check : Bool}
      {err : ValidationResult} (hi : Inserted ex start genesis blocks c)
      (h : insertBlock ex block check c = some (err, c')) (he : err ≠ .ok) :
      Inserted ex start genesis blocks c'

variable {ex : Execution} {start : MemoryBuffer} {genesis : Block} {blocks : List Block}
  {c c' : Blockchain}

/-- The tables that hold the genesis block alone. -/
theorem init_tables (hs : SameBlocks {} start)
    (h0 : genesis.header.number = 0) :
    (init ex start genesis).state.headers = [HashMap.set ∅ (hash ex genesis.header) genesis.header] ∧
      (init ex start genesis).state.bodies =
        [HashMap.set ∅ (hash ex genesis.header) genesis.toBlockBody] ∧
      (init ex start genesis).state.difficulty =
        [HashMap.set ∅ (hash ex genesis.header) genesis.header.difficulty] ∧
      (init ex start genesis).state.canonicalHashes = [hash ex genesis.header] := by
  obtain ⟨hh, hb, hd, hc⟩ := hs
  simp only [init, canonizeBlock, MemoryBuffer.insertBlock, store, grow, parentDifficulty, resize, hh,
    hb, hd, hc, h0]
  simp

theorem init_consistent (hs : SameBlocks {} start)
    (h0 : genesis.header.number = 0) :
    Consistent ex genesis [genesis] (init ex start genesis).state ∧
      Heaviest (init ex start genesis).state (hash ex genesis.header) genesis.header.difficulty := by
  obtain ⟨hh, hb, hd, hc⟩ := init_tables hs h0
  generalize (init ex start genesis).state = b at hh hb hd hc ⊢
  have hlook {V : Type} {v v' : V} {n : ℕ} {k : Bytes32} :
      lookup [HashMap.set ∅ (hash ex genesis.header) v] n k = some v' ↔
        n = 0 ∧ k = hash ex genesis.header ∧ v = v' := by
    cases n with
    | zero => simp [lookup, HashMap.find_set]
    | succ n => simp [lookup]
  have hsome {V W : Type} (v : V) (w : W) (n : ℕ) (k : Bytes32) :
      (lookup [HashMap.set ∅ (hash ex genesis.header) v] n k).isSome =
        (lookup [HashMap.set ∅ (hash ex genesis.header) w] n k).isSome := by
    cases n with
    | zero =>
      by_cases hk : k = hash ex genesis.header <;> simp [lookup, HashMap.find_set, hk]
    | succ n => simp [lookup]
  have hcur : b.currentCanonicalBlock = 0 := by
    rw [currentCanonicalBlock, hc, List.length_singleton]
    decide
  have hnum : genesis.header.number.toNat = 0 := by rw [h0]; rfl
  constructor
  · constructor
    case number =>
      intro n k header h
      rw [hh] at h
      obtain ⟨rfl, rfl, rfl⟩ := hlook.mp h
      exact ⟨hnum, by decide⟩
    case body =>
      intro n k h
      rw [hh] at h
      rw [hb, hsome _ genesis.header]
      exact h
    case origin =>
      intro n k header h
      rw [hh] at h
      obtain ⟨rfl, rfl, rfl⟩ := hlook.mp h
      exact ⟨genesis, List.mem_singleton_self _, rfl, rfl⟩
    case first =>
      intro k header h
      rw [hh] at h
      exact (hlook.mp h).2.2.symm
    case parent =>
      intro n k header h
      rw [hh] at h
      cases (hlook.mp h).1
    case inserted =>
      intro block hblock
      cases List.mem_singleton.mp hblock
      rw [hh, hnum, hlook.mpr ⟨rfl, rfl, rfl⟩]
      rfl
    case weighed =>
      intro n k
      rw [hh, hd]
      exact hsome _ _ n k
    case weight =>
      intro _ n k header td h htd
      rw [hh] at h
      rw [hd] at htd
      obtain ⟨rfl, rfl, rfl⟩ := hlook.mp h
      obtain ⟨-, -, rfl⟩ := hlook.mp htd
      rw [parentDifficulty, if_pos h0]
      exact (BitVec.zero_add _).symm
    case chain =>
      rw [hh, hc]
      refine ⟨rfl, fun i k hi => ?_, fun i k header hi => ?_⟩
      · obtain ⟨rfl, rfl⟩ : i = 0 ∧ hash ex genesis.header = k := by
          simpa [List.getElem?_singleton] using hi
        rw [hlook.mpr ⟨rfl, rfl, rfl⟩]
        rfl
      · simp at hi
  · refine ⟨?_, ?_, fun n k td h => ?_⟩
    · rw [hcur, canonicalHash, hc]
      rfl
    · rw [hcur, totalDifficulty, hd]
      exact hlook.mpr ⟨rfl, rfl, rfl⟩
    · rw [hd] at h
      rw [(hlook.mp h).2.2]

/-- Every run keeps the tables consistent and the head heaviest. -/
theorem Inserted.consistent (hi : Inserted ex start genesis blocks c) :
    genesis ∈ blocks ∧ Consistent ex genesis blocks c.state ∧
      (∀ h e, c.badBlocks.find h = some e → e ≠ .ok) ∧ ∃ h td, Heaviest c.state h td := by
  induction hi with
  | init hs h0 =>
    obtain ⟨hc, hh⟩ := init_consistent hs h0
    refine ⟨List.mem_singleton_self _, hc, fun k e hk => ?_, _, _, hh⟩
    cases hk
  | accept _ h ih =>
    obtain ⟨hg, hc, hbad, k, td, hh⟩ := ih
    obtain ⟨heff, hbad'⟩ := insertBlock_effect hc hh hbad h
    cases heff with
    | unchanged he _ => exact absurd rfl he
    | newHead hc' hh' _ _ => exact ⟨List.mem_cons_of_mem _ hg, hc', hbad', _, _, hh'⟩
    | sideBlock hc' hh' _ _ _ => exact ⟨List.mem_cons_of_mem _ hg, hc', hbad', _, _, hh'⟩
  | reject _ h he ih =>
    obtain ⟨hg, hc, hbad, k, td, hh⟩ := ih
    obtain ⟨heff, hbad'⟩ := insertBlock_effect hc hh hbad h
    cases heff with
    | unchanged _ hs => exact ⟨hg, hc.congr hs, hbad', _, _, hh.congr hs⟩
    | newHead _ _ _ _ => exact absurd rfl he
    | sideBlock _ _ _ _ _ => exact absurd rfl he

end Runs

section Difficulties

/-- The sum of the difficulties from the genesis block up to a header. -/
inductive TotalDifficulty (ex : Execution) (genesis : Block) (blocks : List Block) :
    BlockHeader → ℕ → Prop
  | genesis : TotalDifficulty ex genesis blocks genesis.header genesis.header.difficulty.toNat
  | child {parent : BlockHeader} {w : ℕ} {block : Block}
      (hp : TotalDifficulty ex genesis blocks parent w) (hb : block ∈ blocks)
      (hh : block.header.parentHash = hash ex parent)
      (hn : block.header.number.toNat = parent.number.toNat + 1) :
      TotalDifficulty ex genesis blocks block.header (w + block.header.difficulty.toNat)

variable {ex : Execution} {genesis : Block} {blocks : List Block} {b : MemoryBuffer}
  (hc : Consistent ex genesis blocks b)
include hc

theorem Consistent.exists_totalDifficulty {n : ℕ} {h : Bytes32} {header : BlockHeader}
    (hl : lookup b.headers n h = some header) :
    ∃ w, TotalDifficulty ex genesis blocks header w := by
  induction n generalizing h header with
  | zero =>
    rw [hc.first h header hl]
    exact ⟨_, .genesis⟩
  | succ n ih =>
    obtain ⟨parent, hp⟩ := Option.isSome_iff_exists.mp (hc.parent n h header hl)
    obtain ⟨w, hw⟩ := ih hp
    obtain ⟨block, hb, rfl, -⟩ := hc.origin _ _ _ hl
    obtain ⟨parentBlock, -, rfl, hh⟩ := hc.origin _ _ _ hp
    refine ⟨_, hw.child hb hh.symm ?_⟩
    rw [(hc.number _ _ _ hl).1, (hc.number _ _ _ hp).1]

variable (hg : genesis ∈ blocks) (hfree : CollisionFree ex blocks)
include hfree

theorem Consistent.lookup_of_mem {block : Block} (hb : block ∈ blocks) :
    lookup b.headers block.header.number.toNat (hash ex block.header) = some block.header := by
  obtain ⟨header, hl⟩ := Option.isSome_iff_exists.mp (hc.inserted block hb)
  obtain ⟨block', hb', rfl, hh⟩ := hc.origin _ _ _ hl
  rw [hl, hfree block' hb' block hb hh]

include hg

/-- The table holds the total difficulties. -/
theorem TotalDifficulty.lookup_eq {header : BlockHeader} {w : ℕ}
    (hw : TotalDifficulty ex genesis blocks header w) :
    lookup b.difficulty header.number.toNat (hash ex header) = some (BitVec.ofNat 256 w) := by
  have htd {block : Block} (hb : block ∈ blocks) :
      lookup b.difficulty block.header.number.toNat (hash ex block.header) =
        some ((parentDifficulty b.difficulty block.header).1 + block.header.difficulty) := by
    have hl := hc.lookup_of_mem hfree hb
    obtain ⟨td, htd⟩ := Option.isSome_iff_exists.mp ((hc.weighed _ _).trans (by rw [hl]; rfl))
    rw [htd, hc.weight hfree _ _ _ _ hl htd]
  induction hw with
  | genesis =>
    have h0 : genesis.header.number = 0 := by
      obtain ⟨h, hh⟩ : ∃ h, (lookup b.headers 0 h).isSome := ⟨_, hc.chain.stored 0 _ hc.chain.head⟩
      obtain ⟨header, hl⟩ := Option.isSome_iff_exists.mp hh
      rw [← hc.first h header hl]
      exact BitVec.eq_of_toNat_eq (hc.number 0 h header hl).1
    rw [htd hg, parentDifficulty, if_pos h0, BitVec.ofNat_toNat, BitVec.setWidth_eq]
    exact congrArg some (BitVec.zero_add _)
  | @child parent w block _ hb hh hn ih =>
    have hne : block.header.number ≠ 0 := by
      intro h0
      rw [h0] at hn
      cases hn
    rw [htd hb, parentDifficulty, if_neg hne]
    dsimp only
    rw [hn, Nat.add_sub_cancel, hh, ih, BitVec.ofNat_add, BitVec.ofNat_toNat, BitVec.setWidth_eq]
    rfl

end Difficulties

section Choice

variable {ex : Execution} {start : MemoryBuffer} {genesis : Block} {blocks : List Block}
  {c : Blockchain}

/-- Hashes of inserted blocks that are numbered from the genesis block on, each the parent of
the next. -/
structure CanonicalChain (ex : Execution) (genesis : Block) (blocks : List Block)
    (hashes : List Bytes32) : Prop where
  head : hashes[0]? = some (hash ex genesis.header)
  block : ∀ n h, hashes[n]? = some h → ∃ block ∈ blocks, hash ex block.header = h ∧
    block.header.number.toNat = n ∧ ∀ m, n = m + 1 → hashes[m]? = some block.header.parentHash

def IsHead (ex : Execution) (b : MemoryBuffer) (block : Block) : Prop :=
  b.currentCanonicalBlock = block.header.number ∧
    b.canonicalHashes.length = block.header.number.toNat + 1 ∧
    b.canonicalHash block.header.number = some (hash ex block.header)

/-- Total difficulties fit into the words in which they are kept. -/
def Bounded (ex : Execution) (genesis : Block) (blocks : List Block) : Prop :=
  ∀ header w, TotalDifficulty ex genesis blocks header w → w < 2 ^ 256

theorem Consistent.canonicalChain {b : MemoryBuffer} (hc : Consistent ex genesis blocks b) :
    CanonicalChain ex genesis blocks b.canonicalHashes := by
  refine ⟨hc.chain.head, fun n h hn => ?_⟩
  obtain ⟨header, hl⟩ := Option.isSome_iff_exists.mp (hc.chain.stored n h hn)
  obtain ⟨block, hb, rfl, hh⟩ := hc.origin n h header hl
  refine ⟨block, hb, hh, (hc.number n h _ hl).1, ?_⟩
  rintro m rfl
  exact hc.chain.linked m h _ hn hl

/-- The total difficulty of an inserted block, as it is stored. -/
theorem Consistent.exists_toNat_eq {b : MemoryBuffer} (hc : Consistent ex genesis blocks b)
    (hg : genesis ∈ blocks) (hfree : CollisionFree ex blocks) (hbound : Bounded ex genesis blocks)
    {block : Block} (hb : block ∈ blocks) {td : Uint256}
    (htd : b.totalDifficulty block.header.number (hash ex block.header) = some td) :
    TotalDifficulty ex genesis blocks block.header td.toNat := by
  obtain ⟨w, hw⟩ := hc.exists_totalDifficulty (hc.lookup_of_mem hfree hb)
  have hl := hw.lookup_eq hc hg hfree
  rw [totalDifficulty, hl] at htd
  cases htd
  rw [BitVec.toNat_ofNat, Nat.mod_eq_of_lt (hbound _ w hw)]
  exact hw

theorem Consistent.isHead {b : MemoryBuffer} (hc : Consistent ex genesis blocks b) {block : Block}
    (hn : b.currentCanonicalBlock = block.header.number)
    (hh : b.canonicalHash b.currentCanonicalBlock = some (hash ex block.header)) :
    IsHead ex b block := by
  rw [hn] at hh
  refine ⟨hn, ?_, hh⟩
  rw [← hn, hc.wellStored.currentCanonicalBlock]

/-- The canonical chain is a chain of inserted blocks, and its head is the heaviest. Only a
heavier block becomes the head, and a failed insertion changes no table. -/
theorem insertBlock_forkChoice (hi : Inserted ex start genesis blocks c) (hfree : CollisionFree ex blocks)
    (hbound : Bounded ex genesis blocks) :
    CanonicalChain ex genesis blocks c.state.canonicalHashes ∧
      ∃ head ∈ blocks, IsHead ex c.state head ∧
        ∃ w, TotalDifficulty ex genesis blocks head.header w ∧
          (∀ block ∈ blocks, ∃ w', TotalDifficulty ex genesis blocks block.header w' ∧ w' ≤ w) ∧
          ∀ block check err c', insertBlock ex block check c = some (err, c') →
            (err ≠ .ok → SameBlocks c.state c'.state) ∧
            (err = .ok → CollisionFree ex (block :: blocks) → Bounded ex genesis (block :: blocks) →
              ∃ w', TotalDifficulty ex genesis (block :: blocks) block.header w' ∧
                (w < w' ∧ IsHead ex c'.state block ∨
                  w' ≤ w ∧ c'.state.canonicalHashes = c.state.canonicalHashes)) := by
  obtain ⟨hg, hc, hbad, h, td, hh⟩ := hi.consistent
  obtain ⟨head, hhead, rfl, hn, -⟩ := hc.canonicalChain.block _ h hh.hash
  have hnum : c.state.currentCanonicalBlock = head.header.number := BitVec.eq_of_toNat_eq hn.symm
  have htd := hh.difficulty
  rw [hnum] at htd
  refine ⟨hc.canonicalChain, head, hhead, hc.isHead hnum hh.hash, td.toNat,
    hc.exists_toNat_eq hg hfree hbound hhead htd, fun block hb => ?_, ?_⟩
  · obtain ⟨td', htd'⟩ := Option.isSome_iff_exists.mp
      ((hc.weighed _ _).trans (hc.inserted block hb))
    exact ⟨td'.toNat, hc.exists_toNat_eq hg hfree hbound hb htd', hh.le _ _ td' htd'⟩
  · intro block check err c' hins
    obtain ⟨heff, -⟩ := insertBlock_effect hc hh hbad hins
    have hg' := List.mem_cons_of_mem block hg
    cases heff with
    | unchanged he hs => exact ⟨fun _ => hs, fun h => absurd h he⟩
    | newHead hc' hh' hn' hlt =>
      refine ⟨fun h => absurd rfl h, fun _ hfree' hbound' => ?_⟩
      have htd' := hh'.difficulty
      rw [hn'] at htd'
      exact ⟨_, hc'.exists_toNat_eq hg' hfree' hbound' List.mem_cons_self htd',
        .inl ⟨hlt, hc'.isHead hn' hh'.hash⟩⟩
    | sideBlock hc' hh' hs htd' hle =>
      refine ⟨fun h => absurd rfl h, fun _ hfree' hbound' => ?_⟩
      exact ⟨_, hc'.exists_toNat_eq hg' hfree' hbound' List.mem_cons_self htd', .inr ⟨hle, hs⟩⟩

end Choice

section Examples

/-- Empty blocks above a genesis block, whose beneficiary has the address zero. -/
def emptyBlock (parentHash : Bytes32) (number timestamp : Uint64) (difficulty : Uint256) : Block where
  header :=
    { parentHash := parentHash
      ommersHash := kEmptyListHash
      stateRoot := Trie.kEmptyRoot
      transactionsRoot := Trie.kEmptyRoot
      receiptsRoot := Trie.kEmptyRoot
      difficulty := difficulty
      number := number
      gasLimit := 5000
      timestamp := timestamp }

def genesisHash : Bytes32 :=
  ⟨[0xae, 0xae, 0xde, 0xfd, 0x69, 0xb4, 0x78, 0xe8, 0x61, 0x33, 0x3c, 0xf5, 0x57, 0xcc, 0xc4, 0x15,
    0x1d, 0x4c, 0x2b, 0xcb, 0x9f, 0x11, 0xbc, 0xbe, 0x6c, 0x40, 0xce, 0xbd, 0xc2, 0x87, 0xd4, 0x03],
    rfl⟩

def fastHash : Bytes32 :=
  ⟨[0xef, 0x41, 0x49, 0xd6, 0x8e, 0x1f, 0xb2, 0xad, 0x68, 0x54, 0xb1, 0x5f, 0x56, 0xb0, 0x27, 0x51,
    0xf7, 0x45, 0xd5, 0x4c, 0x5c, 0xf0, 0x14, 0x01, 0x2b, 0x64, 0xd2, 0x4f, 0xbd, 0xbf, 0x88, 0xc4],
    rfl⟩

def slowHash : Bytes32 :=
  ⟨[0xe9, 0x4d, 0xda, 0xa1, 0x35, 0x67, 0x8d, 0x03, 0x75, 0xbb, 0x3e, 0x94, 0x74, 0x6f, 0x11, 0xcd,
    0x5b, 0x36, 0xfb, 0xc1, 0xd9, 0x52, 0xb8, 0xc9, 0x4a, 0x75, 0x90, 0x65, 0x74, 0x9c, 0x91, 0x17],
    rfl⟩

def genesisBlock : Block := emptyBlock default 0 0 131072

/-- A block ten seconds after the genesis block. -/
def fastBlock : Block := emptyBlock genesisHash 1 10 131136

/-- A block twenty seconds after the genesis block. -/
def slowBlock : Block := emptyBlock genesisHash 1 20 131072

/-- The Frontier rules for empty blocks, without seals. -/
def frontier : Execution where
  keccak bytes :=
    if bytes = Rlp.encodeBlockHeader genesisBlock.header then genesisHash
    else if bytes = Rlp.encodeBlockHeader fastBlock.header then fastHash
    else if bytes = Rlp.encodeBlockHeader slowBlock.header then slowHash
    else if bytes = [0xc0] then kEmptyListHash
    else default
  canonicalDifficulty _ timestamp parentDifficulty parentTimestamp _ :=
    let x := parentDifficulty >>> 11
    let difficulty := if (timestamp - parentTimestamp).toNat < 13 then parentDifficulty + x
      else parentDifficulty - x
    if difficulty.toNat < 131072 then 131072 else difficulty
  daoBlock := none
  isValidSeal _ := true
  transactionsRoot _ := Trie.kEmptyRoot
  preValidateTransaction _ _ := .ok
  recoverSender _ := none
  execute b block :=
    let initial := b.readAccount block.header.beneficiary
    let account := initial.getD {}
    .ok [.account block.header.beneficiary initial
      (some { account with balance := account.balance + 5000000000000000000 })]

theorem bounded_frontier :
    Bounded frontier genesisBlock [slowBlock, fastBlock, genesisBlock] := by
  intro header w hw
  have hle : w ≤ 131136 * (header.number.toNat + 1) := by
    induction hw with
    | genesis => decide
    | @child parent w block _ hb _ hn ih =>
      have hd : ∀ block ∈ [slowBlock, fastBlock, genesisBlock],
          block.header.difficulty.toNat ≤ 131136 := by decide
      have := hd block hb
      omega
  have := header.number.isLt
  omega

set_option maxRecDepth 10000 in
theorem inserted_frontier :
    ∃ c, Inserted frontier {} genesisBlock [slowBlock, fastBlock, genesisBlock] c ∧
      c.state.canonicalHashes = [genesisHash, fastHash] := by
  have hrun : (do
      let (err, c) ← insertBlock frontier fastBlock false (init frontier {} genesisBlock)
      let (err', c') ← insertBlock frontier slowBlock false c
      some (err, err', c'.state.canonicalHashes)) = some (.ok, .ok, [genesisHash, fastHash]) := by
    decide
  obtain ⟨⟨err, c⟩, h, hrun⟩ := Option.bind_eq_some_iff.mp hrun
  obtain ⟨⟨err', c'⟩, h', hrun⟩ := Option.bind_eq_some_iff.mp hrun
  obtain ⟨rfl, rfl, hhashes⟩ : err = .ok ∧ err' = .ok ∧
      c'.state.canonicalHashes = [genesisHash, fastHash] := by simpa using hrun
  exact ⟨c', ((Inserted.init (.refl _) rfl).accept h).accept h', hhashes⟩

set_option maxRecDepth 10000 in
/-- The faster block is the head, and the slower one stays on a side chain. -/
theorem insertBlock_forkChoice_frontier :
    ∃ c, Inserted frontier {} genesisBlock [slowBlock, fastBlock, genesisBlock] c ∧
      c.state.canonicalHashes = [genesisHash, fastHash] ∧
      CanonicalChain frontier genesisBlock [slowBlock, fastBlock, genesisBlock]
        c.state.canonicalHashes ∧
      ∃ head ∈ [slowBlock, fastBlock, genesisBlock], IsHead frontier c.state head := by
  obtain ⟨c, hi, hhashes⟩ := inserted_frontier
  obtain ⟨hchain, head, hmem, hhead, -⟩ :=
    insertBlock_forkChoice hi (by decide) bounded_frontier
  exact ⟨c, hi, hhashes, hchain, head, hmem, hhead⟩

end Examples

end Silkworm.Blockchain
