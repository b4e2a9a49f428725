import Silkworm.Validity

/-!
# Ommers of accepted blocks

An ommer of an accepted block is a sibling of one of its ancestors, at most six generations up,
and has not been an ommer since. Block numbers go down by one with each generation, modulo
their width: a chain may pass from the highest number to zero.
-/

namespace Silkworm.Validity
open BlockReader

variable {S : Type} [BlockReader S]

section Ancestors

/-- Headers are stored under their number and hash, and so are the bodies that go with them. -/
structure WellKeyed (keccak : Bytes → Bytes32) (state : S) : Prop where
  number : ∀ n h header, readHeader state n h = some header → header.number = n
  hash : ∀ n h header, readHeader state n h = some header →
    keccak (Rlp.encodeBlockHeader header) = h
  body : ∀ n h, (readBody state n h).isSome → (readHeader state n h).isSome

variable (state : S)

/-- The ancestor of a generation, the parent being the first. -/
def ancestor (header : BlockHeader) : ℕ → Option BlockHeader
  | 0 => some header
  | k + 1 => (ancestor header k).bind (getParent state)

/-- The body of the ancestor of a generation from the first on, stored under the hash by which
its child refers to it. -/
def ancestorBody (header : BlockHeader) (k : ℕ) : Option BlockBody := do
  let child ← ancestor state header (k - 1)
  let parent ← getParent state child
  readBody state parent.number child.parentHash

/-- The ommer has the same parent as the ancestor of the generation, is another block, and is
not among the ommers up to that generation. -/
structure IsOmmer (header ommer : BlockHeader) (k : ℕ) : Prop where
  sibling : ∃ kin parent, ancestor state header k = some kin ∧ getParent state kin = some parent ∧
    getParent state ommer = some parent ∧ ommer ≠ kin
  fresh : ∀ j, 1 ≤ j → j ≤ k → ∃ body, ancestorBody state header j = some body ∧ ommer ∉ body.ommers

end Ancestors

section Numbers

variable {keccak : Bytes → Bytes32} {state : S} {header ommer : BlockHeader} {k : ℕ}

theorem WellKeyed.number_getParent (hs : WellKeyed keccak state) {parent : BlockHeader}
    (h : getParent state header = some parent) : parent.number = header.number - 1 :=
  hs.number _ _ parent h

theorem WellKeyed.number_ancestor (hs : WellKeyed keccak state) {kin : BlockHeader}
    (h : ancestor state header k = some kin) : kin.number = header.number - BitVec.ofNat 64 k := by
  induction k generalizing kin with
  | zero =>
    cases h
    simp
  | succ k ih =>
    obtain ⟨child, hchild, hparent⟩ := Option.bind_eq_some_iff.mp h
    rw [hs.number_getParent hparent, ih hchild, BitVec.ofNat_add]
    bv_omega

/-- An ommer has the number of its sibling. -/
theorem IsOmmer.number (h : IsOmmer state header ommer k) (hs : WellKeyed keccak state) :
    ommer.number = header.number - BitVec.ofNat 64 k := by
  obtain ⟨kin, parent, hkin, hparent, hommer, -⟩ := h.sibling
  have hsame : ommer.number - 1 = kin.number - 1 := by
    rw [← hs.number_getParent hommer, hs.number_getParent hparent]
  rw [← hs.number_ancestor hkin]
  bv_omega

/-- Without a header below the number 0 the numbers go down to 0 at most. -/
theorem WellKeyed.le_number (hs : WellKeyed keccak state)
    (hmax : ∀ h, readHeader state (0 - 1) h = none) {kin parent : BlockHeader}
    (h : ancestor state header k = some kin) (hp : getParent state kin = some parent) :
    kin.number.toNat + k = header.number.toNat ∧ 0 < kin.number.toNat := by
  have hpos : 0 < kin.number.toNat := by
    by_contra h0
    have hzero : kin.number = 0 := by bv_omega
    rw [getParent, hzero, hmax] at hp
    cases hp
  refine ⟨?_, hpos⟩
  induction k generalizing kin parent with
  | zero =>
    cases h
    rfl
  | succ k ih =>
    obtain ⟨child, hchild, hkin⟩ := Option.bind_eq_some_iff.mp h
    have hnumber := hs.number_getParent hkin
    have hchildPos : 0 < child.number.toNat := by
      by_contra h0
      have hzero : child.number = 0 := by bv_omega
      rw [getParent, hzero, hmax] at hkin
      cases hkin
    have := ih hchild hkin hchildPos
    bv_omega

end Numbers

section Kin

variable {state : S} {header ommer : BlockHeader}

/-- The walk up the mainline, with the ommers that it collects. -/
theorem isKin_spec {n k : ℕ} {mainline child : BlockHeader} {oldOmmers collected : List BlockHeader}
    (hc : ancestor state header k = some child) (hm : getParent state child = some mainline)
    (h : isKin state ommer n mainline child.parentHash oldOmmers = (true, collected)) :
    oldOmmers ⊆ collected ∧ ∃ j, k + 1 ≤ j ∧ j ≤ k + n ∧
      (∃ kin parent, ancestor state header j = some kin ∧ getParent state kin = some parent ∧
        getParent state ommer = some parent ∧ ommer ≠ kin) ∧
      ∀ i, k + 1 ≤ i → i ≤ j →
        ∃ body, ancestorBody state header i = some body ∧ body.ommers ⊆ collected := by
  induction n generalizing k mainline child oldOmmers with
  | zero => cases h
  | succ n ih =>
    have hmainline : ancestor state header (k + 1) = some mainline :=
      Option.bind_eq_some_iff.mpr ⟨child, hc, hm⟩
    rw [isKin] at h
    by_cases hne : ommer = mainline
    · rw [if_pos hne] at h
      cases h
    rw [if_neg hne] at h
    cases hbody : readBody state mainline.number child.parentHash with
    | none =>
      rw [hbody] at h
      cases h
    | some body =>
      have hfirst : ancestorBody state header (k + 1) = some body := by
        rw [ancestorBody, Nat.add_sub_cancel, hc]
        simp only [Option.bind_eq_bind, Option.bind_some, hm, hbody]
      rw [hbody] at h
      dsimp only at h
      cases hparent : getParent state mainline with
      | none =>
        rw [hparent] at h
        cases h
      | some parent =>
        rw [hparent] at h
        dsimp only at h
        split_ifs at h with hsibling
        · cases h
          refine ⟨List.subset_append_left _ _, k + 1, le_rfl, by omega,
            ⟨mainline, parent, hmainline, hparent, hsibling, hne⟩, fun i hi hj => ?_⟩
          obtain rfl : i = k + 1 := by omega
          exact ⟨body, hfirst, List.subset_append_right _ _⟩
        · obtain ⟨hold, j, hkj, hjn, hkin, hbodies⟩ := ih hmainline hparent h
          refine ⟨fun x hx => hold (List.mem_append_left _ hx), j, by omega, by omega, hkin,
            fun i hi hj => ?_⟩
          by_cases hik : i = k + 1
          · subst hik
            exact ⟨body, hfirst, fun x hx => hold (List.mem_append_right _ hx)⟩
          · exact hbodies i (by omega) hj

variable {rules : ChainRules}

theorem validateOmmers_spec {parent : BlockHeader} (hp : getParent state header = some parent)
    {ommers : List BlockHeader}
    (h : validateOmmers rules state parent header.parentHash ommers = .ok) (ho : ommer ∈ ommers) :
    ∃ k, 1 ≤ k ∧ k ≤ 6 ∧ IsOmmer state header ommer k := by
  induction ommers with
  | nil => cases ho
  | cons o os ih =>
    rw [validateOmmers] at h
    split_ifs at h with hheader
    cases hkin : isKin state o 6 parent header.parentHash [] with
    | mk kin collected =>
      rw [hkin] at h
      dsimp only at h
      split_ifs at h with hk hold
      rcases List.mem_cons.mp ho with rfl | ho
      · have hk : kin = true := by simpa using hk
        rw [hk] at hkin
        obtain ⟨-, j, hj, hj', hsibling, hbodies⟩ := isKin_spec (k := 0) rfl hp hkin
        refine ⟨j, by omega, by omega, hsibling, fun i hi hij => ?_⟩
        obtain ⟨body, hbody, hsubset⟩ := hbodies i (by omega) hij
        exact ⟨body, hbody, fun hmem => hold (hsubset hmem)⟩
      · exact ih h ho

theorem nodup_of_length_le_two {l : List BlockHeader} (hl : l.length ≤ 2)
    (hd : ¬(l.length = 2 ∧ l[0]? = l[1]?)) : l.Nodup := by
  match l with
  | [] => exact List.nodup_nil
  | [o] => exact List.nodup_singleton o
  | [o, o'] => simpa using hd
  | _ :: _ :: _ :: _ =>
    simp only [List.length_cons] at hl
    omega

variable {keccak : Bytes → Bytes32} {block : Block}

/-- The ommers of an accepted block. Their numbers are those of the siblings, and the factor of
their reward is between 2 and 7 for the six generations. -/
theorem preValidateBlock_ommers (hs : WellKeyed keccak state)
    (h : preValidateBlock rules state block = .ok) :
    block.ommers.length ≤ 2 ∧ block.ommers.Nodup ∧
    ∀ ommer ∈ block.ommers, ∃ k, 1 ≤ k ∧ k ≤ 6 ∧ IsOmmer state block.header ommer k ∧
      ommer.number = block.header.number - BitVec.ofNat 64 k ∧
      (8 + ommer.number - block.header.number).toNat = 8 - k ∧
      ((∀ h, readHeader state (0 - 1) h = none) →
        ommer.number.toNat + k = block.header.number.toNat) := by
  have hblock := accepted_of_preValidateBlock h
  refine ⟨hblock.length, nodup_of_length_le_two hblock.length hblock.distinct, fun ommer ho => ?_⟩
  obtain ⟨parent, hparent, hommers⟩ := hblock.ommers
  obtain ⟨k, hk, hk', hommer⟩ := validateOmmers_spec hparent hommers ho
  have hnumber := hommer.number hs
  refine ⟨k, hk, hk', hommer, hnumber, ?_, fun hmax => ?_⟩
  · rw [hnumber]
    bv_omega
  · obtain ⟨kin, p, hkin, hp, -, -⟩ := hommer.sibling
    rw [hnumber, ← hs.number_ancestor hkin]
    exact (hs.le_number hmax hkin hp).1

end Kin

section Examples

/-- A buffer with a list of blocks, each found under its number and hash. -/
structure ListedBlocks where
  keccak : Bytes → Bytes32
  blocks : List (BlockHeader × BlockBody)

def ListedBlocks.find (s : ListedBlocks) (n : Uint64) (h : Bytes32) :
    Option (BlockHeader × BlockBody) :=
  s.blocks.find? fun b => b.1.number = n ∧ s.keccak (Rlp.encodeBlockHeader b.1) = h

instance : BlockReader ListedBlocks where
  readHeader s n h := (s.find n h).map Prod.fst
  readBody s n h := (s.find n h).map Prod.snd

theorem wellKeyed_listedBlocks (s : ListedBlocks) : WellKeyed s.keccak s := by
  have hfind (n : Uint64) (h : Bytes32) (header : BlockHeader)
      (hr : readHeader s n h = some header) :
      header.number = n ∧ s.keccak (Rlp.encodeBlockHeader header) = h := by
    obtain ⟨b, hb, rfl⟩ := Option.map_eq_some_iff.mp hr
    simpa using List.find?_some hb
  refine ⟨fun n h header hr => (hfind n h header hr).1, fun n h header hr => (hfind n h header hr).2,
    fun n h hb => ?_⟩
  change ((s.find n h).map Prod.snd).isSome at hb
  change ((s.find n h).map Prod.fst).isSome
  rwa [Option.isSome_map] at hb ⊢

variable (rules : ChainRules) (n : Uint64)

private def grandparent : BlockHeader where
  number := n
  gasLimit := 10000

private def child (parent : BlockHeader) (beneficiary : Address) (ommersHash : Bytes32) :
    BlockHeader where
  parentHash := rules.keccak (Rlp.encodeBlockHeader parent)
  ommersHash
  beneficiary
  transactionsRoot := rules.transactionsRoot []
  difficulty := rules.canonicalDifficulty (parent.number + 1) (parent.timestamp + 1)
    parent.difficulty parent.timestamp (parent.ommersHash ≠ kEmptyListHash)
  number := parent.number + 1
  gasLimit := parent.gasLimit
  timestamp := parent.timestamp + 1

private def mainline : BlockHeader := child rules (grandparent n) default default

private def uncle : BlockHeader :=
  child rules (grandparent n) ⟨List.replicate 20 9, rfl⟩ default

private def nephew : Block where
  header := child rules (mainline rules n) default
    (rules.keccak (Rlp.encodeVector Rlp.lengthBlockHeader Rlp.encodeBlockHeader [uncle rules n]))
  ommers := [uncle rules n]

private def mainlineBlocks : ListedBlocks where
  keccak := rules.keccak
  blocks := [(grandparent n, {}), (mainline rules n, {})]

private theorem find_mainlineBlocks :
    (mainlineBlocks rules n).find n (rules.keccak (Rlp.encodeBlockHeader (grandparent n))) =
        some (grandparent n, {}) ∧
      (mainlineBlocks rules n).find (n + 1)
        (rules.keccak (Rlp.encodeBlockHeader (mainline rules n))) = some (mainline rules n, {}) := by
  have hne : ¬n = n + 1 := by bv_omega
  constructor
  · simp only [ListedBlocks.find, mainlineBlocks, List.find?_cons, grandparent, decide_true,
      and_self]
  · simp only [ListedBlocks.find, mainlineBlocks, List.find?_cons, grandparent, hne, false_and,
      decide_false, mainline, child, decide_true, and_self]

private theorem getParent_child (beneficiary : Address) (ommersHash : Bytes32) :
    getParent (mainlineBlocks rules n) (child rules (grandparent n) beneficiary ommersHash) =
        some (grandparent n) ∧
      getParent (mainlineBlocks rules n) (child rules (mainline rules n) beneficiary ommersHash) =
        some (mainline rules n) := by
  have hsub (m : Uint64) : m + 1 - 1 = m := by bv_omega
  obtain ⟨hgrandparent, hmainline⟩ := find_mainlineBlocks rules n
  constructor
  · change ((mainlineBlocks rules n).find (n + 1 - 1) _).map Prod.fst = _
    rw [hsub]
    exact congrArg (Option.map Prod.fst) hgrandparent
  · change ((mainlineBlocks rules n).find (n + 1 + 1 - 1) _).map Prod.fst = _
    rw [hsub]
    exact congrArg (Option.map Prod.fst) hmainline

private theorem validateBlockHeader_child {parent : BlockHeader} (hd : rules.daoBlock = none)
    (hseal : ∀ header, rules.isValidSeal header = true) (beneficiary : Address)
    (ommersHash : Bytes32) (hg : parent.gasLimit = 10000) (ht : parent.timestamp.toNat < 5)
    (hp : getParent (mainlineBlocks rules n) (child rules parent beneficiary ommersHash) =
      some parent) :
    validateBlockHeader rules (mainlineBlocks rules n) (child rules parent beneficiary ommersHash) =
      .ok := by
  have htime : ¬(parent.timestamp + 1).toNat ≤ parent.timestamp.toNat := by bv_omega
  rw [validateBlockHeader, hp]
  simp only [child, hg, gasDelta, isDaoHeader, hd, hseal, htime]
  simp

private theorem preValidateBlock_nephew (hd : rules.daoBlock = none)
    (hseal : ∀ header, rules.isValidSeal header = true) :
    preValidateBlock rules (mainlineBlocks rules n) (nephew rules n) = .ok := by
  have huncle := (getParent_child rules n ⟨List.replicate 20 9, rfl⟩ default).1
  have hmainline := (getParent_child rules n default default).1
  have hnephew := (getParent_child rules n default (nephew rules n).header.ommersHash).2
  have hheader : validateBlockHeader rules (mainlineBlocks rules n) (nephew rules n).header = .ok :=
    validateBlockHeader_child rules n hd hseal _ _ rfl (by exact Nat.succ_lt_succ (Nat.succ_pos 3)) hnephew
  have hommer : validateBlockHeader rules (mainlineBlocks rules n) (uncle rules n) = .ok :=
    validateBlockHeader_child rules n hd hseal _ _ rfl (by exact Nat.succ_pos 4) huncle
  have hne : uncle rules n ≠ mainline rules n := by
    intro h
    have hbeneficiary : (⟨List.replicate 20 9, rfl⟩ : Address) = default :=
      congrArg BlockHeader.beneficiary h
    exact absurd hbeneficiary (by decide)
  have hbody : readBody (mainlineBlocks rules n) (mainline rules n).number
      (nephew rules n).header.parentHash = some {} :=
    congrArg (Option.map Prod.snd) (find_mainlineBlocks rules n).2
  have hkin : isKin (mainlineBlocks rules n) (uncle rules n) 6 (mainline rules n)
      (nephew rules n).header.parentHash [] = (true, []) := by
    rw [isKin, if_neg hne, hbody]
    dsimp only
    rw [mainline, hmainline]
    exact if_pos huncle
  have hommers : validateOmmers rules (mainlineBlocks rules n) (mainline rules n)
      (nephew rules n).header.parentHash (nephew rules n).ommers = .ok := by
    change validateOmmers rules _ _ _ [uncle rules n] = .ok
    rw [validateOmmers, hkin, hommer]
    rfl
  have hparent : getParent (mainlineBlocks rules n) (nephew rules n).header =
      some (mainline rules n) := hnephew
  rw [preValidateBlock, hheader, hparent]
  dsimp only [Option.getD_some]
  rw [hommers]
  simp [nephew, child, validateTransactions]

private def lenient : ChainRules where
  keccak b := ⟨List.replicate 31 0 ++ [UInt8.ofNat b.length], rfl⟩
  canonicalDifficulty _ _ _ _ _ := 17
  daoBlock := none
  isValidSeal _ := true
  transactionsRoot _ := default
  preValidateTransaction _ _ := .ok

/-- A block with the number 2 and an ommer. -/
theorem preValidateBlock_ommers_nephew :
    preValidateBlock lenient (mainlineBlocks lenient 0) (nephew lenient 0) = .ok ∧
    ∃ k, 1 ≤ k ∧ k ≤ 6 ∧
      IsOmmer (mainlineBlocks lenient 0) (nephew lenient 0).header (uncle lenient 0) k ∧
      (uncle lenient 0).number.toNat + k = 2 := by
  have hvalid := preValidateBlock_nephew lenient 0 rfl fun _ => rfl
  have hnone (h : Bytes32) : readHeader (mainlineBlocks lenient 0) (0 - 1) h = none := rfl
  obtain ⟨-, -, hommers⟩ :=
    preValidateBlock_ommers (wellKeyed_listedBlocks (mainlineBlocks lenient 0)) hvalid
  obtain ⟨k, hk, hk', hommer, -, -, hnumber⟩ := hommers (uncle lenient 0) (List.mem_singleton_self _)
  exact ⟨hvalid, k, hk, hk', hommer, hnumber hnone⟩

/-- A block with the number 0 that follows one with the highest number may have an ommer with the
highest number, whatever the hash function and the difficulty are. -/
theorem not_preValidateBlock_ommers_wrapped :
    ¬∃ rules : ChainRules, rules.daoBlock = none ∧
      (∀ header, rules.isValidSeal header = true) ∧
      ∀ (state : ListedBlocks) (block : Block), WellKeyed rules.keccak state →
        preValidateBlock rules state block = .ok → ∀ ommer ∈ block.ommers,
          block.header.number.toNat ≤ ommer.number.toNat + 6 ∧
            ommer.number.toNat + 1 ≤ block.header.number.toNat := by
  intro h
  obtain ⟨rules, hd, hseal, hall⟩ := h
  have hvalid := preValidateBlock_nephew rules (0 - 2) hd hseal
  have hnumbers := hall _ _ (wellKeyed_listedBlocks (mainlineBlocks rules (0 - 2))) hvalid
    (uncle rules (0 - 2)) (List.mem_singleton_self _)
  have hommer : (uncle rules (0 - 2)).number.toNat = 2 ^ 64 - 1 := rfl
  have hblock : (nephew rules (0 - 2)).header.number.toNat = 0 := by
    change ((0 - 2 + 1 + 1 : Uint64)).toNat = 0
    decide
  rw [hommer, hblock] at hnumbers
  omega

end Examples

end Silkworm.Validity
