import Silkworm.BlockTables

/-!
# Hashes of recent blocks

The hashes that a block can ask for are collected in a vector, which all queries share and which they
extend from its last entry. Every entry is that of the chain of parents, or zero behind a header that
is missing, whatever was asked before.
-/

namespace Silkworm.EvmHost
open BlockReader

variable {S : Type} [BlockReader S] (db : S) (header : BlockHeader)

/-- The loop over the new entries, of which the given number is left. It ends at a header that is
missing. -/
def extendHashes (newSize : ℕ) : ℕ → List Bytes32 → List Bytes32
  | 0, hashes => hashes
  | k + 1, hashes =>
    let i := newSize - (k + 1)
    match readHeader db (header.number - BitVec.ofNat 64 i) (hashes.getD (i - 1) default) with
    | none => hashes
    | some parent => extendHashes newSize k (hashes.set i parent.parentHash)

/-- The answer and the vector `block_hashes_` afterwards. An entry that is not there is none. -/
def getBlockHash (n : ℤ) (hashes : List Bytes32) : Option Bytes32 × List Bytes32 :=
  let baseNumber := header.number
  let newSize : Uint64 := baseNumber - BitVec.ofInt 64 n
  let hashes := if hashes.isEmpty then [header.parentHash] else hashes
  let oldSize := hashes.length
  let hashes := if oldSize < newSize.toNat then
      hashes ++ List.replicate (newSize.toNat - oldSize) default
    else hashes
  let hashes := extendHashes db header newSize.toNat (newSize.toNat - oldSize) hashes
  (hashes[(newSize - 1).toNat]?, hashes)

/-- The answers to queries one after the other. -/
def getBlockHashes : List ℤ → List Bytes32 → List (Option Bytes32)
  | [], _ => []
  | n :: ns, hashes =>
    let (answer, hashes) := getBlockHash db header n hashes
    answer :: getBlockHashes ns hashes

/-- The hash that comes after the given number of steps to the parent, unless a header is missing. -/
def followParents : ℕ → Option Bytes32
  | 0 => some header.parentHash
  | k + 1 => (followParents k).bind fun hash =>
    (readHeader db (header.number - BitVec.ofNat 64 (k + 1)) hash).map BlockHeader.parentHash

/-- The naive answer. -/
def naiveBlockHash (n : ℤ) : Bytes32 :=
  (followParents db header (header.number.toNat - 1 - n).toNat).getD default

/-- The vector holds the hashes of the chain. -/
def Following (hashes : List Bytes32) : Prop :=
  ∀ (i : ℕ) (h : i < hashes.length), hashes[i] = (followParents db header i).getD default

variable {db header} {hashes : List Bytes32} {n : ℤ}

variable (header) in
/-- Behind a missing header there is none, either, since none is stored under the zero hash. -/
theorem followParents_succ (hzero : ∀ n, readHeader db n default = none) (k : ℕ) :
    followParents db header (k + 1) =
      (readHeader db (header.number - BitVec.ofNat 64 (k + 1))
        ((followParents db header k).getD default)).map BlockHeader.parentHash := by
  rw [followParents]
  cases followParents db header k with
  | none => rw [Option.bind_none, Option.getD_none, hzero, Option.map_none]
  | some hash => rfl

theorem followParents_of_le (hnone : followParents db header k = none) {i : ℕ} (h : k ≤ i) :
    followParents db header i = none := by
  induction i, h using Nat.le_induction with
  | base => exact hnone
  | succ i _ ih => rw [followParents, ih, Option.bind_none]

variable (header) in
/-- The loop, on a vector that holds the hashes up to its new entries, which are zero. -/
theorem extendHashes_following (hzero : ∀ n, readHeader db n default = none) {newSize : ℕ} (k : ℕ)
    (hlen : hashes.length = newSize) (hk : k < newSize)
    (hold : ∀ (i : ℕ) (h : i < hashes.length), i < newSize - k →
      hashes[i] = (followParents db header i).getD default)
    (hnew : ∀ (i : ℕ) (h : i < hashes.length), newSize - k ≤ i → hashes[i] = default) :
    Following db header (extendHashes db header newSize k hashes) ∧
      (extendHashes db header newSize k hashes).length = newSize := by
  induction k generalizing hashes with
  | zero => exact ⟨fun i h => hold i h (hlen ▸ h), hlen⟩
  | succ k ih =>
    obtain ⟨i, hi⟩ : ∃ i, newSize - (k + 1) = i + 1 := ⟨newSize - (k + 1) - 1, by omega⟩
    have hlast : hashes.getD i default = (followParents db header i).getD default := by
      rw [List.getD_eq_getElem?_getD, List.getElem?_eq_getElem (by omega), Option.getD_some]
      exact hold i (by omega) (by omega)
    have hnext := followParents_succ header hzero i
    rw [extendHashes, hi, Nat.add_sub_cancel, hlast]
    cases hread : readHeader db (header.number - BitVec.ofNat 64 (i + 1))
        ((followParents db header i).getD default) with
    | none =>
      rw [hread] at hnext
      refine ⟨fun j h => ?_, hlen⟩
      by_cases hj : j < i + 1
      · exact hold j h (by omega)
      · rw [hnew j h (by omega), followParents_of_le hnext (Nat.not_lt.mp hj)]
        rfl
    | some parent =>
      rw [hread] at hnext
      refine ih ?_ (by omega) (fun j h hj => ?_) fun j h hj => ?_
      · rw [List.length_set, hlen]
      · rw [List.getElem_set]
        split_ifs with heq
        · rw [← heq, hnext]
          rfl
        · exact hold j (by simpa using h) (by omega)
      · rw [List.getElem_set, if_neg (by omega)]
        exact hnew j (by simpa using h) (by omega)

/-- One query. -/
theorem getBlockHash_following (hzero : ∀ n, readHeader db n default = none)
    (hn : 0 ≤ n) (hlt : n ≤ header.number.toNat - 1) (h : Following db header hashes) :
    (getBlockHash db header n hashes).1 = some (naiveBlockHash db header n) ∧
      Following db header (getBlockHash db header n hashes).2 := by
  obtain ⟨m, rfl⟩ := Int.eq_ofNat_of_zero_le hn
  have hmlt : m < header.number.toNat := by omega
  have hint : BitVec.ofInt 64 (m : ℤ) = BitVec.ofNat 64 m := BitVec.ofInt_natCast 64 m
  have hsize : (header.number - BitVec.ofInt 64 (m : ℤ)).toNat = header.number.toNat - m := by
    rw [hint]
    bv_omega
  have hindex : (header.number - BitVec.ofInt 64 (m : ℤ) - 1).toNat = header.number.toNat - m - 1 := by
    rw [hint]
    bv_omega
  have hsteps : (header.number.toNat - 1 - (m : ℤ)).toNat = header.number.toNat - m - 1 := by omega
  rw [getBlockHash, naiveBlockHash, hsteps]
  dsimp only
  rw [hsize, hindex]
  generalize hstart : (if hashes.isEmpty then [header.parentHash] else hashes) = start
  have hpos : 0 < start.length := by
    rw [← hstart]
    split_ifs with hempty
    · exact Nat.one_pos
    · exact List.length_pos_of_ne_nil fun hnil => hempty (List.isEmpty_iff.mpr hnil)
  have hfollowing : Following db header start := by
    rw [← hstart]
    split_ifs
    · intro i hi
      obtain rfl : i = 0 := Nat.lt_one_iff.mp hi
      rfl
    · exact h
  generalize hnewSize : header.number.toNat - m = newSize
  have hanswer {hashes' : List Bytes32} (hf : Following db header hashes')
      (hle : newSize ≤ hashes'.length) :
      hashes'[newSize - 1]? = some ((followParents db header (newSize - 1)).getD default) := by
    rw [List.getElem?_eq_getElem (by omega), hf]
  by_cases hgrow : start.length < newSize
  · rw [if_pos hgrow]
    obtain ⟨hf, hlen⟩ := extendHashes_following header hzero (newSize - start.length)
      (show (start ++ List.replicate (newSize - start.length) default).length = newSize by
        rw [List.length_append, List.length_replicate]
        omega) (by omega)
      (fun i hi hi' => by
        rw [List.getElem_append_left (by omega)]
        exact hfollowing i (by omega))
      (fun i hi hi' => by
        rw [List.getElem_append_right (by omega), List.getElem_replicate])
    exact ⟨hanswer hf hlen.ge, hf⟩
  · rw [if_neg hgrow, Nat.sub_eq_zero_of_le (Nat.not_lt.mp hgrow), extendHashes]
    exact ⟨hanswer hfollowing (Nat.not_lt.mp hgrow), hfollowing⟩

/-- All queries within one block, in any order, get the naive answers. -/
theorem getBlockHashes_eq_naive (hzero : ∀ n, readHeader db n default = none) (ns : List ℤ)
    (hns : ∀ n ∈ ns, 0 ≤ n ∧ (header.number.toNat : ℤ) - 256 ≤ n ∧ n ≤ header.number.toNat - 1) :
    getBlockHashes db header ns [] = ns.map fun n => some (naiveBlockHash db header n) := by
  have hall (hashes : List Bytes32) (h : Following db header hashes) :
      getBlockHashes db header ns hashes = ns.map fun n => some (naiveBlockHash db header n) := by
    induction ns generalizing hashes with
    | nil => rfl
    | cons n ns ih =>
      obtain ⟨⟨hn, -, hlt⟩, hrest⟩ := List.forall_mem_cons.mp hns
      obtain ⟨hanswer, hnext⟩ := getBlockHash_following hzero hn hlt h
      rw [getBlockHashes, List.map_cons, ← hanswer, ← ih hrest _ hnext]
  exact hall [] fun i hi => absurd hi (Nat.not_lt_zero i)

def oneHash : Bytes32 := FixedBytes.replicate 32 1
def twoHash : Bytes32 := FixedBytes.replicate 32 2

/-- A block whose parent is missing, in a buffer. -/
def parentBlock : Block := { header := { number := 2, parentHash := oneHash } }

def withParent : MemoryBuffer := MemoryBuffer.insertBlock parentBlock twoHash {}

theorem readHeader_withParent (n : Uint64) (h : Bytes32) :
    readHeader withParent n h =
      if n.toNat = 2 ∧ h = twoHash then some parentBlock.header else none :=
  (MemoryBuffer.lookup_headers_insertBlock parentBlock twoHash {} n.toNat h).trans rfl

/-- The vector grows over the missing header, and two queries read the zero behind it. -/
theorem getBlockHashes_eq_naive_withParent :
    getBlockHashes withParent { number := 3, parentHash := twoHash } [1, 0, 2, 0] [] =
      [some oneHash, some default, some twoHash, some default] := by
  rw [getBlockHashes_eq_naive]
  · simp only [List.map_cons, List.map_nil, naiveBlockHash, List.cons.injEq, Option.some.injEq]
    simp [followParents, readHeader_withParent, parentBlock]
  · intro n
    rw [readHeader_withParent, if_neg]
    exact fun h => absurd h.2 (by decide)
  · simp

end Silkworm.EvmHost
