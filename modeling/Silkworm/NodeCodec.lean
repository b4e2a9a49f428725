import Silkworm.DbTrieLoader

/-!
# The stored form of trie nodes

The hash of the root is not announced. A node is read back with one if the bytes hold one hash
more than the mask has bits, so only those nodes are told apart whose hashes agree with their
mask. All the others are read as a node that they are not.
-/

namespace Silkworm.Db
open BigEndian Rlp ViewParsers
open Trie hiding Entry Before

section Decoding

/-- `load_big_u16`, after which the view moves on. -/
def loadBigU16 : Parser UInt8 Unit Mask := do
  let be ← consume 2
  pure (BitVec.ofNat 16 (ofBigEndian be.val))

def loadRootHash (hashMask : Mask) : Parser UInt8 Unit (Option Bytes32) := do
  let n ← remaining
  if hashMask.count + 1 = n / kHashLength then
    let hash ← consume kHashLength
    pure (some hash)
  else pure none

def loadHashes : Parser UInt8 Unit (List Bytes32) := do
  let n ← remaining
  times (consume kHashLength) (n / kHashLength)

/-- The constructor of a node, whose assertions are not in every build. -/
def constructNode (assertions : Bool) (n : Node) : Option Node :=
  if assertions then makeNode n.stateMask n.treeMask n.hashMask n.hashes n.rootHash else some n

/-- An assertion that fails is the only error. -/
def unmarshalNode (assertions : Bool) : Parser UInt8 Unit Node := do
  let stateMask ← loadBigU16
  let treeMask ← loadBigU16
  let hashMask ← loadBigU16
  let rootHash ← loadRootHash hashMask
  let hashes ← loadHashes
  match constructNode assertions { stateMask, treeMask, hashMask, hashes, rootHash } with
  | some n => pure n
  | none => fail ()

end Decoding

section Words

variable {s r : Bytes}

theorem loadBigU16_accepts : Accepts loadBigU16 fun t m => t = fixedBigEndian 2 m.toNat := by
  intro s m r
  simp only [loadBigU16, (consume_accepts 2).bind_eq_ok, pure_apply, Outcome.ok.injEq,
    exists_eq_left]
  constructor
  · rintro ⟨be, _, rfl, rfl, rfl⟩
    have hlt := ofBigEndian_lt be.val
    rw [be.property] at hlt
    rw [BitVec.toNat_ofNat, Nat.mod_eq_of_lt (hlt.trans_eq (by norm_num)),
      fixedBigEndian_ofBigEndian be.property]
  · rintro rfl
    refine ⟨⟨_, length_fixedBigEndian (m.isLt.trans_eq (by norm_num))⟩, r, rfl, ?_, rfl⟩
    rw [ofBigEndian_fixedBigEndian, BitVec.ofNat_toNat, BitVec.setWidth_eq]

theorem loadBigU16_bind_eq_outOfBounds {β : Type} {f : Mask → Parser UInt8 Unit β} {k : ℕ}
    (hf : ∀ m s, f m s = .outOfBounds ↔ s.length < k) :
    (loadBigU16 >>= f) s = .outOfBounds ↔ s.length < k + 2 := by
  by_cases h : 2 ≤ s.length
  · have hread : loadBigU16 s = .ok (BitVec.ofNat 16 (ofBigEndian (s.take 2))) (s.drop 2) := by
      rw [loadBigU16, bind_of_ok (consume_of_le h), pure_apply]
    rw [bind_of_ok hread, hf, List.length_drop]
    omega
  · refine iff_of_true ?_ (by omega)
    rw [bind_eq_outOfBounds, loadBigU16, bind_eq_outOfBounds]
    exact .inl (.inl (consume_eq_outOfBounds.mpr (Nat.lt_of_not_le h)))

theorem length_flatMap_hashes (hashes : List Bytes32) :
    (hashes.flatMap Subtype.val).length = kHashLength * hashes.length := by
  induction hashes with
  | nil => rfl
  | cons h hashes ih =>
    rw [List.flatMap_cons, List.length_append, ih, h.property, List.length_cons, Nat.mul_succ,
      Nat.add_comm]

/-- Shorter than a hash is what the division leaves. -/
theorem count_hashes_iff {n m : ℕ} : n = (kHashLength * n + m) / kHashLength ↔ m < kHashLength := by
  rw [Nat.mul_add_div (by decide), Nat.left_eq_add, Nat.div_eq_zero_iff_lt (by decide)]

theorem loadHashes_eq_ok {hashes : List Bytes32} :
    loadHashes s = .ok hashes r ↔ s = hashes.flatMap Subtype.val ++ r ∧ r.length < kHashLength := by
  rw [loadHashes, bind_of_ok (remaining_apply s), ((consume_accepts kHashLength).times _) s hashes r]
  simp only [words_code_iff, ← List.flatMap_def]
  constructor
  · rintro ⟨t, ⟨hlen, rfl⟩, rfl⟩
    rw [List.length_append, length_flatMap_hashes] at hlen
    exact ⟨rfl, count_hashes_iff.mp hlen⟩
  · rintro ⟨rfl, hr⟩
    refine ⟨_, ⟨?_, rfl⟩, rfl⟩
    rw [List.length_append, length_flatMap_hashes]
    exact count_hashes_iff.mpr hr

/-- The bytes of a hash that may be absent. -/
theorem length_rootHash (rootHash : Option Bytes32) :
    (rootHash.elim [] Subtype.val : Bytes).length = kHashLength * rootHash.toList.length := by
  cases rootHash with
  | none => rfl
  | some h => exact h.property

theorem count_stored (rootHash : Option Bytes32) (hashes : List Bytes32) (hr : r.length < kHashLength) :
    (rootHash.elim [] Subtype.val ++ (hashes.flatMap Subtype.val ++ r)).length / kHashLength =
      rootHash.toList.length + hashes.length := by
  rw [List.length_append, List.length_append, length_rootHash, length_flatMap_hashes,
    ← Nat.add_assoc, ← Nat.mul_add]
  exact (count_hashes_iff.mpr hr).symm

theorem loadRootHash_eq_ok {hashMask : Mask} {rootHash : Option Bytes32} :
    loadRootHash hashMask s = .ok rootHash r ↔ s = rootHash.elim [] Subtype.val ++ r ∧
      (rootHash.isSome ↔ hashMask.count + 1 = s.length / kHashLength) := by
  rw [loadRootHash, bind_of_ok (remaining_apply s)]
  split_ifs with h
  · simp only [(consume_accepts kHashLength).bind_eq_ok, pure_apply, Outcome.ok.injEq]
    cases rootHash with
    | none => simp [h]
    | some hash => simp [h]
  · cases rootHash with
    | none => simp [h]
    | some hash => simp [h]

theorem loadRootHash_inBounds (hashMask : Mask) : InBounds (loadRootHash hashMask) := by
  intro s h
  rw [loadRootHash, bind_of_ok (remaining_apply s)] at h
  split_ifs at h with hcount
  have hle : kHashLength ≤ s.length := by
    apply (Nat.div_pos_iff.mp _).2
    rw [← hcount]
    exact Nat.succ_pos _
  rw [bind_of_ok (consume_of_le hle)] at h
  cases h

theorem loadHashes_inBounds : InBounds loadHashes := by
  intro s h
  obtain ⟨hashes, r, hread⟩ := exists_times_consume (ε := Unit) (Nat.mul_div_le s.length kHashLength)
  rw [loadHashes, bind_of_ok (remaining_apply s), hread] at h
  cases h

end Words

section Nodes

variable {s r : Bytes} {n : Node}

/-- The hash of the root is there exactly if the bytes hold one hash more than the mask has
bits. -/
def Announced (n : Node) : Prop :=
  n.rootHash.isSome ↔ n.hashMask.count + 1 = n.rootHash.toList.length + n.hashes.length

theorem announced_of_count (h : n.hashes.length = n.hashMask.count) : Announced n := by
  rw [Announced, h]
  cases n.rootHash with
  | none => simp
  | some hash => simp [Nat.add_comm]

theorem makeNode_eq_some {stateMask treeMask hashMask : Mask} {hashes : List Bytes32}
    {rootHash : Option Bytes32}
    (h : makeNode stateMask treeMask hashMask hashes rootHash = some n) :
    n = ⟨stateMask, treeMask, hashMask, hashes, rootHash⟩ ∧ hashMask.count = hashes.length := by
  rw [makeNode] at h
  split_ifs at h with hassert
  exact ⟨(Option.some.inj h).symm, hassert.2.2⟩

theorem constructNode_eq_some {assertions : Bool} {m : Node} (h : constructNode assertions m = some n) :
    n = m := by
  cases assertions with
  | false => exact (Option.some.inj h).symm
  | true => exact (makeNode_eq_some h).1

/-- What is read as a node is what is stored of it, with less than a hash after it. -/
theorem unmarshalNode_eq_ok {assertions : Bool} :
    unmarshalNode assertions s = .ok n r ↔ s = marshalNode n ++ r ∧ r.length < kHashLength ∧
      Announced n ∧ constructNode assertions n = some n := by
  simp only [unmarshalNode, loadBigU16_accepts.bind_eq_ok, bind_eq_ok, loadRootHash_eq_ok,
    loadHashes_eq_ok]
  constructor
  · rintro ⟨stateMask, _, rfl, treeMask, _, rfl, hashMask, s₃, rfl, rootHash, _, ⟨rfl, hroot⟩,
      hashes, _, ⟨rfl, hr⟩, h⟩
    cases hnode : constructNode assertions ⟨stateMask, treeMask, hashMask, hashes, rootHash⟩ with
    | none =>
      rw [hnode] at h
      cases h
    | some m =>
      obtain rfl := constructNode_eq_some hnode
      rw [hnode] at h
      cases h
      refine ⟨by simp only [marshalNode, List.append_assoc], hr, ?_, hnode⟩
      rw [count_stored _ _ hr] at hroot
      exact hroot
  · rintro ⟨rfl, hr, hann, hnode⟩
    refine ⟨n.stateMask, _, by simp only [marshalNode, List.append_assoc], n.treeMask, _, rfl,
      n.hashMask, _, rfl, n.rootHash, _, ⟨rfl, ?_⟩, n.hashes, r, ⟨rfl, hr⟩, ?_⟩
    · rw [count_stored _ _ hr]
      exact hann
    · rw [hnode]
      rfl

/-- Three masks are read, and hashes only as far as the bytes go. -/
theorem unmarshalNode_eq_outOfBounds {assertions : Bool} :
    unmarshalNode assertions s = .outOfBounds ↔ s.length < 6 := by
  apply loadBigU16_bind_eq_outOfBounds
  intro stateMask s
  apply loadBigU16_bind_eq_outOfBounds
  intro treeMask s
  apply loadBigU16_bind_eq_outOfBounds (k := 0)
  intro hashMask s
  refine iff_of_false ?_ (Nat.not_lt_zero _)
  apply (loadRootHash_inBounds hashMask).bind
  intro rootHash
  apply loadHashes_inBounds.bind
  intro hashes s h
  cases hnode : constructNode assertions ⟨stateMask, treeMask, hashMask, hashes, rootHash⟩ with
  | none =>
    rw [hnode] at h
    cases h
  | some n =>
    rw [hnode] at h
    cases h

/-- A stored node is read back if and only if its hashes and its mask announce the hash of its
root. -/
theorem unmarshalNode_marshalNode_iff {assertions : Bool} :
    unmarshalNode assertions (marshalNode n) = .ok n [] ↔
      Announced n ∧ constructNode assertions n = some n := by
  rw [unmarshalNode_eq_ok, List.append_nil, and_iff_right rfl, and_iff_right (by decide)]

theorem marshalNode_injective {m : Node} (hn : Announced n) (hm : Announced m)
    (h : marshalNode n = marshalNode m) : n = m := by
  have hread_n : unmarshalNode false (marshalNode n) = .ok n [] :=
    unmarshalNode_marshalNode_iff.mpr ⟨hn, rfl⟩
  have hread_m : unmarshalNode false (marshalNode m) = .ok m [] :=
    unmarshalNode_marshalNode_iff.mpr ⟨hm, rfl⟩
  rw [h, hread_m] at hread_n
  exact (Outcome.ok.inj hread_n).1.symm

/-- The nodes with a hash for each bit of their mask are read back, and no two of them are stored
alike. With assertions this is true of the nodes that pass them. -/
theorem node_roundTrip :
    (∀ n : Node, n.hashes.length = n.hashMask.count →
      unmarshalNode false (marshalNode n) = .ok n [] ∧
      (constructNode true n = some n → unmarshalNode true (marshalNode n) = .ok n [])) ∧
    ∀ n m : Node, n.hashes.length = n.hashMask.count → m.hashes.length = m.hashMask.count →
      marshalNode n = marshalNode m → n = m := by
  constructor
  · intro n hn
    constructor
    · exact unmarshalNode_marshalNode_iff.mpr ⟨announced_of_count hn, rfl⟩
    · intro h
      exact unmarshalNode_marshalNode_iff.mpr ⟨announced_of_count hn, h⟩
  · intro n m hn hm h
    exact marshalNode_injective (announced_of_count hn) (announced_of_count hm) h

/-- A node with two hashes and the hash of its root. -/
theorem node_roundTrip_twoHashes :
    let n : Node :=
      ⟨7, 4, 3, [FixedBytes.replicate 32 1, FixedBytes.replicate 32 2], some (FixedBytes.replicate 32 3)⟩
    let m : Node := { n with rootHash := none }
    unmarshalNode true (marshalNode n) = .ok n [] ∧ unmarshalNode true (marshalNode m) = .ok m [] ∧
      marshalNode n ≠ marshalNode m := by
  intro n m
  have hn : n.hashes.length = n.hashMask.count := by decide
  have hm : m.hashes.length = m.hashMask.count := by decide
  refine ⟨(node_roundTrip.1 n hn).2 (by decide), (node_roundTrip.1 m hm).2 (by decide), fun h => ?_⟩
  have heq := node_roundTrip.2 n m hn hm h
  cases congrArg Node.rootHash heq

/-- The only hash of a node without bits is taken for the hash of its root. -/
example (h : Bytes32) : unmarshalNode false (marshalNode ⟨0, 0, 0, [h], none⟩) =
    .ok ⟨0, 0, 0, [], some h⟩ [] := by
  rw [show marshalNode ⟨0, 0, 0, [h], none⟩ = marshalNode ⟨0, 0, 0, [], some h⟩ by
    simp [marshalNode]]
  exact unmarshalNode_marshalNode_iff.mpr ⟨announced_of_count (show 0 = Mask.count 0 by decide), rfl⟩

end Nodes

end Silkworm.Db
