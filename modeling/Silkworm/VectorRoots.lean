import Silkworm.HashBuilderRuns
import Silkworm.RlpCanonicalForms

/-!
# The trie root of a vector

The keys are the RLP codes of the indices. They are added in lexicographic order, which is the
natural one except for the code of 0.
-/

namespace Silkworm.Trie
open BigEndian Rlp ViewParsers

def adjustIndexForRlp (i len : ℕ) : ℕ :=
  if 0x7f < i then i
  else if i = 0x7f ∨ i + 1 = len then 0
  else i + 1

/-- The code of an index, which is a `size_t`. -/
def indexRlp (index : ℕ) : Bytes := encodeUint (BitVec.ofNat 64 index)

section Vectors

variable (keccak : Bytes → Bytes32) {Value : Type} (v : List Value) (valueEncoder : Value → Bytes)

def addIndexed (hb : HashBuilder) (j : ℕ) : Option HashBuilder := do
  let index := adjustIndexForRlp j v.length
  let value ← v[index]?
  add keccak (indexRlp index) (valueEncoder value) hb

def vectorRootHash : Option Bytes32 := do
  let hb ← (List.range v.length).foldlM (addIndexed keccak v valueEncoder) {}
  let root ← rootHash keccak hb
  some root.1

/-- The entries of the trie. -/
def indexedEntries : List (Bytes × Bytes) := v.mapIdx fun i value => (indexRlp i, valueEncoder value)

end Vectors

section Order

variable {a b : ℕ}

theorem toNat_index (h : a < 2 ^ 64) : (BitVec.ofNat 64 a).toNat = a := by
  rw [BitVec.toNat_ofNat, Nat.mod_eq_of_lt h]

theorem indexRlp_zero : indexRlp 0 = [byte 0x80] := rfl

theorem indexRlp_small (ha : a ≠ 0) (h : a < 0x80) : indexRlp a = [byte a] := by
  rw [indexRlp, encodeUint, toNat_index (by omega), if_neg ha, if_pos h]

theorem indexRlp_large (h : 0x80 ≤ a) (hlt : a < 2 ^ 64) :
    indexRlp a = byte (0x80 + (bigEndian a).length) :: bigEndian a := by
  rw [indexRlp, encodeUint, toNat_index hlt, if_neg (by omega), if_neg (Nat.not_lt.mpr h)]

theorem byte_lt_byte (hab : a < b) (hb : b < 256) : byte a < byte b := by
  rw [UInt8.lt_iff_toNat_lt, toNat_byte (by omega), toNat_byte hb]
  exact hab

theorem length_index_le (h : a < 2 ^ 64) : (bigEndian a).length ≤ 8 :=
  length_bigEndian_le.mpr (by simpa using h)

theorem length_index_mono (hab : a ≤ b) : (bigEndian a).length ≤ (bigEndian b).length :=
  length_bigEndian_le.mpr (hab.trans_lt (length_bigEndian_le.mp le_rfl))

theorem length_index_pos (ha : a ≠ 0) : 0 < (bigEndian a).length :=
  List.length_pos_of_ne_nil (bigEndian_ne_nil ha)

/-- The order of the codes is the natural one above 0. -/
theorem indexRlp_lt (ha : a ≠ 0) (hab : a < b) (hb : b < 2 ^ 64) : indexRlp a < indexRlp b := by
  have hlen := length_index_le hb
  by_cases hb' : b < 0x80
  · rw [indexRlp_small ha (by omega), indexRlp_small (by omega) hb', List.cons_lt_cons_iff]
    exact .inl (byte_lt_byte hab (by omega))
  · rw [indexRlp_large (Nat.not_lt.mp hb') hb]
    by_cases ha' : a < 0x80
    · rw [indexRlp_small ha ha', List.cons_lt_cons_iff]
      exact .inl (byte_lt_byte (by omega) (by omega))
    · rw [indexRlp_large (Nat.not_lt.mp ha') (by omega), List.cons_lt_cons_iff]
      obtain heq | hlt := (length_index_mono hab.le).eq_or_lt
      · right
        rw [heq, lt_iff_ofBigEndian_lt heq, ofBigEndian_bigEndian, ofBigEndian_bigEndian]
        exact ⟨rfl, hab⟩
      · exact .inl (byte_lt_byte (by omega) (by omega))

theorem indexRlp_lt_zero (ha : a ≠ 0) (h : a < 0x80) : indexRlp a < indexRlp 0 := by
  rw [indexRlp_small ha h, indexRlp_zero, List.cons_lt_cons_iff]
  exact .inl (byte_lt_byte h (by norm_num))

theorem indexRlp_zero_lt (h : 0x80 ≤ b) (hb : b < 2 ^ 64) : indexRlp 0 < indexRlp b := by
  have hpos := length_index_pos (a := b) (by omega)
  have hlen := length_index_le hb
  rw [indexRlp_large h hb, indexRlp_zero, List.cons_lt_cons_iff]
  exact .inl (byte_lt_byte (by omega) (by omega))

/-- The code of an index is no proper prefix of another one. -/
theorem indexRlp_prefixFree (ha : a < 2 ^ 64) (hb : b < 2 ^ 64)
    (h : indexRlp a <+: indexRlp b) : a = b := by
  obtain ⟨t, ht⟩ := h
  have hcode := codes_uint64.accepts.ok (t := indexRlp a) ⟨rfl, trivial⟩ t
  have hcode' := codes_uint64.accepts.ok (t := indexRlp b) ⟨rfl, trivial⟩ []
  rw [ht] at hcode
  rw [List.append_nil, hcode, Outcome.ok.injEq] at hcode'
  rw [← toNat_index ha, ← toNat_index hb, hcode'.1]

end Order

section Adjustment

variable {i j n : ℕ}

theorem adjustIndexForRlp_lt (h : i < n) : adjustIndexForRlp i n < n := by
  rw [adjustIndexForRlp]
  split_ifs <;> omega

/-- The index 0 is moved behind the other ones below 0x80. -/
theorem adjustIndexForRlp_order (hij : i < j) (hj : j < n) :
    (adjustIndexForRlp i n ≠ 0 ∧ adjustIndexForRlp i n < adjustIndexForRlp j n) ∨
    (adjustIndexForRlp i n ≠ 0 ∧ adjustIndexForRlp i n < 0x80 ∧ adjustIndexForRlp j n = 0) ∨
    (adjustIndexForRlp i n = 0 ∧ 0x80 ≤ adjustIndexForRlp j n) := by
  rw [adjustIndexForRlp, adjustIndexForRlp]
  split_ifs <;> omega

theorem indexRlp_adjust_lt (hij : i < j) (hj : j < n) (hn : n < 2 ^ 64) :
    indexRlp (adjustIndexForRlp i n) < indexRlp (adjustIndexForRlp j n) := by
  have hlt := adjustIndexForRlp_lt hj
  obtain ⟨hne, h⟩ | ⟨hne, h, hzero⟩ | ⟨hzero, h⟩ := adjustIndexForRlp_order hij hj
  · exact indexRlp_lt hne h (by omega)
  · rw [hzero]
    exact indexRlp_lt_zero hne h
  · rw [hzero]
    exact indexRlp_zero_lt h (by omega)

theorem pairwise_adjusted (hn : n < 2 ^ 64) :
    ((List.range n).map fun j => indexRlp (adjustIndexForRlp j n)).Pairwise (· < ·) := by
  rw [List.pairwise_map]
  apply List.pairwise_lt_range.imp_of_mem
  intro i j _ hj hij
  exact indexRlp_adjust_lt hij (List.mem_range.mp hj) hn

theorem adjusted_perm (hn : n < 2 ^ 64) :
    ((List.range n).map fun j => adjustIndexForRlp j n).Perm (List.range n) := by
  have hnodup : ((List.range n).map fun j => adjustIndexForRlp j n).Nodup := by
    apply List.Nodup.of_map indexRlp
    rw [List.map_map]
    apply (pairwise_adjusted hn).imp
    intro a b hlt hab
    subst hab
    exact List.lt_irrefl _ hlt
  have hsubset : ((List.range n).map fun j => adjustIndexForRlp j n) ⊆ List.range n := by
    intro index hindex
    obtain ⟨j, hj, rfl⟩ := List.mem_map.mp hindex
    exact List.mem_range.mpr (adjustIndexForRlp_lt (List.mem_range.mp hj))
  exact (List.subperm_of_subset hnodup hsubset).perm_of_length_le (by simp)

end Adjustment

section Roots

variable (keccak : Bytes → Bytes32) {Value : Type} (v : List Value) (valueEncoder : Value → Bytes)

/-- The entry of an index, if there is one. -/
def indexedEntry (i : ℕ) : Bytes × Bytes := (indexRlp i, ((v[i]?).map valueEncoder).getD [])

theorem indexedEntries_eq :
    indexedEntries v valueEncoder = (List.range v.length).map (indexedEntry v valueEncoder) := by
  apply List.ext_getElem
  · simp [indexedEntries]
  · intro i hi hi'
    have hlt : i < v.length := by simpa [indexedEntries] using hi
    simp [indexedEntries, indexedEntry, List.getElem?_eq_getElem hlt]

theorem addIndexed_eq {j : ℕ} (hj : j < v.length) (hb : HashBuilder) :
    addIndexed keccak v valueEncoder hb j =
      add keccak (indexedEntry v valueEncoder (adjustIndexForRlp j v.length)).1
        (indexedEntry v valueEncoder (adjustIndexForRlp j v.length)).2 hb := by
  have hlt := adjustIndexForRlp_lt hj
  rw [addIndexed, indexedEntry, List.getElem?_eq_getElem hlt]
  rfl

theorem foldlM_addIndexed (l : List ℕ) (hl : ∀ j ∈ l, j < v.length) (hb : HashBuilder) :
    l.foldlM (addIndexed keccak v valueEncoder) hb =
      addAll keccak
        (l.map fun j => indexedEntry v valueEncoder (adjustIndexForRlp j v.length)) hb := by
  induction l generalizing hb with
  | nil => rfl
  | cons j l ih =>
    obtain ⟨hj, hl⟩ := List.forall_mem_cons.mp hl
    rw [List.foldlM_cons, addIndexed_eq keccak v valueEncoder hj, List.map_cons, addAll,
      List.foldlM_cons]
    congr 1
    funext hb
    exact ih hl hb

theorem indexedEntry_prefixFree (h : v.length < 2 ^ 64) :
    ∀ a ∈ indexedEntries v valueEncoder, ∀ b ∈ indexedEntries v valueEncoder,
      a.1 <+: b.1 → a = b := by
  rw [indexedEntries_eq]
  intro a ha b hb hprefix
  obtain ⟨i, hi, rfl⟩ := List.mem_map.mp ha
  obtain ⟨j, hj, rfl⟩ := List.mem_map.mp hb
  have hi := List.mem_range.mp hi
  have hj := List.mem_range.mp hj
  rw [indexRlp_prefixFree (by omega) (by omega) hprefix]

/-- The root of a vector is the root of the trie of its entries: every index is added once, the
codes of the indices increase, and none is a prefix of another one. -/
theorem vectorRootHash_eq (h : v.length < 2 ^ 64) :
    vectorRootHash keccak v valueEncoder = some (trieRoot keccak (indexedEntries v valueEncoder)) ∧
    ((List.range v.length).map fun j => adjustIndexForRlp j v.length).Perm
      (List.range v.length) ∧
    ((List.range v.length).map fun j => indexRlp (adjustIndexForRlp j v.length)).Pairwise
      (· < ·) ∧
    ∀ i < v.length, ∀ j < v.length, indexRlp i <+: indexRlp j → i = j := by
  have hsorted := pairwise_adjusted h
  refine ⟨?_, adjusted_perm h, hsorted, ?_⟩
  · have hperm : ((List.range v.length).map fun j =>
        indexedEntry v valueEncoder (adjustIndexForRlp j v.length)).Perm
          (indexedEntries v valueEncoder) := by
      have hmap := (adjusted_perm h).map (indexedEntry v valueEncoder)
      rw [List.map_map, ← indexedEntries_eq] at hmap
      exact hmap
    have hne : ∀ e ∈ indexedEntries v valueEncoder, e.1 ≠ [] := by
      rw [indexedEntries_eq]
      intro e he
      obtain ⟨i, -, rfl⟩ := List.mem_map.mp he
      exact codes_uint64.nonempty _
    have hkeys : ((List.range v.length).map fun j =>
        indexedEntry v valueEncoder (adjustIndexForRlp j v.length)).Pairwise
          fun a b => a.1 < b.1 := by
      rw [List.pairwise_map] at hsorted ⊢
      exact hsorted
    obtain ⟨hb, hb', hadd, hroot⟩ := rootHash_addAll keccak hperm hne
      (indexedEntry_prefixFree v valueEncoder h) hkeys
    rw [vectorRootHash, foldlM_addIndexed keccak v valueEncoder _ (by simp), hadd]
    simp only [Option.bind_eq_bind, Option.bind_some, hroot]
  · intro i hi j hj hprefix
    exact indexRlp_prefixFree (by omega) (by omega) hprefix

theorem vectorRootHash_eq_two_values :
    vectorRootHash (fun _ => default) [[1], [2]] id =
      some (trieRoot (fun _ => default) [(indexRlp 0, [1]), (indexRlp 1, [2])]) :=
  (vectorRootHash_eq (fun _ => default) [[1], [2]] id (by decide)).1

end Roots

end Silkworm.Trie
