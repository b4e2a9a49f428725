import Silkworm.EntriesUnderPrefix
import Silkworm.RlpCanonicalForms

/-!
# The Merkle Patricia trie

The root of the trie of a finite map from nibble strings to byte strings, as the Yellow
Paper defines it in Appendix D: leaves and extensions carry a hex-prefix encoded path,
branches have seventeen items, and a node of 32 bytes or more is replaced by its hash in
its parent. The hash function is a parameter.
-/

namespace Silkworm.Trie
open EntriesUnderPrefix Rlp

abbrev Nibble := Fin 16

abbrev Entry := List Nibble × Bytes

def pack (hi lo : Nibble) : UInt8 := byte (16 * hi.val + lo.val)

/-- Two nibbles to a byte; a nibble without a partner is dropped. -/
def packPairs : List Nibble → Bytes
  | hi :: lo :: path => pack hi lo :: packPairs path
  | _ => []

/-- The hex-prefix function HP of Appendix C: the flag and the parity of the length go to
the first nibble. -/
def hexPrefix (path : List Nibble) (terminating : Bool) : Bytes :=
  let flag : ℕ := if terminating then 2 else 0
  if path.length % 2 = 0 then byte (16 * flag) :: packPairs path
  else match path with
    | x :: rest => byte (16 * (flag + 1) + x.val) :: packPairs rest
    | [] => []

def leafNode (path : List Nibble) (value : Bytes) : Bytes :=
  encodeList (encodeBytes (hexPrefix path true) ++ encodeBytes value)

def extensionNode (path : List Nibble) (child : Bytes) : Bytes :=
  encodeList (encodeBytes (hexPrefix path false) ++ child)

/-- Absent children and the absent value are empty strings. -/
def branchNode (child : Nibble → Option Bytes) : Bytes :=
  encodeList (((List.finRange 16).map fun d => (child d).getD (encodeBytes [])).flatten ++
    encodeBytes [])

section Roots

variable (keccak : Bytes → Bytes32)

/-- What a parent holds of a node. -/
def reference (node : Bytes) : Bytes :=
  if node.length < kHashLength then node else encodeBytes (keccak node).val

/-- The node of a nonempty map. Keys are relative to the node. -/
def trieNode : List Entry → Bytes
  | [] => []
  | [e] => leafNode e.1 e.2
  | e :: f :: J =>
    if _ : commonPrefix (e :: f :: J) = [] then
      branchNode fun d =>
        if under (e :: f :: J) [d] = [] then none
        else some (reference keccak (trieNode (under (e :: f :: J) [d])))
    else
      extensionNode (commonPrefix (e :: f :: J))
        (reference keccak (trieNode (under (e :: f :: J) (commonPrefix (e :: f :: J)))))
termination_by J => mass J
decreasing_by
  all_goals apply mass_under_lt <;> simp_all

def unpackNibble (b : UInt8) : List Nibble :=
  [⟨b.toNat / 16, by have := b.toNat_lt; omega⟩, ⟨b.toNat % 16, by omega⟩]

def nibbles (key : Bytes) : List Nibble := key.flatMap unpackNibble

abbrev kEmptyRoot : Bytes32 :=
  ⟨[0x56, 0xe8, 0x1f, 0x17, 0x1b, 0xcc, 0x55, 0xa6, 0xff, 0x83, 0x45, 0xe6, 0x92, 0xc0, 0xf8, 0x6e,
    0x5b, 0x48, 0xe0, 0x1b, 0x99, 0x6c, 0xad, 0xc0, 0x01, 0x62, 0x2f, 0xb5, 0xe3, 0x63, 0xb4, 0x21],
    rfl⟩

/-- The root of a map from byte strings, given by any enumeration of its entries. -/
def trieRoot (J : List (Bytes × Bytes)) : Bytes32 :=
  if J = [] then kEmptyRoot
  else keccak (trieNode keccak (J.map fun e => (nibbles e.1, e.2)))

variable {keccak}

theorem trieNode_singleton (e : Entry) : trieNode keccak [e] = leafNode e.1 e.2 := by
  rw [trieNode]

theorem trieNode_branch {J : List Entry} (h2 : 2 ≤ J.length) (hp : commonPrefix J = []) :
    trieNode keccak J = branchNode fun d =>
      if under J [d] = [] then none else some (reference keccak (trieNode keccak (under J [d]))) := by
  match J, h2 with
  | e :: f :: J, _ => rw [trieNode, dif_pos hp]

theorem trieNode_extension {J : List Entry} (h2 : 2 ≤ J.length) (hp : commonPrefix J ≠ []) :
    trieNode keccak J = extensionNode (commonPrefix J)
      (reference keccak (trieNode keccak (under J (commonPrefix J)))) := by
  match J, h2 with
  | e :: f :: J, _ => rw [trieNode, dif_neg hp]

/-- The node does not depend on the order in which the entries are listed. -/
theorem trieNode_perm {J K : List Entry} (h : J.Perm K) : trieNode keccak J = trieNode keccak K := by
  induction hm : mass J using Nat.strong_induction_on generalizing J K with
  | _ m ih =>
    match J with
    | [] => rw [h.nil_eq]
    | [e] => rw [List.singleton_perm.mp h]
    | e :: f :: J' =>
      generalize hJ : e :: f :: J' = J at h hm
      have h2 : 2 ≤ J.length := by simp [← hJ]
      have hne : J ≠ [] := by simp [← hJ]
      have h2K : 2 ≤ K.length := h.length_eq ▸ h2
      by_cases hp : commonPrefix J = []
      · rw [trieNode_branch h2 hp, trieNode_branch h2K (commonPrefix_perm h ▸ hp)]
        congr 1
        funext d
        have hd := under_perm h [d]
        have hnode := ih _ (hm ▸ mass_under_lt hne (by simp)) hd rfl
        have hnil : under J [d] = [] ↔ under K [d] = [] :=
          ⟨fun h0 => (h0 ▸ hd).nil_eq.symm, fun h0 => (h0 ▸ hd).eq_nil⟩
        simp only [hnil, hnode]
      · rw [trieNode_extension h2 hp, trieNode_extension h2K (commonPrefix_perm h ▸ hp),
          ← commonPrefix_perm h, ih _ (hm ▸ mass_under_lt hne hp) (under_perm h _) rfl]

theorem trieRoot_perm {J K : List (Bytes × Bytes)} (h : J.Perm K) :
    trieRoot keccak J = trieRoot keccak K := by
  have hnil : J = [] ↔ K = [] :=
    ⟨fun h0 => (h0 ▸ h).nil_eq.symm, fun h0 => (h0 ▸ h).eq_nil⟩
  simp only [trieRoot, hnil, trieNode_perm (h.map _)]

end Roots

end Silkworm.Trie
