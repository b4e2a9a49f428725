import Silkworm.MerklePatriciaTrie
import Mathlib.Data.List.DropRight

/-!
# The hash builder

A one-pass machine for trie roots. Keys arrive in increasing order; the bitmaps of the open
prefix groups and the references of finished nodes wait on stacks until a group closes.
Every index that leaves its vector and every failing assertion makes the run fail. The
stack of references lists its top first. Nodes handed to the collector are recorded.
-/

namespace Silkworm.Trie
open Rlp

/-- The bitmaps of children, one bit to a nibble. -/
abbrev Mask := BitVec 16

structure Node where
  stateMask : Mask
  treeMask : Mask
  hashMask : Mask
  hashes : List Bytes32
  rootHash : Option Bytes32
  deriving DecidableEq

def unpackNibbles (packed : Bytes) : List Nibble :=
  packed.flatMap fun b => [Fin.ofNat 16 (b.toNat >>> 4), Fin.ofNat 16 (b.toNat &&& 0xF)]

def encodePath (path : List Nibble) (terminating : Bool) : Bytes :=
  let odd := path.length % 2 ≠ 0
  let flag := match terminating, decide odd with
    | false, false => 0x00
    | false, true => 0x10
    | true, false => 0x20
    | true, true => 0x30
  if odd then
    byte (flag ||| (path.getD 0 0).val) :: (List.range' 1 (path.length / 2)).map fun i =>
      pack (path.getD (2 * i - 1) 0) (path.getD (2 * i) 0)
  else
    byte flag :: (List.range' 1 (path.length / 2)).map fun i =>
      pack (path.getD (2 * i - 2) 0) (path.getD (2 * i - 1) 0)

def leafNodeRlp (path : List Nibble) (value : Bytes) : Bytes :=
  let encodedPath := encodePath path true
  encodeHeader ⟨true, lengthBytes encodedPath + lengthBytes value⟩ ++ encodeBytes encodedPath ++
    encodeBytes value

def extensionNodeRlp (path : List Nibble) (childRef : Bytes) : Bytes :=
  let encodedPath := encodePath path false
  encodeHeader ⟨true, lengthBytes encodedPath + childRef.length⟩ ++ encodeBytes encodedPath ++
    childRef

def prefixLength : List Nibble → List Nibble → ℕ
  | a :: s, b :: t => if a = b then prefixLength s t + 1 else 0
  | _, _ => 0

def bit (d : Nibble) : Mask := 1#16 <<< d.val

def Mask.has (m : Mask) (d : Nibble) : Bool := m &&& bit d ≠ 0

def Mask.digits (m : Mask) : List Nibble := (List.finRange 16).filter m.has

def Mask.count (m : Mask) : ℕ := m.digits.length

def isSubset (sub sup : Mask) : Bool := sub &&& sup = sub

def resize (masks : List Mask) (n : ℕ) : List Mask :=
  masks.take n ++ List.replicate (n - masks.length) 0

def setDigit (masks : List Mask) (i : ℕ) (d : Nibble) : List Mask :=
  masks.modify i (· ||| bit d)

section Machine

variable (keccak : Bytes → Bytes32)

def nodeRef (rlp : Bytes) : Bytes :=
  if rlp.length < kHashLength then rlp
  else byte (kEmptyStringCode + kHashLength) :: (keccak rlp).val

/-- The children by digit: the loops of `branch_ref` take the next reference for each bit of
the mask. -/
def childrenByDigit (mask : Mask) : List Nibble → List Bytes → Option (List (Option Bytes))
  | [], _ => some []
  | d :: ds, refs =>
    if mask.has d then match refs with
      | [] => none
      | r :: refs => (childrenByDigit mask ds refs).map (some r :: ·)
    else (childrenByDigit mask ds refs).map (none :: ·)

/-- Takes children from the stack and replaces them with the reference of their branch. The
references selected by the hash mask are returned, too. -/
def branchRef (stateMask hashMask : Mask) (stack : List Bytes) :
    Option (List Bytes × List Bytes) := do
  if !isSubset hashMask stateMask then none else
  let n := stateMask.count
  if stack.length < n then none else
  let children ← childrenByDigit stateMask (List.finRange 16) (stack.take n).reverse
  let payloadLength := 1 + (children.map fun c => (c.map List.length).getD 1).sum
  let rlp := encodeHeader ⟨true, payloadLength⟩ ++
    (children.map fun c => c.getD [byte kEmptyStringCode]).flatten ++ [byte kEmptyStringCode]
  let childHashes := ((List.finRange 16).zip children).filterMap fun c =>
    if hashMask.has c.1 then c.2 else none
  some (childHashes, nodeRef keccak rlp :: stack.drop n)

structure HashBuilder where
  nodeCollector : Bool := false
  key : List Nibble := []
  value : Bytes := []
  groups : List Mask := []
  treeMasks : List Mask := []
  hashMasks : List Mask := []
  stack : List Bytes := []
  collected : List (List Nibble × Node) := []
  deriving DecidableEq

/-- `root_hash` without finalization. -/
def rootHashOfStack : List Bytes → Bytes32
  | [] => kEmptyRoot
  | ref :: _ =>
    if h : ref.length = kHashLength + 1 then ⟨ref.drop 1, by simp [h]⟩ else keccak ref

def unwrapHash (ref : Bytes) : Option Bytes32 :=
  if h : ref.length = kHashLength + 1 then some ⟨ref.drop 1, by simp [h]⟩ else none

def makeNode (stateMask treeMask hashMask : Mask) (hashes : List Bytes32)
    (rootHash : Option Bytes32) : Option Node :=
  if isSubset treeMask stateMask ∧ isSubset hashMask stateMask ∧ hashMask.count = hashes.length then
    some ⟨stateMask, treeMask, hashMask, hashes, rootHash⟩
  else none

/-- Register the group at `len` in the mask of its parent. -/
def registerInParent (masks : List Mask) (curr : List Nibble) (len : ℕ) : Option (List Mask) :=
  if len = 0 then some masks
  else (curr[len - 1]?).map (setDigit masks (len - 1))

/-- Replace the children of the group at `len` by their branch and offer it to the
collector. -/
def closeGroup (curr : List Nibble) (len : ℕ) (hb : HashBuilder) : Option HashBuilder := do
  let group ← hb.groups[len]?
  let hashMask ← hb.hashMasks[len]?
  let (childHashes, stack) ← branchRef keccak group hashMask hb.stack
  if !hb.nodeCollector then some { hb with stack } else
  let hashMasks ← registerInParent hb.hashMasks curr len
  let treeMask ← hb.treeMasks[len]?
  if treeMask = 0 ∧ hashMask = 0 then some { hb with stack, hashMasks } else
  let treeMasks ← registerInParent hb.treeMasks curr len
  let hashes ← childHashes.mapM unwrapHash
  let node ← makeNode group treeMask hashMask hashes
    (if len = 0 then some (rootHashOfStack keccak stack) else none)
  some { hb with stack, hashMasks, treeMasks, collected := hb.collected ++ [(curr.take len, node)] }

/-- Put the reference of a leaf on the stack, or wrap its top into an extension. -/
def pushNode (buildExtensions : Bool) (shortNodeKey : List Nibble) (value : Bytes)
    (stack : List Bytes) : Option (List Bytes) :=
  if !buildExtensions then some (nodeRef keccak (leafNodeRlp shortNodeKey value) :: stack)
  else if shortNodeKey ≠ [] then match stack with
    | [] => none
    | top :: rest => some (nodeRef keccak (extensionNodeRlp shortNodeKey top) :: rest)
  else some stack

def growTo (masks : List Mask) (n : ℕ) : List Mask :=
  if masks.length < n then resize masks n else masks

def growMasks (hb : HashBuilder) (n : ℕ) : HashBuilder :=
  if hb.treeMasks.length < n then
    { hb with treeMasks := resize hb.treeMasks n, hashMasks := resize hb.hashMasks n }
  else hb

def truncate (hb : HashBuilder) (len : ℕ) : HashBuilder :=
  { hb with
    groups := resize hb.groups len
    treeMasks := resize hb.treeMasks len
    hashMasks := resize hb.hashMasks len }

def popZeros (groups : List Mask) : List Mask := groups.rdropWhile (· = 0)

def genStructStep (curr succ : List Nibble) (value : Bytes) (buildExtensions : Bool)
    (hb : HashBuilder) : Option HashBuilder :=
  let precExists := hb.groups ≠ []
  let precLen := hb.groups.length - 1
  let succLen := prefixLength succ curr
  let len := max precLen succLen
  if h : len < curr.length then do
    -- the digit that follows the longest prefix shared with a neighbour
    let groups := setDigit (growTo hb.groups (len + 1)) len curr[len]
    let remainderStart := if succ ≠ [] ∨ precExists then len + 1 else len
    let hb := growMasks hb curr.length
    let stack ← pushNode keccak buildExtensions (curr.drop remainderStart) value hb.stack
    let hb := { hb with groups, stack }
    if precLen ≤ succLen ∧ succ ≠ [] then some hb else
    let hb ← if succ ≠ [] ∨ precExists then closeGroup keccak curr len hb else some hb
    let hb := truncate hb len
    if precLen = 0 then some hb else
    genStructStep (curr.take precLen) succ value true { hb with groups := popZeros hb.groups }
  else none
termination_by curr.length
decreasing_by
  rw [List.length_take]
  omega

def add (packed value : Bytes) (hb : HashBuilder) : Option HashBuilder := do
  let key := unpackNibbles packed
  if ¬key > hb.key then none else
  let hb ← if hb.key ≠ [] then genStructStep keccak hb.key key hb.value false hb else some hb
  some { hb with key, value }

def finalize (hb : HashBuilder) : Option HashBuilder :=
  if hb.key ≠ [] then
    (genStructStep keccak hb.key [] hb.value false hb).map fun hb => { hb with key := [], value := [] }
  else some hb

def rootHash (hb : HashBuilder) : Option (Bytes32 × HashBuilder) := do
  let hb ← finalize keccak hb
  some (rootHashOfStack keccak hb.stack, hb)

/-- Feed entries to the builder, one `add` after the other. -/
def addAll (entries : List (Bytes × Bytes)) (hb : HashBuilder) : Option HashBuilder :=
  entries.foldlM (fun hb e => add keccak e.1 e.2 hb) hb

end Machine

end Silkworm.Trie
