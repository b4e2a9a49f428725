import Silkworm.BlockCodec
import Silkworm.ExecutionProcessor
import Silkworm.MemoryBuffer

/-!
# Announced lengths

The lengths that the headers announce come from code of their own. They are the numbers of the
bytes that the encoders append.
-/

namespace Silkworm.Rlp
open Trie

section Logs

def rlpHeaderLog (l : Log) : Header :=
  ⟨true, kAddressLength + 1 + lengthVector lengthHash l.topics + lengthBytes l.data⟩

def lengthLog (l : Log) : ℕ :=
  lengthOfLength (rlpHeaderLog l).payloadLength + (rlpHeaderLog l).payloadLength

def encodeLog (l : Log) : Bytes :=
  encodeHeader (rlpHeaderLog l) ++ (encodeBytes l.address.val ++
    encodeVector lengthHash encodeFixed l.topics ++ encodeBytes l.data)

def rlpHeaderReceipt (r : Receipt) : Header where
  list := true
  payloadLength := 1 + lengthUint r.cumulativeGasUsed + lengthBytes r.bloom.val +
    lengthVector lengthLog r.logs

def encodeReceipt (r : Receipt) : Bytes :=
  r.type.toList ++ encodeHeader (rlpHeaderReceipt r) ++ (encodeBool r.success ++
    encodeUint r.cumulativeGasUsed ++ encodeBytes r.bloom.val ++
    encodeVector lengthLog encodeLog r.logs)

end Logs

/-- An overload of `length` and the encoder that it belongs to. -/
def ExactLength {α : Type} (length : α → ℕ) (encode : α → Bytes) : Prop :=
  ∀ x, length x = (encode x).length

/-- The bytes are a header and as many bytes after it as it announces. -/
def Announces (h : Header) (bytes : Bytes) : Prop :=
  ∃ payload, bytes = encodeHeader h ++ payload ∧ payload.length = h.payloadLength

theorem Announces.length {h : Header} {bytes : Bytes} (ha : Announces h bytes) :
    lengthOfLength h.payloadLength + h.payloadLength = bytes.length := by
  obtain ⟨payload, rfl, hlen⟩ := ha
  rw [List.length_append, length_encodeHeader, hlen]

section Items

theorem announces_bytes {s : Bytes} (h : isSingleByte s = false) :
    Announces ⟨false, s.length⟩ (encodeBytes s) := by
  refine ⟨s, ?_, rfl⟩
  rw [encodeBytes, h]
  rfl

theorem announces_vector {α : Type} {length : α → ℕ} {encode : α → Bytes} {v : List α}
    (h : ∀ x ∈ v, (encode x).length = length x) :
    Announces ⟨true, payloadLengthVector length v⟩ (encodeVector length encode v) :=
  ⟨_, rfl, length_flatten_map h⟩

theorem announces_accessListEntry (e : AccessListEntry) :
    Announces (rlpHeaderAccessListEntry e) (encodeAccessListEntry e) :=
  ⟨_, rfl, length_encodeAccessListEntryFields e⟩

theorem length_encodeAddress (a : Address) : (encodeBytes a.val).length = kAddressLength + 1 := by
  have hne : ¬isSingleByte a.val = true := by
    rw [isSingleByte_iff]
    rintro ⟨b, hb, -⟩
    have hlen := a.property
    rw [hb] at hlen
    cases hlen
  rw [length_encodeBytes, lengthBytes, if_neg hne, a.property]
  rfl

theorem announces_log (l : Log) : Announces (rlpHeaderLog l) (encodeLog l) := by
  refine ⟨_, rfl, ?_⟩
  rw [List.length_append, List.length_append, length_encodeAddress, length_encodeHashes,
    length_encodeBytes]
  rfl

theorem length_encodeLog (l : Log) : (encodeLog l).length = lengthLog l :=
  (announces_log l).length.symm

theorem announces_receipt (r : Receipt) :
    ∃ list, encodeReceipt r = r.type.toList ++ list ∧ Announces (rlpHeaderReceipt r) list := by
  refine ⟨_, List.append_assoc _ _ _, _, rfl, ?_⟩
  have hlogs := length_encodeVector (v := r.logs) fun l _ => length_encodeLog l
  have hsuccess : (encodeBool r.success).length = 1 := by
    cases r.success <;> rfl
  rw [List.length_append, List.length_append, List.length_append, hsuccess, length_encodeUint,
    length_encodeBytes, hlogs]
  rfl

end Items

section Transactions

variable {txn : Transaction} (forSigning : Bool)

theorem announces_legacy (h : txn.type = none) :
    Announces (rlpHeaderTransaction txn forSigning) (legacyEncode txn forSigning) := by
  refine ⟨_, List.append_assoc _ _ _, ?_⟩
  cases forSigning with
  | false =>
    simp [rlpHeaderTransaction, length_encodeCommonFields, length_encodeUint, h]
    omega
  | true =>
    have hzero : lengthUint 0#64 = 1 := rfl
    cases hchain : txn.chainId with
    | none => simp [rlpHeaderTransaction, length_encodeCommonFields, h, hchain]
    | some c =>
      simp [rlpHeaderTransaction, length_encodeCommonFields, length_encodeUint, h, hchain, hzero]

/-- The list that follows the type byte of an EIP-2930 transaction. -/
def eip2930List (txn : Transaction) (forSigning : Bool) : Bytes :=
  encodeHeader (rlpHeaderTransaction txn forSigning) ++ (encodeUint (txn.chainId.getD 0) ++
    encodeCommonFields txn ++
    encodeVector lengthAccessListEntry encodeAccessListEntry txn.accessList ++
    if !forSigning then encodeBool txn.oddYParity ++ encodeUint txn.r ++ encodeUint txn.s else [])

theorem announces_eip2930List (h : txn.type = some kEip2930TransactionType) :
    Announces (rlpHeaderTransaction txn forSigning) (eip2930List txn forSigning) := by
  refine ⟨_, rfl, ?_⟩
  have hlist := length_encodeVector (v := txn.accessList) fun e _ => length_encodeAccessListEntry e
  cases forSigning with
  | false =>
    simp [rlpHeaderTransaction, length_encodeCommonFields, length_encodeUint, h,
      length_encodeBool, hlist]
    omega
  | true =>
    simp [rlpHeaderTransaction, length_encodeCommonFields, length_encodeUint, h, hlist]
    omega

theorem encodeTransactionAs_eip2930 (h : txn.type = some kEip2930TransactionType) :
    encodeTransactionAs txn forSigning false =
      kEip2930TransactionType :: eip2930List txn forSigning := by
  simp [encodeTransactionAs, h, eip2930Encode, eip2930List]

theorem announces_wrapped (h : txn.type = some kEip2930TransactionType) :
    Announces ⟨false, (encodeTransactionAs txn forSigning false).length⟩
      (encodeTransactionAs txn forSigning true) := by
  refine ⟨encodeTransactionAs txn forSigning false, ?_, rfl⟩
  have hlen := (announces_eip2930List forSigning h).length
  rw [encodeTransactionAs_eip2930 forSigning h, List.length_cons, ← hlen]
  simp [encodeTransactionAs, h, eip2930Encode, eip2930List]

end Transactions

section Blocks

theorem announces_blockHeader (header : BlockHeader) (forSealing : Bool) :
    Announces (rlpHeaderBlockHeader header forSealing) (encodeBlockHeaderAs header forSealing) := by
  refine ⟨_, rfl, ?_⟩
  have hfull := length_encodeBlockHeaderFields header
  cases forSealing with
  | false => exact hfull
  | true =>
    simp only [encodeBlockHeaderFields, rlpHeaderBlockHeader, List.length_append,
      length_encodeFixed, Bool.false_eq_true, ↓reduceIte, List.length_nil] at hfull ⊢
    omega

/-- The types that the encoder asserts. -/
def KnownType (txn : Transaction) : Prop :=
  txn.type = none ∨ txn.type = some kEip2930TransactionType

theorem announces_blockBody {body : BlockBody} (h : ∀ txn ∈ body.transactions, KnownType txn) :
    Announces ⟨true, lengthVector lengthTransaction body.transactions +
      lengthVector lengthBlockHeader body.ommers⟩ (encodeBlockBody body) := by
  refine ⟨_, rfl, ?_⟩
  have htxns := length_encodeVector (v := body.transactions)
    fun txn htxn => length_encodeTransaction (h txn htxn)
  rw [List.length_append, htxns, length_encodeOmmers]

theorem announces_storedBody (body : BlockBodyForStorage) :
    Announces ⟨true, lengthUint body.baseTxnId + lengthUint body.txnCount +
      lengthVector lengthBlockHeader body.ommers⟩ (encodeBlockBodyForStorage body) := by
  refine ⟨_, rfl, ?_⟩
  rw [encodeBlockBodyForStorageFields, List.length_append, List.length_append, length_encodeUint,
    length_encodeUint, length_encodeOmmers]

theorem announces_account (account : Account) (storageRoot : Bytes32) :
    Announces ⟨true, lengthUint account.nonce + lengthUint account.balance + (kHashLength + 1) +
      (kHashLength + 1)⟩ (account.rlp storageRoot) := by
  refine ⟨_, rfl, ?_⟩
  simp only [List.length_append, length_encodeUint, length_encodeFixed]

end Blocks

section Nodes

theorem announces_leafNode (path : List Nibble) (value : Bytes) :
    Announces ⟨true, lengthBytes (encodePath path true) + lengthBytes value⟩
      (leafNodeRlp path value) := by
  refine ⟨_, List.append_assoc _ _ _, ?_⟩
  rw [List.length_append, length_encodeBytes, length_encodeBytes]

theorem announces_extensionNode (path : List Nibble) (childRef : Bytes) :
    Announces ⟨true, lengthBytes (encodePath path false) + childRef.length⟩
      (extensionNodeRlp path childRef) := by
  refine ⟨_, List.append_assoc _ _ _, ?_⟩
  rw [List.length_append, length_encodeBytes]

/-- The loops over the digits count a child as long as the reference that is appended. -/
theorem length_children (children : List (Option Bytes)) :
    (children.map fun c => c.getD [byte kEmptyStringCode]).flatten.length =
      (children.map fun c => (c.map List.length).getD 1).sum := by
  induction children with
  | nil => rfl
  | cons c children ih =>
    rw [List.map_cons, List.flatten_cons, List.length_append, ih, List.map_cons, List.sum_cons]
    cases c <;> rfl

theorem announces_branchNode {keccak : Bytes → Bytes32} {stateMask hashMask : Mask}
    {stack childHashes stack' : List Bytes}
    (h : branchRef keccak stateMask hashMask stack = some (childHashes, stack')) :
    ∃ L rlp, stack' = nodeRef keccak rlp :: stack.drop stateMask.count ∧
      Announces ⟨true, L⟩ rlp := by
  rw [branchRef] at h
  split at h
  · cases h
  dsimp only at h
  split at h
  · cases h
  obtain ⟨children, -, h⟩ := Option.bind_eq_some_iff.mp h
  obtain ⟨-, rfl⟩ := Prod.mk.inj (Option.some.inj h)
  refine ⟨_, _, rfl, _, List.append_assoc _ _ _, ?_⟩
  rw [List.length_append, length_children, Nat.add_comm]
  rfl

end Nodes

/-- Every overload of `length` is exact. -/
structure LengthsExact : Prop where
  bytes : ExactLength lengthBytes encodeBytes
  uint64 : ExactLength (fun n : Uint64 => lengthUint n) encodeUint
  uint256 : ExactLength (fun n : Uint256 => lengthUint n) encodeUint
  hash : ExactLength lengthHash encodeFixed
  vector : ∀ (α : Type) (length : α → ℕ) (encode : α → Bytes), ExactLength length encode →
    ExactLength (lengthVector length) (encodeVector length encode)
  accessListEntry : ExactLength lengthAccessListEntry encodeAccessListEntry
  transaction : ∀ txn, KnownType txn → lengthTransaction txn = (encodeTransaction txn).length
  blockHeader : ExactLength lengthBlockHeader encodeBlockHeader
  log : ExactLength lengthLog encodeLog

/-- Every header announces what follows it. -/
structure HeadersExact (keccak : Bytes → Bytes32) : Prop where
  bytes : ∀ s, isSingleByte s = false → Announces ⟨false, s.length⟩ (encodeBytes s)
  vector : ∀ (α : Type) (length : α → ℕ) (encode : α → Bytes) (v : List α),
    ExactLength length encode →
      Announces ⟨true, payloadLengthVector length v⟩ (encodeVector length encode v)
  accessListEntry : ∀ e, Announces (rlpHeaderAccessListEntry e) (encodeAccessListEntry e)
  legacy : ∀ txn forSigning wrap, txn.type = none →
    Announces (rlpHeaderTransaction txn forSigning) (encodeTransactionAs txn forSigning wrap)
  eip2930 : ∀ txn forSigning, txn.type = some kEip2930TransactionType →
    ∃ list, encodeTransactionAs txn forSigning false = kEip2930TransactionType :: list ∧
      Announces (rlpHeaderTransaction txn forSigning) list
  wrapped : ∀ txn forSigning, txn.type = some kEip2930TransactionType →
    Announces ⟨false, (encodeTransactionAs txn forSigning false).length⟩
      (encodeTransactionAs txn forSigning true)
  blockHeader : ∀ header forSealing,
    Announces (rlpHeaderBlockHeader header forSealing) (encodeBlockHeaderAs header forSealing)
  blockBody : ∀ body : BlockBody, (∀ txn ∈ body.transactions, KnownType txn) →
    Announces ⟨true, lengthVector lengthTransaction body.transactions +
      lengthVector lengthBlockHeader body.ommers⟩ (encodeBlockBody body)
  storedBody : ∀ body, Announces ⟨true, lengthUint body.baseTxnId + lengthUint body.txnCount +
    lengthVector lengthBlockHeader body.ommers⟩ (encodeBlockBodyForStorage body)
  log : ∀ l, Announces (rlpHeaderLog l) (encodeLog l)
  receipt : ∀ r : Receipt, ∃ list, encodeReceipt r = r.type.toList ++ list ∧
    Announces (rlpHeaderReceipt r) list
  leafNode : ∀ path value, Announces
    ⟨true, lengthBytes (encodePath path true) + lengthBytes value⟩ (leafNodeRlp path value)
  extensionNode : ∀ path childRef, Announces
    ⟨true, lengthBytes (encodePath path false) + childRef.length⟩ (extensionNodeRlp path childRef)
  branchNode : ∀ stateMask hashMask stack childHashes stack',
    branchRef keccak stateMask hashMask stack = some (childHashes, stack') →
      ∃ L rlp, stack' = nodeRef keccak rlp :: stack.drop stateMask.count ∧ Announces ⟨true, L⟩ rlp
  account : ∀ (account : Account) storageRoot, Announces
    ⟨true, lengthUint account.nonce + lengthUint account.balance + (kHashLength + 1) +
      (kHashLength + 1)⟩ (account.rlp storageRoot)

/-- The lengths are exact for the transactions of the types that the encoder asserts. -/
theorem announcedLengths_exact (keccak : Bytes → Bytes32) : LengthsExact ∧ HeadersExact keccak := by
  constructor
  · exact {
      bytes := fun s => (length_encodeBytes s).symm
      uint64 := fun n => (length_encodeUint n).symm
      uint256 := fun n => (length_encodeUint n).symm
      hash := fun h => (length_encodeFixed h).symm
      vector := fun _ _ _ h _ => (length_encodeVector fun x _ => (h x).symm).symm
      accessListEntry := fun e => (length_encodeAccessListEntry e).symm
      transaction := fun _ h => (length_encodeTransaction h).symm
      blockHeader := fun header => (length_encodeBlockHeader header).symm
      log := fun l => (length_encodeLog l).symm }
  · exact {
      bytes := fun _ => announces_bytes
      vector := fun _ _ _ _ h => announces_vector fun x _ => (h x).symm
      accessListEntry := announces_accessListEntry
      legacy := by
        intro txn forSigning wrap h
        rw [encodeTransactionAs, h]
        exact announces_legacy forSigning h
      eip2930 := fun _ forSigning h =>
        ⟨_, encodeTransactionAs_eip2930 forSigning h, announces_eip2930List forSigning h⟩
      wrapped := fun _ forSigning => announces_wrapped forSigning
      blockHeader := announces_blockHeader
      blockBody := fun _ => announces_blockBody
      storedBody := announces_storedBody
      log := announces_log
      receipt := announces_receipt
      leafNode := announces_leafNode
      extensionNode := announces_extensionNode
      branchNode := fun _ _ _ _ _ => announces_branchNode
      account := announces_account }

/-- The access list of a transaction of another type is encoded, but not counted. -/
theorem not_exactLength_transaction : ¬ExactLength lengthTransaction encodeTransaction := by
  intro h
  exact absurd (h { type := some 2 }) (by decide)

end Silkworm.Rlp
