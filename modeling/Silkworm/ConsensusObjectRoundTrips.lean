import Silkworm.BlockCodec

/-!
# Round trips of the consensus objects

Decoding undoes encoding, whatever follows the encoding in the view.
-/

namespace Silkworm.Rlp
open ViewParsers

/-- The transactions that have a wire format: legacy ones, whose chain id fits into `v`,
and EIP-2930 ones. -/
def Encodable (x : Transaction) : Prop :=
  (x.type = none ∧ x.accessList = [] ∧ ∀ c ∈ x.chainId, 2 * c.toNat + 36 < 2 ^ 256) ∨
    (x.type = some kEip2930TransactionType ∧ x.chainId.isSome)

theorem Encodable.type_eq {x : Transaction} (h : Encodable x) :
    x.type = none ∨ x.type = some kEip2930TransactionType :=
  h.imp And.left And.left

theorem Transaction.equal_self (x : Transaction) (a : Option Address) :
    Transaction.equal { x with sender := a } x = true := by
  simp [Transaction.equal]

/-- The encoding of a transaction is accepted; the sender is not part of it. -/
theorem Encodable.word {x : Transaction} (h : Encodable x)
    (hlt : (encodeTransaction x).length < 2 ^ 64) :
    TransactionWord {} (encodeTransaction x) { x with sender := none } := by
  rcases h with ⟨htype, hlist, hchain⟩ | ⟨htype, hchain⟩
  · rw [encodeTransaction_legacy htype] at hlt ⊢
    have hv : Ecdsa.vToYParityAndChainId x.v = ⟨x.oddYParity, x.chainId⟩ :=
      Ecdsa.vToYParityAndChainId_of_v hchain
    refine .legacy { x with sender := none } ⟨htype, hlist, rfl, hv⟩ ?_
    rw [encodeList, List.length_append] at hlt
    change (legacyPayload x).length < 2 ^ 64
    omega
  · rw [encodeTransaction_eip2930 htype] at hlt ⊢
    refine .eip2930 { x with sender := none } _ ⟨htype, rfl, hchain⟩ le_rfl ?_
    simp only [eip2930Word, List.length_append, List.length_cons] at hlt
    change 1 + (encodeHeader ⟨true, (eip2930Payload x).length⟩ ++ eip2930Payload x).length < 2 ^ 64
    rw [List.length_append]
    omega

theorem words_encodeTransaction {txns : List Transaction} (h : ∀ x ∈ txns, Encodable x)
    (hlt : (txns.map encodeTransaction).flatten.length < 2 ^ 64) :
    Words (TransactionWord {}) (txns.map encodeTransaction).flatten
      (txns.map fun x => { x with sender := none }) := by
  induction txns with
  | nil => exact .nil _
  | cons a as ih =>
    obtain ⟨ha, has⟩ := List.forall_mem_cons.mp h
    simp only [List.map_cons, List.flatten_cons, List.length_append] at hlt ⊢
    exact .cons (ha.word (by omega)) (ih has (by omega))

theorem isEqv_equal_map (txns : List Transaction) :
    (txns.map fun x => { x with sender := none }).isEqv txns Transaction.equal = true := by
  induction txns with
  | nil => rfl
  | cons a as ih => simp [List.isEqv, Transaction.equal_self, ih]

theorem decodeBlockBody_encode {body : BlockBody} (h : ∀ x ∈ body.transactions, Encodable x)
    (hlt : (encodeBlockBody body).length < 2 ^ 64) (t : Bytes) :
    ∃ y, decodeBlockBody (encodeBlockBody body ++ t) = .ok y t ∧ y.equal body := by
  rw [encodeBlockBody_eq fun x hx => (h x hx).type_eq] at hlt ⊢
  refine ⟨⟨body.transactions.map fun x => { x with sender := none }, body.ommers⟩, ?_, ?_⟩
  · refine decodeBlockBody_accepts.ok
      (a := ⟨body.transactions.map fun x => { x with sender := none }, body.ommers⟩)
      ⟨_, words_encodeTransaction h ?_, ?_, rfl⟩ t
    · simp only [encodeList, List.length_append] at hlt
      omega
    · rw [encodeList, List.length_append] at hlt
      exact lt_of_le_of_lt (Nat.le_add_left _ _) hlt
  · simp [BlockBody.equal, isEqv_equal_map]

/-- Sizes are below 2^64. -/
theorem decode_encode :
    (∀ x t, Encodable x → (encodeTransaction x).length < 2 ^ 64 →
      ∃ y, decodeTransaction (encodeTransaction x ++ t) = .ok y t ∧ y.equal x) ∧
    (∀ x t, (encodeBlockHeader x).length < 2 ^ 64 →
      decodeBlockHeader (encodeBlockHeader x ++ t) = .ok x t) ∧
    (∀ x t, (∀ txn ∈ x.transactions, Encodable txn) → (encodeBlockBody x).length < 2 ^ 64 →
      ∃ y, decodeBlockBody (encodeBlockBody x ++ t) = .ok y t ∧ y.equal x) ∧
    (∀ x, (encodeBlockBodyForStorage x).length < 2 ^ 64 →
      decodeStoredBlockBody (encodeBlockBodyForStorage x) = .ok x []) := by
  refine ⟨fun x t h hlt => ?_, fun x t hlt => ?_, fun x t h hlt => ?_, fun x hlt => ?_⟩
  · exact ⟨_, (decodeTransactionInto_accepts {}).ok (h.word hlt) t, Transaction.equal_self x none⟩
  · exact codes_blockHeader.eq_ok.mpr ⟨codes_blockHeader.tame x hlt, rfl⟩
  · exact decodeBlockBody_encode h hlt t
  · exact codes_storedBlockBody.eq_ok.mpr ⟨codes_storedBlockBody.tame x hlt, by simp⟩

/-- A legacy transaction with a chain id, in front of a byte that is left alone. -/
theorem decode_encode_chainId :
    Encodable { chainId := some 1 } ∧
      ∃ y, decodeTransaction (encodeTransaction { chainId := some 1 } ++ [7]) = .ok y [7] ∧
        y.equal { chainId := some 1 } := by
  have h : Encodable { chainId := some 1 } := .inl ⟨rfl, rfl, by simp⟩
  exact ⟨h, decode_encode.1 _ [7] h (by decide)⟩

end Silkworm.Rlp
