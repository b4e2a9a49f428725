import Silkworm.BlockCodec

/-!
# Bounds of the consensus object decoders

The decoders of transactions, transaction lists, bodies and blocks leave the view they are
given exactly on the strings in which a transaction ends right after its gas limit.
-/

namespace Silkworm.Rlp
open ViewParsers

/-- A list of transactions that ends in a truncated one. -/
def TruncatedTransactions (s : Bytes) : Prop :=
  ∃ t txns u r, Words (TransactionWord {}) t txns ∧ TruncatedTransaction u ∧
    (t ++ u).length < 2 ^ 64 ∧ s = encodeList (t ++ u) ++ r

def TruncatedBody (s : Bytes) : Prop :=
  ∃ L m, s = encodeHeader ⟨true, L⟩ ++ m ∧ L ≤ m.length ∧ L < 2 ^ 64 ∧ TruncatedTransactions m

def TruncatedBlock (s : Bytes) : Prop :=
  ∃ L header m, (encodeBlockHeaderFields header false).length < 2 ^ 64 ∧
    s = encodeHeader ⟨true, L⟩ ++ (encodeBlockHeader header ++ m) ∧
    L ≤ (encodeBlockHeader header ++ m).length ∧ L < 2 ^ 64 ∧ TruncatedTransactions m

theorem decodeTransactions_eq_outOfBounds {s : Bytes} :
    decodeVector decodeTransaction s = .outOfBounds ↔ TruncatedTransactions s := by
  rw [decodeTransaction,
    decodeVector_eq_outOfBounds (decodeTransactionInto_accepts {}) fun _ _ h => h.ne_nil]
  constructor
  · rintro ⟨t, txns, u, r, ht, -, hu, hlt, rfl⟩
    exact ⟨t, txns, u, r, ht, decodeTransactionInto_eq_outOfBounds.mp hu, hlt, rfl⟩
  · rintro ⟨t, txns, u, r, ht, hu, hlt, rfl⟩
    exact ⟨t, txns, u, r, ht, hu.ne_nil, decodeTransactionInto_eq_outOfBounds.mpr hu, hlt, rfl⟩

theorem decodeBlockHeader_inBounds : InBounds decodeBlockHeader := by
  refine decodeListOf_inBounds ?_
  iterate 7 refine (decodeFixed_inBounds _).bind fun _ => ?_
  iterate 5 refine (decodeUint_inBounds _).bind fun _ => ?_
  refine decodeBytes_inBounds.bind fun _ => ?_
  iterate 2 refine (decodeFixed_inBounds _).bind fun _ => ?_
  exact .pure _

theorem decodeOmmers_inBounds : InBounds (decodeVector decodeBlockHeader) := by
  refine decodeVector_inBounds codes_blockHeader.accepts ?_ decodeBlockHeader_inBounds
  rintro t a ⟨rfl, -⟩
  exact codes_blockHeader.nonempty a

theorem decodeBodyFields_eq_outOfBounds {s : Bytes} :
    decodeBodyFields s = .outOfBounds ↔ TruncatedTransactions s := by
  rw [decodeBodyFields, bind_eq_outOfBounds, decodeTransactions_eq_outOfBounds, or_iff_left]
  rintro ⟨a, m, -, h⟩
  exact decodeOmmers_inBounds.bind (fun _ => .pure _) m h

theorem decodeBlockBody_eq_outOfBounds {s : Bytes} :
    decodeBlockBody s = .outOfBounds ↔ TruncatedBody s := by
  rw [decodeBlockBody, decodeListOf_eq_outOfBounds]
  simp only [decodeBodyFields_eq_outOfBounds, TruncatedBody]

theorem decodeBlock_eq_outOfBounds {s : Bytes} :
    decodeBlock s = .outOfBounds ↔ TruncatedBlock s := by
  have hbody (header : BlockHeader) (m : Bytes) :
      (do let body ← decodeBodyFields; pure ⟨body, header⟩ : Decoder Block) m = .outOfBounds ↔
        TruncatedTransactions m := by
    rw [bind_eq_outOfBounds, decodeBodyFields_eq_outOfBounds, or_iff_left]
    simp
  rw [decodeBlock, decodeListOf_eq_outOfBounds]
  simp only [decodeBlockFields, codes_blockHeader.bind_eq_outOfBounds decodeBlockHeader_inBounds,
    hbody]
  constructor
  · rintro ⟨L, _, rfl, hL, hlt, header, m, hsmall, rfl, hm⟩
    exact ⟨L, header, m, hsmall, rfl, hL, hlt, hm⟩
  · rintro ⟨L, header, m, hsmall, rfl, hL, hlt, hm⟩
    exact ⟨L, _, rfl, hL, hlt, header, m, hsmall, rfl, hm⟩

/-- The exact set of inputs that stay in bounds. -/
theorem decode_inBounds_iff (txn : Transaction) (s : Bytes) :
    (decodeTransactionInto txn s ≠ .outOfBounds ↔ ¬TruncatedTransaction s) ∧
    (decodeVector decodeTransaction s ≠ .outOfBounds ↔ ¬TruncatedTransactions s) ∧
    (decodeBlockBody s ≠ .outOfBounds ↔ ¬TruncatedBody s) ∧
    (decodeBlock s ≠ .outOfBounds ↔ ¬TruncatedBlock s) :=
  ⟨decodeTransactionInto_eq_outOfBounds.not, decodeTransactions_eq_outOfBounds.not,
    decodeBlockBody_eq_outOfBounds.not, decodeBlock_eq_outOfBounds.not⟩

/-- A legacy list with nonce, gas price and gas limit and nothing else. -/
theorem decodeTransaction_not_inBounds : ¬∀ s, decodeTransaction s ≠ .outOfBounds := by
  intro h
  exact h [0xC3, 0x01, 0x01, 0x01] (by decide)

end Silkworm.Rlp
