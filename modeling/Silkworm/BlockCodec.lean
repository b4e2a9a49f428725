import Silkworm.Blocks
import Silkworm.TransactionBounds

/-!
# The strings accepted as block headers, bodies and blocks

Headers are accepted in their canonical form only. Bodies inherit the strings that are
accepted as transactions, and leave their view where the transactions do.
-/

namespace Silkworm.Rlp
open ViewParsers

theorem length_encodeBlockHeaderFields (header : BlockHeader) :
    (encodeBlockHeaderFields header false).length =
      (rlpHeaderBlockHeader header false).payloadLength := by
  have hbloom : (encodeBytes header.logsBloom.val).length =
      kBloomByteLength + lengthOfLength kBloomByteLength := by
    have hne : ¬isSingleByte header.logsBloom.val = true := by
      rw [isSingleByte_iff]
      rintro ⟨b, hb, -⟩
      have hlen := header.logsBloom.property
      rw [hb] at hlen
      simp at hlen
    rw [length_encodeBytes, lengthBytes, if_neg hne, header.logsBloom.property]
  simp only [encodeBlockHeaderFields, rlpHeaderBlockHeader, List.length_append, length_encodeFixed,
    length_encodeUint, length_encodeBytes header.extraData, hbloom, Bool.false_eq_true, ↓reduceIte]

theorem encodeBlockHeader_eq (header : BlockHeader) :
    encodeBlockHeader header = encodeList (encodeBlockHeaderFields header false) := by
  rw [encodeList, length_encodeBlockHeaderFields]
  rfl

theorem length_encodeBlockHeader (header : BlockHeader) :
    (encodeBlockHeader header).length = lengthBlockHeader header := by
  rw [encodeBlockHeader_eq, encodeList, List.length_append, length_encodeHeader,
    length_encodeBlockHeaderFields]
  rfl

theorem codes_nonce : Codes (decodeFixed 8) encodeFixed (fun _ => True) :=
  codes_fixed (by norm_num) (by norm_num)

theorem codes_bloom : Codes (decodeFixed kBloomByteLength) (fun v => encodeBytes v.val)
    (fun _ => True) :=
  codes_array (by norm_num)

theorem codes_blockHeaderFields :
    Codes decodeBlockHeaderFields (encodeBlockHeaderFields · false)
      (fun header => header.extraData.length < 2 ^ 64) where
  accepts := by
    intro s header r
    simp only [decodeBlockHeaderFields, codes_uint64.bind_eq_ok, codes_uint256.bind_eq_ok,
      codes_bytes.bind_eq_ok, codes_hash.bind_eq_ok, codes_address.bind_eq_ok,
      codes_nonce.bind_eq_ok, codes_bloom.bind_eq_ok, pure_apply, Outcome.ok.injEq]
    constructor
    · -- One field at a time: a single pattern for all of them is slow.
      intro h
      obtain ⟨parent, s₁, -, h₁, h⟩ := h
      obtain ⟨ommers, s₂, -, h₂, h⟩ := h
      obtain ⟨beneficiary, s₃, -, h₃, h⟩ := h
      obtain ⟨state, s₄, -, h₄, h⟩ := h
      obtain ⟨txns, s₅, -, h₅, h⟩ := h
      obtain ⟨receipts, s₆, -, h₆, h⟩ := h
      obtain ⟨bloom, s₇, -, h₇, h⟩ := h
      obtain ⟨difficulty, s₈, -, h₈, h⟩ := h
      obtain ⟨number, s₉, -, h₉, h⟩ := h
      obtain ⟨limit, s₁₀, -, h₁₀, h⟩ := h
      obtain ⟨used, s₁₁, -, h₁₁, h⟩ := h
      obtain ⟨time, s₁₂, -, h₁₂, h⟩ := h
      obtain ⟨extra, s₁₃, hextra, h₁₃, h⟩ := h
      obtain ⟨mix, s₁₄, -, h₁₄, nonce, s₁₅, -, h₁₅, hheader, hr⟩ := h
      refine ⟨_, ⟨rfl, ?_⟩, ?_⟩
      · rw [← hheader]
        exact hextra
      · rw [h₁, h₂, h₃, h₄, h₅, h₆, h₇, h₈, h₉, h₁₀, h₁₁, h₁₂, h₁₃, h₁₄, h₁₅, hr, ← hheader]
        simp only [encodeBlockHeaderFields, Bool.false_eq_true, ↓reduceIte, List.append_assoc]
    · rintro ⟨_, ⟨rfl, hextra⟩, rfl⟩
      refine ⟨header.parentHash, _, trivial, ?_, header.ommersHash, _, trivial, rfl,
        header.beneficiary, _, trivial, rfl, header.stateRoot, _, trivial, rfl,
        header.transactionsRoot, _, trivial, rfl, header.receiptsRoot, _, trivial, rfl,
        header.logsBloom, _, trivial, rfl, header.difficulty, _, trivial, rfl,
        header.number, _, trivial, rfl, header.gasLimit, _, trivial, rfl,
        header.gasUsed, _, trivial, rfl, header.timestamp, _, trivial, rfl,
        header.extraData, _, hextra, rfl, header.mixHash, _, trivial, rfl,
        header.nonce, r, trivial, rfl, rfl, rfl⟩
      simp only [encodeBlockHeaderFields, Bool.false_eq_true, ↓reduceIte, List.append_assoc]
  tame header hlt := by
    apply codes_bytes.tame
    simp only [encodeBlockHeaderFields, List.length_append] at hlt
    omega
  nonempty header := by simp [encodeBlockHeaderFields, codes_hash.nonempty]

theorem codes_blockHeader : Codes decodeBlockHeader encodeBlockHeader
    (fun header => (encodeBlockHeaderFields header false).length < 2 ^ 64) :=
  .congr (.list codes_blockHeaderFields) encodeBlockHeader_eq fun _ => Iff.rfl

theorem codes_ommers : Codes (decodeVector decodeBlockHeader)
    (encodeVector lengthBlockHeader encodeBlockHeader)
    (fun v => payloadLengthVector lengthBlockHeader v < 2 ^ 64) :=
  codes_blockHeader.vector length_encodeBlockHeader

theorem length_encodeOmmers (v : List BlockHeader) :
    (encodeVector lengthBlockHeader encodeBlockHeader v).length =
      lengthVector lengthBlockHeader v :=
  length_encodeVector fun h _ => length_encodeBlockHeader h

theorem codes_storedBlockBodyFields :
    Codes decodeStoredBlockBodyFields encodeBlockBodyForStorageFields
      (fun body => payloadLengthVector lengthBlockHeader body.ommers < 2 ^ 64) where
  accepts := by
    intro s body r
    simp only [decodeStoredBlockBodyFields, codes_uint64.bind_eq_ok, codes_ommers.bind_eq_ok,
      pure_apply, Outcome.ok.injEq]
    constructor
    · rintro ⟨base, _, -, rfl, count, _, -, rfl, ommers, _, hommers, rfl, rfl, rfl⟩
      refine ⟨_, ⟨rfl, hommers⟩, ?_⟩
      simp only [encodeBlockBodyForStorageFields, List.append_assoc]
    · rintro ⟨_, ⟨rfl, hommers⟩, rfl⟩
      refine ⟨body.baseTxnId, _, trivial, ?_, body.txnCount, _, trivial, rfl, body.ommers, r,
        hommers, rfl, rfl, rfl⟩
      simp only [encodeBlockBodyForStorageFields, List.append_assoc]
  tame body hlt := by
    apply codes_ommers.tame
    simp only [encodeBlockBodyForStorageFields, List.length_append] at hlt
    omega
  nonempty body := by simp [encodeBlockBodyForStorageFields, codes_uint64.nonempty]

theorem codes_storedBlockBody : Codes decodeStoredBlockBody encodeBlockBodyForStorage
    (fun body => (encodeBlockBodyForStorageFields body).length < 2 ^ 64) := by
  refine codes_storedBlockBodyFields.list.congr (fun body => ?_) fun _ => Iff.rfl
  have hlen : (encodeBlockBodyForStorageFields body).length = lengthUint body.baseTxnId +
      lengthUint body.txnCount + lengthVector lengthBlockHeader body.ommers := by
    simp only [encodeBlockBodyForStorageFields, List.length_append, length_encodeUint,
      length_encodeOmmers]
  rw [encodeList, hlen]
  rfl

/-- The strings accepted as bodies. -/
def BlockBodyWord (t : Bytes) (body : BlockBody) : Prop :=
  ∃ u, Words (TransactionWord {}) u body.transactions ∧
    (encodeList u ++ encodeVector lengthBlockHeader encodeBlockHeader body.ommers).length < 2 ^ 64 ∧
    t = encodeList (encodeList u ++ encodeVector lengthBlockHeader encodeBlockHeader body.ommers)

private theorem length_le_encodeList (u : Bytes) : u.length ≤ (encodeList u).length := by
  simp [encodeList]

theorem decodeTransactions_accepts : Accepts (decodeVector decodeTransaction)
    (fun t txns => ∃ u, Words (TransactionWord {}) u txns ∧ u.length < 2 ^ 64 ∧ t = encodeList u) :=
  decodeVector_accepts (decodeTransactionInto_accepts {}) fun _ _ h => h.ne_nil

theorem decodeBodyFields_accepts : Accepts decodeBodyFields (fun t body =>
    ∃ u, Words (TransactionWord {}) u body.transactions ∧ u.length < 2 ^ 64 ∧
      payloadLengthVector lengthBlockHeader body.ommers < 2 ^ 64 ∧
      t = encodeList u ++ encodeVector lengthBlockHeader encodeBlockHeader body.ommers) := by
  intro s body r
  simp only [decodeBodyFields, bind_eq_ok, decodeTransactions_accepts s, codes_ommers.eq_ok,
    pure_apply, Outcome.ok.injEq]
  constructor
  · rintro ⟨txns, _, ⟨_, ⟨u, hu, hlt, rfl⟩, rfl⟩, ommers, _, ⟨hommers, rfl⟩, rfl, rfl⟩
    exact ⟨_, ⟨u, hu, hlt, hommers, rfl⟩, by rw [List.append_assoc]⟩
  · rintro ⟨_, ⟨u, hu, hlt, hommers, rfl⟩, rfl⟩
    exact ⟨body.transactions, _, ⟨_, ⟨u, hu, hlt, rfl⟩, by rw [List.append_assoc]⟩, body.ommers, r,
      ⟨hommers, rfl⟩, rfl, rfl⟩

theorem decodeBlockBody_accepts : Accepts decodeBlockBody BlockBodyWord := by
  intro s body r
  rw [decodeBlockBody, decodeListOf_accepts decodeBodyFields_accepts]
  constructor
  · rintro ⟨_, ⟨_, ⟨u, hu, -, -, rfl⟩, hlt, rfl⟩, rfl⟩
    exact ⟨_, ⟨u, hu, hlt, rfl⟩, rfl⟩
  · rintro ⟨_, ⟨u, hu, hlt, rfl⟩, rfl⟩
    have hu64 := length_le_encodeList u
    have hommers := codes_ommers.tame body.ommers
    rw [List.length_append] at hlt
    exact ⟨_, ⟨_, ⟨u, hu, by omega, hommers (by omega), rfl⟩, by rw [List.length_append]; exact hlt,
      rfl⟩, rfl⟩

theorem length_encodeTransaction {x : Transaction}
    (h : x.type = none ∨ x.type = some kEip2930TransactionType) :
    (encodeTransaction x).length = lengthTransaction x := by
  rcases h with h | h
  · rw [encodeTransaction_legacy h, encodeList, List.length_append, length_encodeHeader,
      length_legacyPayload h]
    simp [lengthTransaction, h]
  · rw [encodeTransaction_eip2930 h]
    simp only [eip2930Word, lengthTransaction, List.length_append, List.length_cons,
      length_encodeHeader, length_eip2930Payload h, h, Option.isSome_some, ↓reduceIte]
    omega

theorem encodeBlockBody_eq {body : BlockBody}
    (h : ∀ x ∈ body.transactions, x.type = none ∨ x.type = some kEip2930TransactionType) :
    encodeBlockBody body = encodeList (encodeList (body.transactions.map encodeTransaction).flatten ++
      encodeVector lengthBlockHeader encodeBlockHeader body.ommers) := by
  have htxns : encodeVector lengthTransaction encodeTransaction body.transactions =
      encodeList (body.transactions.map encodeTransaction).flatten := by
    rw [encodeList, length_flatten_map fun x hx => length_encodeTransaction (h x hx)]
    rfl
  have hlen := length_encodeVector (v := body.transactions)
    fun x hx => length_encodeTransaction (h x hx)
  rw [encodeList, List.length_append, length_encodeOmmers, ← htxns, hlen]
  rfl

theorem TransactionWord.type_eq {txn x : Transaction} {t : Bytes} (h : TransactionWord txn t x) :
    x.type = none ∨ x.type = some kEip2930TransactionType := by
  cases h with
  | legacy _ hinto => exact .inl hinto.type
  | eip2930 _ _ hinto => exact .inr hinto.type

end Silkworm.Rlp
