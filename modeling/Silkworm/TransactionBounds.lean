import Silkworm.TransactionCodec

/-!
# Where the transaction decoder leaves its view

The recipient is peeked at after the gas limit without a check that a byte is left, so the
decoder leaves its view on the strings that end there, and on no others.
-/

namespace Silkworm.Rlp
open ViewParsers

/-- The fields up to the gas limit, at whose end the decoders peek for the recipient. -/
def encodeGasFields (nonce : Uint64) (gasPrice : Uint256) (gasLimit : Uint64) : Bytes :=
  encodeUint nonce ++ encodeUint gasPrice ++ encodeUint gasLimit

/-- The strings with a well-formed start that end right after the gas limit: a legacy
transaction as the last thing in its view, or an EIP-2930 transaction in its array. -/
inductive TruncatedTransaction : Bytes → Prop
  | legacy (L : ℕ) (nonce : Uint64) (gasPrice : Uint256) (gasLimit : Uint64)
      (announced : L ≤ (encodeGasFields nonce gasPrice gasLimit).length) :
      TruncatedTransaction (encodeHeader ⟨true, L⟩ ++ encodeGasFields nonce gasPrice gasLimit)
  | eip2930 (L : ℕ) (chainId : Uint256) (nonce : Uint64) (gasPrice : Uint256) (gasLimit : Uint64)
      (rest : Bytes)
      (announced : L ≤ (encodeUint chainId ++ encodeGasFields nonce gasPrice gasLimit).length) :
      TruncatedTransaction
        (let serialized := kEip2930TransactionType ::
          (encodeHeader ⟨true, L⟩ ++ (encodeUint chainId ++ encodeGasFields nonce gasPrice gasLimit))
        encodeHeader ⟨false, serialized.length⟩ ++ serialized ++ rest)

theorem TruncatedTransaction.ne_nil {s : Bytes} (h : TruncatedTransaction s) : s ≠ [] := by
  cases h with
  | legacy => simp [encodeHeader_ne_nil]
  | eip2930 => simp

theorem decodeToAddress_eq_outOfBounds {s : Bytes} : decodeToAddress s = .outOfBounds ↔ s = [] := by
  cases s with
  | nil => simp [decodeToAddress]
  | cons b t =>
    simp only [decodeToAddress, reduceCtorEq, iff_false]
    rw [bind_of_ok (peek_cons b t)]
    split_ifs
    · rw [bind_of_ok (removePrefix_one_cons b t)]
      simp
    · exact (decodeFixed_inBounds _).bind (fun a => .pure _) _

/-- From the recipient on, a decoder leaves the view exactly when there is nothing left. -/
private theorem decodeToAddress_bind_eq_outOfBounds {α : Type} {f : Option Address → Decoder α}
    (hf : ∀ a, InBounds (f a)) {s : Bytes} :
    (decodeToAddress >>= f) s = .outOfBounds ↔ s = [] := by
  rw [bind_eq_outOfBounds, decodeToAddress_eq_outOfBounds]
  constructor
  · rintro (h | ⟨a, m, -, h⟩)
    · exact h
    · exact absurd h (hf a m)
  · exact .inl

theorem decodeAccessListEntry_inBounds : InBounds decodeAccessListEntry := by
  refine decodeListOf_inBounds ((decodeFixed_inBounds _).bind fun _ => ?_)
  refine (decodeVector_inBounds codes_hash.accepts ?_ (decodeFixed_inBounds _)).bind fun _ => .pure _
  rintro t a ⟨rfl, -⟩
  exact codes_hash.nonempty a

theorem decodeAccessList_inBounds : InBounds (decodeVector decodeAccessListEntry) := by
  refine decodeVector_inBounds codes_accessListEntry.accepts ?_ decodeAccessListEntry_inBounds
  rintro t a ⟨rfl, -⟩
  exact codes_accessListEntry.nonempty a

theorem legacyDecode_eq_outOfBounds {txn : Transaction} {s : Bytes} :
    legacyDecode txn s = .outOfBounds ↔
      ∃ nonce gasPrice gasLimit, s = encodeGasFields nonce gasPrice gasLimit := by
  simp only [legacyDecode, codes_uint64.bind_eq_outOfBounds (decodeUint_inBounds _),
    codes_uint256.bind_eq_outOfBounds (decodeUint_inBounds _), true_and]
  have htail (a : Uint64) (b : Uint256) (c : Uint64) (m : Bytes) := decodeToAddress_bind_eq_outOfBounds
    (s := m) (f := fun toAddress => do
      let value ← decodeUint 256
      let data ← decodeBytes
      let v ← decodeUint 256
      let r ← decodeUint 256
      let s ← decodeUint 256
      pure { txn.setV v with
        nonce := a, gasPrice := b, gasLimit := c, toAddress, value, data, r, s })
    fun _ => (decodeUint_inBounds _).bind fun _ => decodeBytes_inBounds.bind fun _ =>
      (decodeUint_inBounds _).bind fun _ => (decodeUint_inBounds _).bind fun _ =>
      (decodeUint_inBounds _).bind fun _ => .pure _
  simp only [htail]
  constructor
  · rintro ⟨a, _, rfl, b, _, rfl, c, _, rfl, rfl⟩
    exact ⟨a, b, c, by simp [encodeGasFields]⟩
  · rintro ⟨a, b, c, rfl⟩
    exact ⟨a, _, List.append_assoc .., b, _, rfl, c, [], by simp, rfl⟩

theorem eip2930Decode_eq_outOfBounds {txn : Transaction} {s : Bytes} :
    eip2930Decode txn s = .outOfBounds ↔
      ∃ L chainId nonce gasPrice gasLimit,
        s = encodeHeader ⟨true, L⟩ ++ (encodeUint chainId ++ encodeGasFields nonce gasPrice gasLimit) ∧
          L ≤ (encodeUint (chainId : Uint256) ++ encodeGasFields nonce gasPrice gasLimit).length ∧
          L < 2 ^ 64 := by
  simp only [eip2930Decode, bind_eq_outOfBounds, decodeHeader_inBounds s, false_or]
  have htail (i : Uint256) (a : Uint64) (b : Uint256) (c : Uint64) (m : Bytes) :=
    decodeToAddress_bind_eq_outOfBounds
      (s := m) (f := fun toAddress => do
        let value ← decodeUint 256
        let data ← decodeBytes
        let accessList ← decodeVector decodeAccessListEntry
        let oddYParity ← decodeBool
        let r ← decodeUint 256
        let s ← decodeUint 256
        pure { txn with
          chainId := some i, nonce := a, gasPrice := b, gasLimit := c, toAddress, value, data,
          accessList, oddYParity, r, s })
      fun _ => (decodeUint_inBounds _).bind fun _ => decodeBytes_inBounds.bind fun _ =>
        decodeAccessList_inBounds.bind fun _ => decodeBool_inBounds.bind fun _ =>
        (decodeUint_inBounds _).bind fun _ => (decodeUint_inBounds _).bind fun _ => .pure _
  constructor
  · rintro ⟨⟨list, L⟩, m, hh, h⟩
    cases list with
    | false => simp at h
    | true =>
      obtain ⟨rfl, hL, hlt⟩ := decodeHeader_eq_list.mp hh
      rw [if_neg (by simp)] at h
      simp only [codes_uint64.bind_eq_outOfBounds (decodeUint_inBounds _),
        codes_uint256.bind_eq_outOfBounds (decodeUint_inBounds _), true_and, htail] at h
      obtain ⟨i, _, rfl, a, _, rfl, b, _, rfl, c, _, rfl, rfl⟩ := h
      rw [List.append_nil, ← List.append_assoc (encodeUint a)] at hL ⊢
      exact ⟨L, i, a, b, c, rfl, hL, hlt⟩
  · rintro ⟨L, i, a, b, c, rfl, hL, hlt⟩
    refine ⟨⟨true, L⟩, _, decodeHeader_eq_list.mpr ⟨rfl, hL, hlt⟩, ?_⟩
    rw [if_neg (by simp)]
    simp only [codes_uint64.bind_eq_outOfBounds (decodeUint_inBounds _),
      codes_uint256.bind_eq_outOfBounds (decodeUint_inBounds _), true_and, htail]
    exact ⟨i, _, rfl, a, _, List.append_assoc .., b, _, rfl, c, [], by simp, rfl⟩

theorem lengthUint_le {w : ℕ} (h8 : 8 ∣ w) (n : BitVec w) : lengthUint n ≤ 1 + w / 8 := by
  have := length_bigEndian_toNat h8 n
  simp only [lengthUint]
  split <;> omega

theorem length_encodeGasFields_le (nonce : Uint64) (gasPrice : Uint256) (gasLimit : Uint64) :
    (encodeGasFields nonce gasPrice gasLimit).length ≤ 51 := by
  have h1 := lengthUint_le (by norm_num) nonce
  have h2 := lengthUint_le (by norm_num) gasPrice
  have h3 := lengthUint_le (by norm_num) gasLimit
  simp only [encodeGasFields, List.length_append, length_encodeUint]
  omega

theorem decodeTransactionInto_eq_outOfBounds {txn : Transaction} {s : Bytes} :
    decodeTransactionInto txn s = .outOfBounds ↔ TruncatedTransaction s := by
  constructor
  · intro h
    rcases decodeTransactionInto_inv (.inl h) with ⟨L, m, hh⟩ | ⟨P, m, hh, hP⟩
    · rw [decodeTransactionInto, bind_of_ok hh, if_pos rfl, bind_of_ok (remaining_apply _)] at h
      rcases bind_eq_outOfBounds.mp h with h | ⟨y, m', -, h⟩
      · obtain ⟨a, b, c, rfl⟩ := legacyDecode_eq_outOfBounds.mp h
        obtain ⟨rfl, hL, -⟩ := decodeHeader_eq_list.mp hh
        exact .legacy L a b c hL
      · rw [bind_of_ok (remaining_apply _)] at h
        split_ifs at h
        simp at h
    · rw [decodeTransactionInto_array_eq_outOfBounds hh hP] at h
      obtain ⟨L, i, a, b, c, hview, hL, -⟩ := eip2930Decode_eq_outOfBounds.mp h
      have h2 : 2 ≤ P := by
        have hpos := List.length_pos_of_ne_nil (encodeHeader_ne_nil ⟨true, L⟩)
        have hlen := congrArg List.length hview
        rw [List.length_append, List.length_take] at hlen
        omega
      obtain ⟨rfl, hlen, -⟩ := eq_wrapped hh h2
      rw [hview] at hlen ⊢
      have hword := TruncatedTransaction.eip2930 L i a b c (m.drop (P - 1)) hL
      obtain rfl : P = (encodeHeader ⟨true, L⟩ ++
        (encodeUint i ++ encodeGasFields a b c)).length + 1 := by omega
      simpa only [List.length_cons, List.append_assoc, List.cons_append] using hword
  · intro h
    cases h with
    | legacy L a b c hL =>
      have hle := length_encodeGasFields_le a b c
      have hh : decodeHeader (encodeHeader ⟨true, L⟩ ++ encodeGasFields a b c) =
          .ok ⟨true, L⟩ (encodeGasFields a b c) :=
        decodeHeader_eq_list.mpr ⟨rfl, hL, by omega⟩
      rw [decodeTransactionInto, bind_of_ok hh, if_pos rfl, bind_of_ok (remaining_apply _),
        bind_eq_outOfBounds, legacyDecode_eq_outOfBounds]
      exact .inl ⟨a, b, c, rfl⟩
    | eip2930 L i a b c rest hL =>
      have hlen := length_encodeGasFields_le a b c
      have hi := lengthUint_le (by norm_num) i
      have hpos := List.length_pos_of_ne_nil (encodeHeader_ne_nil ⟨true, L⟩)
      have hbound : L ≤ 84 := by
        rw [List.length_append, length_encodeUint] at hL
        omega
      have hhead : lengthOfLength L ≤ 9 := by
        have := BigEndian.length_bigEndian_le (n := L) (k := 8) |>.mpr (by omega)
        simp only [lengthOfLength]
        split <;> omega
      have hh := decodeHeader_wrapped (r := rest)
        (u := kEip2930TransactionType ::
          (encodeHeader ⟨true, L⟩ ++ (encodeUint i ++ encodeGasFields a b c)))
        (by simp only [List.length_cons, List.length_append]; omega)
        (by
          simp only [List.length_cons, List.length_append, length_encodeHeader, length_encodeUint]
          omega)
      simp only [List.append_assoc]
      rw [decodeTransactionInto_array_eq_outOfBounds hh (by simp), eip2930Decode_eq_outOfBounds]
      refine ⟨L, i, a, b, c, ?_, hL, by omega⟩
      rw [List.length_cons, Nat.add_sub_cancel, List.append_eq, List.take_left]

end Silkworm.Rlp
