import Silkworm.RlpBounds
import Silkworm.Transactions

/-!
# The strings accepted as transactions

The decoder accepts the canonical strings of both formats and, for EIP-2930, also strings
whose list header announces fewer bytes than the fields take.
-/

namespace Silkworm
open ViewParsers

theorem Ecdsa.v_of_vToYParityAndChainId (v : Uint256) :
    yParityAndChainIdToV (vToYParityAndChainId v).odd (vToYParityAndChainId v).chainId = v := by
  by_cases h27 : v = 27
  · subst h27
    rfl
  by_cases h28 : v = 28
  · subst h28
    rfl
  simp only [vToYParityAndChainId, h27, h28, or_self, ↓reduceIte, yParityAndChainIdToV]
  have hw : v = (v - 35) + 35 := (BitVec.sub_add_cancel v 35).symm
  generalize v - 35 = w at *
  subst hw
  have hodd : (if decide (w.toNat % 2 = 1) = true then (1 : Uint256) else 0).toNat = w.toNat % 2 := by
    rcases Nat.mod_two_eq_zero_or_one w.toNat with h | h <;> simp [h]
  apply BitVec.eq_of_toNat_eq
  rw [BitVec.toNat_add, hodd]
  have h2 : (2 : Uint256).toNat = 2 := rfl
  simp only [BitVec.toNat_add, BitVec.toNat_mul, BitVec.toNat_ushiftRight, Nat.shiftRight_one, h2]
  omega

/-- The word that the chain id and the parity are read from. -/
theorem Ecdsa.toNat_yParityAndChainIdToV_sub (odd : Bool) (c : Uint256) :
    (yParityAndChainIdToV odd (some c) - 35).toNat =
      (2 * c.toNat + if odd then 1 else 0) % 2 ^ 256 := by
  have hodd : (if odd = true then 1 else 0 : Uint256).toNat = if odd then 1 else 0 := by
    cases odd <;> rfl
  have hv : yParityAndChainIdToV odd (some c) - 35 = c * 2 + if odd then 1 else 0 := by
    rw [yParityAndChainIdToV, BitVec.add_assoc, BitVec.add_comm 35, ← BitVec.add_assoc,
      BitVec.add_sub_cancel]
  have h2 : (2 : Uint256).toNat = 2 := rfl
  rw [hv, BitVec.toNat_add, BitVec.toNat_mul, hodd, h2, Nat.mod_add_mod, Nat.mul_comm]

theorem Ecdsa.eq_iff_toNat_sub {v : Uint256} (u : Uint256) :
    v = u ↔ (v - 35).toNat = (u - 35).toNat := by
  rw [BitVec.toNat_inj, BitVec.sub_left_inj]

/-- A chain id is lost if twice of it does not fit, or if it makes one of the two values that
stand for no chain id. -/
theorem Ecdsa.vToYParityAndChainId_of_v_iff {odd : Bool} {c : Uint256} :
    vToYParityAndChainId (yParityAndChainIdToV odd (some c)) = ⟨odd, some c⟩ ↔
      c.toNat < 2 ^ 255 ∧ c.toNat ≠ 2 ^ 255 - 4 := by
  have hw := toNat_yParityAndChainIdToV_sub odd c
  have h27 : (27 - 35 : Uint256).toNat = 2 ^ 256 - 8 := by decide
  have h28 : (28 - 35 : Uint256).toNat = 2 ^ 256 - 7 := by decide
  have hc := c.isLt
  have hlow : (if odd then 1 else 0) < 2 := by cases odd <;> decide
  have hparity : (if odd then 1 else 0) = 1 ↔ odd = true := by cases odd <;> decide
  generalize yParityAndChainIdToV odd (some c) = v at *
  generalize (if odd then 1 else 0) = b at *
  simp only [vToYParityAndChainId, eq_iff_toNat_sub 27, eq_iff_toNat_sub 28, hw, h27, h28]
  by_cases hnone : (2 * c.toNat + b) % 2 ^ 256 = 2 ^ 256 - 8 ∨
      (2 * c.toNat + b) % 2 ^ 256 = 2 ^ 256 - 7
  · rw [if_pos hnone]
    refine iff_of_false (by simp) ?_
    omega
  · rw [if_neg hnone]
    have hodd : decide ((2 * c.toNat + b) % 2 ^ 256 % 2 = 1) = odd := by
      rw [Bool.eq_iff_iff, decide_eq_true_iff, ← hparity]
      omega
    rw [hodd, YParityAndChainId.mk.injEq, Option.some.injEq, ← BitVec.toNat_inj,
      BitVec.toNat_ushiftRight, hw, Nat.shiftRight_one, and_iff_right rfl]
    omega

theorem Ecdsa.vToYParityAndChainId_of_v {odd : Bool} {chainId : Option Uint256}
    (h : ∀ c ∈ chainId, 2 * c.toNat + 36 < 2 ^ 256) :
    vToYParityAndChainId (yParityAndChainIdToV odd chainId) = ⟨odd, chainId⟩ := by
  cases chainId with
  | none => cases odd <;> decide
  | some c =>
    have hc := h c rfl
    apply vToYParityAndChainId_of_v_iff.mpr
    omega

namespace Rlp

theorem length_encodeHashes (v : List Bytes32) :
    (encodeVector lengthHash encodeFixed v).length = lengthVector lengthHash v :=
  length_encodeVector fun k _ => length_encodeFixed k

theorem length_encodeAccessListEntryFields (e : AccessListEntry) :
    (encodeAccessListEntryFields e).length = (rlpHeaderAccessListEntry e).payloadLength := by
  rw [encodeAccessListEntryFields, List.length_append, length_encodeFixed, length_encodeHashes]
  rfl

theorem encodeAccessListEntry_eq (e : AccessListEntry) :
    encodeAccessListEntry e = encodeList (encodeAccessListEntryFields e) := by
  rw [encodeList, length_encodeAccessListEntryFields]
  rfl

theorem length_encodeAccessListEntry (e : AccessListEntry) :
    (encodeAccessListEntry e).length = lengthAccessListEntry e := by
  rw [encodeAccessListEntry, List.length_append, length_encodeHeader,
    length_encodeAccessListEntryFields]
  rfl

theorem codes_hashes : Codes (decodeVector (decodeFixed kHashLength))
    (encodeVector lengthHash encodeFixed) (fun v => payloadLengthVector lengthHash v < 2 ^ 64) :=
  codes_hash.vector length_encodeFixed

theorem codes_accessListEntryFields :
    Codes decodeAccessListEntryFields encodeAccessListEntryFields
      (fun e => payloadLengthVector lengthHash e.storageKeys < 2 ^ 64) where
  accepts := by
    intro s e r
    simp only [decodeAccessListEntryFields, codes_address.bind_eq_ok, codes_hashes.bind_eq_ok,
      pure_apply, Outcome.ok.injEq]
    constructor
    · rintro ⟨account, _, -, rfl, keys, _, hkeys, rfl, rfl, rfl⟩
      exact ⟨_, ⟨rfl, hkeys⟩, by simp [encodeAccessListEntryFields]⟩
    · rintro ⟨_, ⟨rfl, hkeys⟩, rfl⟩
      exact ⟨e.account, _, trivial, List.append_assoc .., e.storageKeys, _, hkeys, rfl, rfl, rfl⟩
  tame e he := codes_hashes.tame _ (by
    rw [encodeAccessListEntryFields, List.length_append] at he
    omega)
  nonempty e := by simp [encodeAccessListEntryFields, codes_address.nonempty]

theorem codes_accessListEntry : Codes decodeAccessListEntry encodeAccessListEntry
    (fun e => (encodeAccessListEntryFields e).length < 2 ^ 64) :=
  codes_accessListEntryFields.list.congr encodeAccessListEntry_eq fun _ => Iff.rfl

theorem codes_accessList : Codes (decodeVector decodeAccessListEntry)
    (encodeVector lengthAccessListEntry encodeAccessListEntry)
    (fun v => payloadLengthVector lengthAccessListEntry v < 2 ^ 64) :=
  codes_accessListEntry.vector length_encodeAccessListEntry

theorem codes_toAddress : Codes decodeToAddress encodeToAddress (fun _ => True) where
  accepts := by
    intro s a r
    simp only [and_true, exists_eq_left]
    constructor
    · intro h
      cases s with
      | nil => simp [decodeToAddress] at h
      | cons b t =>
        rw [decodeToAddress, bind_of_ok (peek_cons b t)] at h
        split_ifs at h with hb
        · rw [bind_of_ok (removePrefix_one_cons b t)] at h
          simp only [pure_apply, Outcome.ok.injEq] at h
          obtain ⟨rfl, rfl⟩ := h
          exact congrArg (· :: t) hb
        · simp only [codes_address.bind_eq_ok, pure_apply, Outcome.ok.injEq] at h
          obtain ⟨a, _, -, hs, rfl, rfl⟩ := h
          exact hs
    · rintro rfl
      cases a with
      | none => rfl
      | some a =>
        have hne : byte (kEmptyStringCode + kAddressLength) ≠ byte kEmptyStringCode := by decide
        simp only [encodeToAddress, encodeFixed, List.cons_append]
        rw [decodeToAddress, bind_of_ok (peek_cons _ _), if_neg hne]
        simp only [codes_address.bind_eq_ok, pure_apply, Outcome.ok.injEq]
        exact ⟨a, r, trivial, rfl, rfl, rfl⟩
  tame _ _ := trivial
  nonempty a := by cases a <;> simp [encodeToAddress, encodeFixed]

theorem length_encodeToAddress (a : Option Address) :
    (encodeToAddress a).length = lengthToAddress a := by
  cases a <;> simp [encodeToAddress, lengthToAddress]

def legacyPayload (x : Transaction) : Bytes :=
  encodeCommonFields x ++ encodeUint x.v ++ encodeUint x.r ++ encodeUint x.s

def eip2930Payload (x : Transaction) : Bytes :=
  encodeUint (x.chainId.getD 0) ++ encodeCommonFields x ++
    encodeVector lengthAccessListEntry encodeAccessListEntry x.accessList ++
    encodeBool x.oddYParity ++ encodeUint x.r ++ encodeUint x.s

/-- The byte array that holds an EIP-2930 transaction whose list header announces `L`
bytes. -/
def eip2930Word (L : ℕ) (x : Transaction) : Bytes :=
  let serialized := kEip2930TransactionType :: (encodeHeader ⟨true, L⟩ ++ eip2930Payload x)
  encodeHeader ⟨false, serialized.length⟩ ++ serialized

theorem length_encodeCommonFields (x : Transaction) :
    (encodeCommonFields x).length = lengthUint x.nonce + lengthUint x.gasPrice +
      lengthUint x.gasLimit + lengthToAddress x.toAddress + lengthUint x.value +
      lengthBytes x.data := by
  simp only [encodeCommonFields, List.length_append, length_encodeUint, length_encodeToAddress,
    length_encodeBytes]

theorem length_legacyPayload {x : Transaction} (h : x.type = none) :
    (legacyPayload x).length = (rlpHeaderTransaction x false).payloadLength := by
  simp [legacyPayload, rlpHeaderTransaction, length_encodeCommonFields, length_encodeUint, h]
  omega

theorem length_eip2930Payload {x : Transaction} (h : x.type = some kEip2930TransactionType) :
    (eip2930Payload x).length = (rlpHeaderTransaction x false).payloadLength := by
  have hlist := length_encodeVector (v := x.accessList) fun e _ => length_encodeAccessListEntry e
  simp [eip2930Payload, rlpHeaderTransaction, length_encodeCommonFields, length_encodeUint, h,
    length_encodeBool, hlist]
  omega

theorem encodeTransaction_legacy {x : Transaction} (h : x.type = none) :
    encodeTransaction x = encodeList (legacyPayload x) := by
  rw [encodeList, length_legacyPayload h]
  simp only [encodeTransaction, encodeTransactionAs, h, legacyEncode, legacyPayload,
    List.append_assoc, Bool.not_false, ↓reduceIte]
  rfl

theorem encodeTransaction_eip2930 {x : Transaction} (h : x.type = some kEip2930TransactionType) :
    encodeTransaction x = eip2930Word (eip2930Payload x).length x := by
  have hlen := length_eip2930Payload h
  simp only [encodeTransaction, encodeTransactionAs, h, eip2930Encode, eip2930Word,
    List.append_assoc, List.length_cons, List.length_append, length_encodeHeader, hlen,
    ↓reduceIte, Bool.not_false]
  simp only [eip2930Payload, List.append_assoc]
  rfl

/-- The fields that decoding a legacy transaction into `txn` does not read from the view,
and the parity and chain id, which come back from `v`. -/
structure LegacyInto (txn x : Transaction) : Prop where
  type : x.type = txn.type
  accessList : x.accessList = txn.accessList
  sender : x.sender = txn.sender
  packed : Ecdsa.vToYParityAndChainId x.v = ⟨x.oddYParity, x.chainId⟩

structure Eip2930Into (txn x : Transaction) : Prop where
  type : x.type = txn.type
  sender : x.sender = txn.sender
  chainId : x.chainId.isSome

theorem legacyDecode_eq_ok {txn x : Transaction} {s r : Bytes} :
    legacyDecode txn s = .ok x r ↔
      s = legacyPayload x ++ r ∧ x.data.length < 2 ^ 64 ∧ LegacyInto txn x := by
  simp only [legacyDecode, codes_uint64.bind_eq_ok, codes_uint256.bind_eq_ok,
    codes_toAddress.bind_eq_ok, codes_bytes.bind_eq_ok, pure_apply, Outcome.ok.injEq]
  constructor
  · rintro ⟨nonce, _, -, rfl, gasPrice, _, -, rfl, gasLimit, _, -, rfl, toAddress, _, -, rfl,
      value, _, -, rfl, data, _, hdata, rfl, v, _, -, rfl, xr, _, -, rfl, xs, _, -, rfl, rfl, rfl⟩
    have hv := Ecdsa.v_of_vToYParityAndChainId v
    refine ⟨?_, hdata, rfl, rfl, rfl, ?_⟩
    · simp only [legacyPayload, encodeCommonFields, Transaction.v, Transaction.setV, hv,
        List.append_assoc]
    · simp only [Transaction.v, Transaction.setV, hv]
  · rintro ⟨rfl, hdata, h⟩
    refine ⟨x.nonce, _, trivial, ?_, x.gasPrice, _, trivial, rfl, x.gasLimit, _, trivial, rfl,
      x.toAddress, _, trivial, rfl, x.value, _, trivial, rfl, x.data, _, hdata, rfl,
      x.v, _, trivial, rfl, x.r, _, trivial, rfl, x.s, r, trivial, rfl, ?_, rfl⟩
    · simp only [legacyPayload, encodeCommonFields, List.append_assoc]
    · simp only [Transaction.setV, h.packed, ← h.type, ← h.accessList, ← h.sender]

theorem eip2930Decode_eq_ok {txn x : Transaction} {s r : Bytes} :
    eip2930Decode txn s = .ok x r ↔
      ∃ L, s = encodeHeader ⟨true, L⟩ ++ eip2930Payload x ++ r ∧
        L ≤ (eip2930Payload x ++ r).length ∧ L < 2 ^ 64 ∧ x.data.length < 2 ^ 64 ∧
        payloadLengthVector lengthAccessListEntry x.accessList < 2 ^ 64 ∧ Eip2930Into txn x := by
  simp only [eip2930Decode, bind_eq_ok]
  constructor
  · rintro ⟨⟨list, L⟩, m, hh, h⟩
    cases list with
    | false => simp at h
    | true =>
      obtain ⟨rfl, hL, hlt⟩ := decodeHeader_eq_list.mp hh
      rw [if_neg (by simp)] at h
      simp only [codes_uint64.bind_eq_ok, codes_uint256.bind_eq_ok, codes_accessList.bind_eq_ok,
        codes_toAddress.bind_eq_ok, codes_bytes.bind_eq_ok, codes_bool.bind_eq_ok, pure_apply,
        Outcome.ok.injEq] at h
      -- One field at a time: a single pattern for all of them is slow.
      obtain ⟨chainId, s₁, -, h₁, h⟩ := h
      obtain ⟨nonce, s₂, -, h₂, h⟩ := h
      obtain ⟨gasPrice, s₃, -, h₃, h⟩ := h
      obtain ⟨gasLimit, s₄, -, h₄, h⟩ := h
      obtain ⟨toAddress, s₅, -, h₅, h⟩ := h
      obtain ⟨value, s₆, -, h₆, h⟩ := h
      obtain ⟨data, s₇, hdata, h₇, h⟩ := h
      obtain ⟨accessList, s₈, hlist, h₈, h⟩ := h
      obtain ⟨odd, s₉, -, h₉, h⟩ := h
      obtain ⟨xr, s₁₀, -, h₁₀, xs, s₁₁, -, h₁₁, rfl, hr⟩ := h
      subst hr h₁₁ h₁₀ h₉ h₈ h₇ h₆ h₅ h₄ h₃ h₂ h₁
      refine ⟨L, ?_, ?_, hlt, hdata, hlist, rfl, rfl, rfl⟩
      · simp only [eip2930Payload, encodeCommonFields, List.append_assoc, Option.getD_some]
      · simpa only [eip2930Payload, encodeCommonFields, List.append_assoc, Option.getD_some] using hL
  · rintro ⟨L, rfl, hL, hlt, hdata, hlist, h⟩
    obtain ⟨c, hc⟩ := Option.isSome_iff_exists.mp h.chainId
    refine ⟨⟨true, L⟩, eip2930Payload x ++ r, ?_, ?_⟩
    · rw [decodeHeader_eq_list]
      exact ⟨List.append_assoc .., hL, hlt⟩
    rw [if_neg (by simp)]
    simp only [codes_uint64.bind_eq_ok, codes_uint256.bind_eq_ok, codes_accessList.bind_eq_ok,
      codes_toAddress.bind_eq_ok, codes_bytes.bind_eq_ok, codes_bool.bind_eq_ok, pure_apply,
      Outcome.ok.injEq]
    refine ⟨x.chainId.getD 0, _, trivial, ?_, x.nonce, _, trivial, rfl, x.gasPrice, _, trivial, rfl,
      x.gasLimit, _, trivial, rfl, x.toAddress, _, trivial, rfl, x.value, _, trivial, rfl,
      x.data, _, hdata, rfl, x.accessList, _, hlist, rfl, x.oddYParity, _, trivial, rfl,
      x.r, _, trivial, rfl, x.s, r, trivial, rfl, ?_, rfl⟩
    · simp only [eip2930Payload, encodeCommonFields, List.append_assoc]
    · simp only [hc, Option.getD_some, ← h.type, ← h.sender]
      rw [← hc]

/-- The strings that decoding into `txn` accepts. The length that the list header of an
EIP-2930 transaction announces may be too small. -/
inductive TransactionWord (txn : Transaction) : Bytes → Transaction → Prop
  | legacy (x : Transaction) (into : LegacyInto { txn with type := none } x)
      (size : (legacyPayload x).length < 2 ^ 64) :
      TransactionWord txn (encodeList (legacyPayload x)) x
  | eip2930 (x : Transaction) (L : ℕ)
      (into : Eip2930Into { txn with type := some kEip2930TransactionType } x)
      (announced : L ≤ (eip2930Payload x).length)
      (size : 1 + (encodeHeader ⟨true, L⟩ ++ eip2930Payload x).length < 2 ^ 64) :
      TransactionWord txn (eip2930Word L x) x

theorem TransactionWord.ne_nil {txn x : Transaction} {t : Bytes} (h : TransactionWord txn t x) :
    t ≠ [] := by
  cases h with
  | legacy => exact encodeList_ne_nil _
  | eip2930 => simp [eip2930Word]

theorem length_data_le (x : Transaction) : x.data.length ≤ (encodeCommonFields x).length := by
  simp only [encodeCommonFields, encodeBytes, List.length_append]
  omega

theorem payloadLength_accessList_le (x : Transaction) :
    payloadLengthVector lengthAccessListEntry x.accessList ≤ (eip2930Payload x).length := by
  have hlist := length_encodeVector (v := x.accessList) fun e _ => length_encodeAccessListEntry e
  simp only [eip2930Payload, List.length_append, hlist, lengthVector]
  omega

private theorem length_commonFields_le_eip2930 (x : Transaction) :
    (encodeCommonFields x).length ≤ (eip2930Payload x).length := by
  simp only [eip2930Payload, List.length_append]
  omega

private theorem not_isSingleByte_of_length {s : Bytes} (h : 2 ≤ s.length) :
    ¬isSingleByte s = true := by
  rw [isSingleByte_iff]
  rintro ⟨b, rfl, -⟩
  simp at h

section Arrays

variable {txn : Transaction} {s m : Bytes} {P : ℕ}

private theorem decodeTransactionInto_array
    (hh : decodeHeader s = .ok ⟨false, P⟩ (kEip2930TransactionType :: m)) (hP : 0 < P) :
    decodeTransactionInto txn s = (do
      let x ← within (m.take (P - 1))
        (eip2930Decode { txn with type := some kEip2930TransactionType })
      if x.2 ≠ [] then fail .kListLengthMismatch else
      removePrefix (P - 1)
      pure x.1) m := by
  rw [decodeTransactionInto, bind_of_ok hh, if_neg (by simp), if_neg (by simpa using hP.ne'),
    bind_of_ok (peek_cons _ _), bind_of_ok (removePrefix_one_cons _ _), if_neg (by simp),
    bind_of_ok (substr_apply _ _)]

/-- On an EIP-2718 byte array success means that the decoder of the type takes the whole
rest of the array. -/
theorem decodeTransactionInto_array_eq_ok
    (hh : decodeHeader s = .ok ⟨false, P⟩ (kEip2930TransactionType :: m)) (hP : 0 < P)
    {x : Transaction} {r : Bytes} :
    decodeTransactionInto txn s = .ok x r ↔
      eip2930Decode { txn with type := some kEip2930TransactionType } (m.take (P - 1)) = .ok x [] ∧
        r = m.drop (P - 1) := by
  have hle : P - 1 ≤ m.length := by
    have := (decodeHeader_eq_ok.mp hh).2
    simp only [List.length_cons] at this
    omega
  rw [decodeTransactionInto_array hh hP]
  simp only [bind_eq_ok, within_eq_ok]
  constructor
  · rintro ⟨⟨y, v⟩, _, ⟨hy, rfl⟩, h⟩
    split_ifs at h with hv
    · simp at h
    obtain rfl : v = [] := not_not.mp hv
    simp only [bind_eq_ok, removePrefix_of_le hle, pure_apply, Outcome.ok.injEq] at h
    obtain ⟨_, _, ⟨-, rfl⟩, rfl, rfl⟩ := h
    exact ⟨hy, rfl⟩
  · rintro ⟨hx, rfl⟩
    refine ⟨(x, []), m, ⟨hx, rfl⟩, ?_⟩
    rw [if_neg (by simp)]
    simp [removePrefix_of_le hle]

theorem decodeTransactionInto_array_eq_outOfBounds
    (hh : decodeHeader s = .ok ⟨false, P⟩ (kEip2930TransactionType :: m)) (hP : 0 < P) :
    decodeTransactionInto txn s = .outOfBounds ↔
      eip2930Decode { txn with type := some kEip2930TransactionType } (m.take (P - 1)) =
        .outOfBounds := by
  have hle : P - 1 ≤ m.length := by
    have := (decodeHeader_eq_ok.mp hh).2
    simp only [List.length_cons] at this
    omega
  rw [decodeTransactionInto_array hh hP]
  simp only [bind_eq_outOfBounds, within_eq_outOfBounds, within_eq_ok, or_iff_left_iff_imp]
  rintro ⟨⟨y, v⟩, _, ⟨hy, rfl⟩, h⟩
  split_ifs at h with hv
  · simp at h
  · simp [removePrefix_of_le hle] at h

end Arrays

theorem decodeHeader_wrapped {u r : Bytes} (h2 : 2 ≤ u.length) (hlt : u.length < 2 ^ 64) :
    decodeHeader (encodeHeader ⟨false, u.length⟩ ++ (u ++ r)) = .ok ⟨false, u.length⟩ (u ++ r) := by
  rw [decodeHeader_eq_string, List.take_left, if_neg (not_isSingleByte_of_length h2)]
  exact ⟨rfl, by simp, hlt⟩

/-- A string whose first header is that of a nonempty array with the EIP-2930 type. The
header is not absent, because the array holds at least one more byte. -/
theorem eq_wrapped {s m : Bytes} {P : ℕ}
    (hh : decodeHeader s = .ok ⟨false, P⟩ (kEip2930TransactionType :: m)) (hP : 2 ≤ P) :
    s = encodeHeader ⟨false, P⟩ ++ (kEip2930TransactionType :: (m.take (P - 1) ++ m.drop (P - 1))) ∧
      (m.take (P - 1)).length = P - 1 ∧ P < 2 ^ 64 := by
  obtain ⟨rfl, hle, hlt⟩ := decodeHeader_eq_string.mp hh
  have hlen : ((kEip2930TransactionType :: m).take P).length = P := by simpa using hle
  simp only [List.length_cons] at hle
  rw [if_neg (not_isSingleByte_of_length (by omega)), List.take_append_drop]
  refine ⟨rfl, ?_, hlt⟩
  rw [List.length_take]
  omega

/-- Success and leaving the view both come from one of the two formats. -/
theorem decodeTransactionInto_inv {txn : Transaction} {s : Bytes}
    (h : decodeTransactionInto txn s = .outOfBounds ∨ ∃ x r, decodeTransactionInto txn s = .ok x r) :
    (∃ L m, decodeHeader s = .ok ⟨true, L⟩ m) ∨
      ∃ P m, decodeHeader s = .ok ⟨false, P⟩ (kEip2930TransactionType :: m) ∧ 0 < P := by
  rw [decodeTransactionInto] at h
  cases hh : decodeHeader s with
  | error e r => simp [bind_of_error hh] at h
  | outOfBounds => exact absurd hh (decodeHeader_inBounds s)
  | diverges => simp [bind_apply, hh] at h
  | ok hd m =>
    obtain ⟨list, P⟩ := hd
    cases list with
    | true => exact .inl ⟨P, m, rfl⟩
    | false =>
      rw [bind_of_ok hh, if_neg (by simp)] at h
      have hle := (decodeHeader_eq_ok.mp hh).2
      split_ifs at h with hP
      · simp at h
      cases m with
      | nil => exact absurd (Nat.le_zero.mp hle) hP
      | cons b t =>
        rw [bind_of_ok (peek_cons _ _), bind_of_ok (removePrefix_one_cons _ _)] at h
        split_ifs at h with hb
        · simp at h
        · exact .inr ⟨P, t, by rw [not_not.mp hb], Nat.pos_of_ne_zero hP⟩

theorem decodeTransactionInto_accepts (txn : Transaction) :
    Accepts (decodeTransactionInto txn) (TransactionWord txn) := by
  intro s x r
  constructor
  · intro h
    rcases decodeTransactionInto_inv (.inr ⟨x, r, h⟩) with ⟨L, m, hh⟩ | ⟨P, m, hh, hP⟩
    · rw [decodeTransactionInto, bind_of_ok hh, if_pos rfl, bind_of_ok (remaining_apply _)] at h
      obtain ⟨y, m', hy, h⟩ := bind_eq_ok.mp h
      rw [bind_of_ok (remaining_apply _)] at h
      split_ifs at h with hlen
      · simp only [pure_apply, Outcome.ok.injEq] at h
        obtain ⟨rfl, rfl⟩ := h
        obtain ⟨rfl, hL, hlt⟩ := decodeHeader_eq_list.mp hh
        obtain ⟨rfl, -, hinto⟩ := legacyDecode_eq_ok.mp hy
        simp only [List.length_append] at hL hlen
        obtain rfl : (legacyPayload y).length = L := by omega
        exact ⟨_, .legacy y hinto hlt, by simp [encodeList]⟩
      · simp at h
    · obtain ⟨hx, rfl⟩ := (decodeTransactionInto_array_eq_ok hh hP).mp h
      obtain ⟨L, hview, hL, -, -, -, hinto⟩ := eip2930Decode_eq_ok.mp hx
      rw [List.append_nil] at hview hL
      have h2 : 2 ≤ P := by
        have hpos := List.length_pos_of_ne_nil (encodeHeader_ne_nil ⟨true, L⟩)
        have hlen := congrArg List.length hview
        rw [List.length_append, List.length_take] at hlen
        omega
      obtain ⟨rfl, hlen, hlt⟩ := eq_wrapped hh h2
      rw [hview] at hlen ⊢
      refine ⟨_, .eip2930 x L hinto hL (by omega), ?_⟩
      have hP' : P = (encodeHeader ⟨true, L⟩ ++ eip2930Payload x).length + 1 := by omega
      rw [eip2930Word, List.length_cons, ← hP']
      simp only [List.append_assoc, List.cons_append]
  · rintro ⟨t, ht, rfl⟩
    cases ht with
    | legacy _ hinto hlt =>
      have hh : decodeHeader (encodeList (legacyPayload x) ++ r) =
          .ok ⟨true, (legacyPayload x).length⟩ (legacyPayload x ++ r) :=
        decodeHeader_eq_list.mpr ⟨by simp [encodeList], by simp, hlt⟩
      have hdata : x.data.length < 2 ^ 64 := by
        have := length_data_le x
        simp only [legacyPayload, List.length_append] at hlt
        omega
      rw [decodeTransactionInto, bind_of_ok hh, if_pos rfl, bind_of_ok (remaining_apply _),
        bind_of_ok (legacyDecode_eq_ok.mpr ⟨rfl, hdata, hinto⟩), bind_of_ok (remaining_apply _),
        if_pos (by simp)]
      rfl
    | eip2930 _ L hinto hL hlt =>
      have hdata := length_data_le x
      have hcommon := length_commonFields_le_eip2930 x
      have hlist := payloadLength_accessList_le x
      have hpos := List.length_pos_of_ne_nil (encodeHeader_ne_nil ⟨true, L⟩)
      have hh := decodeHeader_wrapped (r := r)
        (u := kEip2930TransactionType :: (encodeHeader ⟨true, L⟩ ++ eip2930Payload x))
        (by simp only [List.length_cons, List.length_append]; omega)
        (by simp only [List.length_cons]; omega)
      rw [List.length_append] at hlt
      have hdec : eip2930Decode { txn with type := some kEip2930TransactionType }
          (encodeHeader ⟨true, L⟩ ++ eip2930Payload x) = .ok x [] :=
        eip2930Decode_eq_ok.mpr ⟨L, by simp, by simpa using hL, by omega, by omega, by omega, hinto⟩
      rw [eip2930Word, List.append_assoc]
      refine (decodeTransactionInto_array_eq_ok hh (by simp)).mpr ?_
      rw [List.length_cons, Nat.add_sub_cancel]
      exact ⟨by rw [List.append_eq, List.take_left]; exact hdec,
        by rw [List.append_eq, List.drop_left]⟩

/-- Every `v` is packed again as it was, and with it every legacy transaction that was
decoded. A parity and a chain id are found again if the chain id is not too large. -/
theorem v_packs :
    (∀ v, Ecdsa.yParityAndChainIdToV (Ecdsa.vToYParityAndChainId v).odd
      (Ecdsa.vToYParityAndChainId v).chainId = v) ∧
    (∀ (txn : Transaction) v, (txn.setV v).v = v) ∧
    (∀ txn s x r, decodeTransactionInto txn s = .ok x r → x.type = none →
      s = encodeTransaction x ++ r) ∧
    ∀ odd chainId, (∀ c ∈ chainId, 2 * c.toNat + 36 < 2 ^ 256) →
      Ecdsa.vToYParityAndChainId (Ecdsa.yParityAndChainIdToV odd chainId) = ⟨odd, chainId⟩ := by
  refine ⟨Ecdsa.v_of_vToYParityAndChainId, ?_, ?_, fun _ _ => Ecdsa.vToYParityAndChainId_of_v⟩
  · intro txn v
    exact Ecdsa.v_of_vToYParityAndChainId v
  · intro txn s x r h htype
    obtain ⟨t, ht, rfl⟩ := (decodeTransactionInto_accepts txn s x r).mp h
    cases ht with
    | legacy => rw [encodeTransaction_legacy htype]
    | eip2930 _ _ into =>
      -- the other format leaves its own type behind
      have hsome := into.type
      rw [htype] at hsome
      cases hsome

/-- A transaction of the main chain has a `v` of 38, which gives both of its parts again. -/
theorem v_packs_mainChain :
    let txn : Transaction := { nonce := 1, oddYParity := true, chainId := some 1 }
    let s : Bytes := [0xc9, 1, 0x80, 0x80, 0x80, 0x80, 0x80, 38, 0x80, 0x80]
    s = encodeTransaction txn ∧ Ecdsa.vToYParityAndChainId txn.v = ⟨true, some 1⟩ := by
  intro txn s
  have hdecode : decodeTransactionInto {} s = .ok txn [] := by decide
  have hs := v_packs.2.2.1 {} s txn [] hdecode rfl
  rw [List.append_nil] at hs
  refine ⟨hs, v_packs.2.2.2 true (some 1) fun c hc => ?_⟩
  cases hc
  decide

end Rlp
end Silkworm
