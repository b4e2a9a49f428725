import Silkworm.BlockCodec

/-!
# Canonicity of the consensus objects

Access list entries and block headers are accepted in one form only. A transaction is
accepted in a second form when its list header announces too few bytes, and a block body
when it contains such a transaction.
-/

namespace Silkworm.Rlp
open BigEndian ViewParsers

/-- What is decoded at the start of a string is the encoding of the value. Then no other
such string gives the same value, and hashes of the value agree with hashes of the string. -/
structure CanonicalAt {α : Type} (decode : Decoder α) (encode : α → Bytes) (s : Bytes) : Prop where
  bytes : ∀ x r, decode s = .ok x r → s = encode x ++ r
  unique : ∀ s' x r, (∀ y q, decode s' = .ok y q → s' = encode y ++ q) →
    decode s = .ok x r → decode s' = .ok x r → s' = s
  hash : ∀ (keccak : Bytes → Bytes32) x r, decode s = .ok x r →
    keccak (encode x) = keccak (s.take (s.length - r.length))

theorem canonicalAt_iff {α : Type} {decode : Decoder α} {encode : α → Bytes} {s : Bytes} :
    CanonicalAt decode encode s ↔ ∀ x r, decode s = .ok x r → s = encode x ++ r := by
  refine ⟨CanonicalAt.bytes, fun h => ⟨h, fun s' x r h' hs hs' => ?_, fun keccak x r hs => ?_⟩⟩
  · rw [h x r hs, h' x r hs']
  · have hlen := congrArg List.length (h x r hs)
    rw [List.length_append] at hlen
    rw [hlen, Nat.add_sub_cancel, h x r hs, List.take_left]

theorem Codes.canonicalAt {α : Type} {p : Decoder α} {encode : α → Bytes} {small : α → Prop}
    (h : Codes p encode small) (s : Bytes) : CanonicalAt p encode s :=
  canonicalAt_iff.mpr fun _ _ hs => (h.eq_ok.mp hs).2

theorem length_bigEndian_mono {a b : ℕ} (h : a ≤ b) :
    (bigEndian a).length ≤ (bigEndian b).length :=
  length_bigEndian_le.mpr (lt_of_le_of_lt h (length_bigEndian_le.mp le_rfl))

theorem lengthOfLength_mono {a b : ℕ} (h : a ≤ b) : lengthOfLength a ≤ lengthOfLength b := by
  have := length_bigEndian_mono h
  simp only [lengthOfLength]
  split_ifs <;> omega

/-- A string with a header of its length is determined by the whole. -/
private theorem prependHeader_injective {list : Bool} {a b : Bytes}
    (h : encodeHeader ⟨list, a.length⟩ ++ a = encodeHeader ⟨list, b.length⟩ ++ b) : a = b := by
  have hlen := congrArg List.length h
  simp only [List.length_append, length_encodeHeader] at hlen
  have heq : a.length = b.length := by
    rcases Nat.lt_trichotomy a.length b.length with hlt | heq | hlt
    · have := lengthOfLength_mono hlt.le
      omega
    · exact heq
    · have := lengthOfLength_mono hlt.le
      omega
  rw [heq] at h
  exact List.append_cancel_left h

theorem encodeList_injective {a b : Bytes} (h : encodeList a = encodeList b) : a = b :=
  prependHeader_injective h

theorem encodeHeader_injective {a b : ℕ} (h : encodeHeader ⟨true, a⟩ = encodeHeader ⟨true, b⟩) :
    a = b := by
  have hlen := congrArg List.length h
  simp only [length_encodeHeader, lengthOfLength] at hlen
  have hpos {n : ℕ} (hn : ¬n < 56) : 0 < (bigEndian n).length :=
    lt_length_bigEndian.mpr (by omega)
  by_cases ha : a < 56
  · by_cases hb : b < 56
    · rw [encodeHeader_short ha, encodeHeader_short hb] at h
      have hbyte := congrArg UInt8.toNat (List.singleton_inj.mp h)
      rw [toNat_byte (by simp; omega), toNat_byte (by simp; omega)] at hbyte
      omega
    · have := hpos hb
      simp only [ha, hb, ↓reduceIte] at hlen
      omega
  · by_cases hb : b < 56
    · have := hpos ha
      simp only [ha, hb, ↓reduceIte] at hlen
      omega
    · rw [encodeHeader_long (by omega), encodeHeader_long (by omega)] at h
      exact bigEndian_injective (List.cons.inj h).2

/-- An EIP-2930 transaction whose list header announces fewer bytes than its fields take. -/
structure ShortListWord (w : Bytes) (x : Transaction) (L : ℕ) : Prop where
  type : x.type = some kEip2930TransactionType
  chainId : x.chainId.isSome
  announced : L < (eip2930Payload x).length
  size : 1 + (encodeHeader ⟨true, L⟩ ++ eip2930Payload x).length < 2 ^ 64
  word : w = eip2930Word L x

theorem eip2930Word_injective {L L' : ℕ} {x : Transaction} (h : eip2930Word L x = eip2930Word L' x) :
    L = L' := by
  have hser := (List.cons.inj (prependHeader_injective h)).2
  exact encodeHeader_injective (List.append_cancel_right hser)

theorem TransactionWord.length_le {txn x : Transaction} {t : Bytes} (h : TransactionWord txn t x) :
    t.length ≤ (encodeTransaction x).length := by
  cases h with
  | legacy _ hinto => rw [encodeTransaction_legacy hinto.type]
  | eip2930 _ L hinto hL =>
    rw [encodeTransaction_eip2930 hinto.type]
    have hlen := lengthOfLength_mono hL
    simp only [eip2930Word, List.length_append, List.length_cons, length_encodeHeader]
    have hwrap := lengthOfLength_mono
      (show lengthOfLength L + (eip2930Payload x).length + 1 ≤
        lengthOfLength (eip2930Payload x).length + (eip2930Payload x).length + 1 by omega)
    omega

theorem TransactionWord.eq_or_short {txn x : Transaction} {t : Bytes} (h : TransactionWord txn t x) :
    t = encodeTransaction x ∨ ∃ L, ShortListWord t x L := by
  cases h with
  | legacy _ hinto => exact .inl (encodeTransaction_legacy hinto.type).symm
  | eip2930 _ L hinto hL hlt =>
    rcases Nat.eq_or_lt_of_le hL with rfl | hL
    · exact .inl (encodeTransaction_eip2930 hinto.type).symm
    · exact .inr ⟨L, hinto.type, hinto.chainId, hL, hlt, rfl⟩

theorem ShortListWord.word_into {w : Bytes} {x : Transaction} {L : ℕ} (h : ShortListWord w x L)
    (txn : Transaction) : TransactionWord txn w { x with sender := txn.sender } := by
  rw [h.word]
  exact .eip2930 { x with sender := txn.sender } L ⟨h.type, rfl, h.chainId⟩ h.announced.le h.size

theorem ShortListWord.ne_encode {w : Bytes} {x : Transaction} {L : ℕ} (h : ShortListWord w x L)
    (txn : Transaction) : w ≠ encodeTransaction { x with sender := txn.sender } := by
  intro heq
  have hx : encodeTransaction { x with sender := txn.sender } =
      eip2930Word (eip2930Payload x).length x :=
    encodeTransaction_eip2930 (x := { x with sender := txn.sender }) h.type
  rw [hx, h.word] at heq
  have := eip2930Word_injective heq
  have := h.announced
  omega

theorem transaction_canonicalAt_iff {txn : Transaction} {s : Bytes} :
    CanonicalAt (decodeTransactionInto txn) encodeTransaction s ↔
      ¬∃ w x L r, ShortListWord w x L ∧ s = w ++ r := by
  rw [canonicalAt_iff]
  constructor
  · rintro h ⟨w, x, L, r, hw, rfl⟩
    have hdec := (decodeTransactionInto_accepts txn).ok (hw.word_into txn) r
    exact hw.ne_encode txn (List.append_cancel_right (h _ _ hdec))
  · intro h x r hs
    obtain ⟨t, ht, rfl⟩ := (decodeTransactionInto_accepts txn _ _ _).mp hs
    rcases ht.eq_or_short with rfl | ⟨L, hL⟩
    · rfl
    · exact absurd ⟨t, x, L, r, hL, rfl⟩ h

/-- Of the words of some transactions either all are canonical or one has a short list. -/
theorem words_eq_or_short {u : Bytes} {txns : List Transaction}
    (h : Words (TransactionWord {}) u txns) :
    u = (txns.map encodeTransaction).flatten ∨
      ∃ t xs w x L v ys, Words (TransactionWord {}) t xs ∧ ShortListWord w x L ∧
        Words (TransactionWord {}) v ys ∧ u = t ++ w ++ v := by
  induction txns generalizing u with
  | nil => exact .inl (words_nil_iff.mp h)
  | cons a as ih =>
    obtain ⟨c, v, hc, hv, rfl⟩ := words_cons_iff.mp h
    rcases hc.eq_or_short with rfl | ⟨L, hL⟩
    · rcases ih hv with rfl | ⟨t, xs, w, x, L, v', ys, ht, hw, hv', rfl⟩
      · exact .inl rfl
      · refine .inr ⟨_, a :: xs, w, x, L, v', ys, .cons hc ht, hw, hv', ?_⟩
        simp only [List.append_assoc]
    · exact .inr ⟨[], [], c, a, L, v, as, .nil _, hL, hv, rfl⟩

/-- A body one of whose transactions is a short-list word. -/
def ShortListBody (s : Bytes) : Prop :=
  ∃ t xs w x L v ys ommers r, Words (TransactionWord {}) t xs ∧ ShortListWord w x L ∧
    Words (TransactionWord {}) v ys ∧
    (encodeList (t ++ w ++ v) ++ encodeVector lengthBlockHeader encodeBlockHeader ommers).length
      < 2 ^ 64 ∧
    s = encodeList (encodeList (t ++ w ++ v) ++
      encodeVector lengthBlockHeader encodeBlockHeader ommers) ++ r

theorem words_forall_type {u : Bytes} {txns : List Transaction}
    (h : Words (TransactionWord {}) u txns) :
    ∀ x ∈ txns, x.type = none ∨ x.type = some kEip2930TransactionType := by
  induction txns generalizing u with
  | nil => simp
  | cons a as ih =>
    obtain ⟨c, v, hc, hv, rfl⟩ := words_cons_iff.mp h
    exact List.forall_mem_cons.mpr ⟨hc.type_eq, ih hv⟩

/-- Lengths do not leave room for one word to be shorter than its canonical form. -/
private theorem word_eq_of_flatten {t w v : Bytes} {xs ys : List Transaction} {x : Transaction}
    (ht : Words (TransactionWord {}) t xs) (hw : TransactionWord {} w x)
    (hv : Words (TransactionWord {}) v ys)
    (h : t ++ w ++ v = ((xs ++ x :: ys).map encodeTransaction).flatten) :
    w = encodeTransaction x := by
  have hlt := ht.length_le (f := encodeTransaction) fun _ _ h => h.length_le
  have hlv := hv.length_le (f := encodeTransaction) fun _ _ h => h.length_le
  have hlw := hw.length_le
  rw [List.map_append, List.map_cons, List.flatten_append, List.flatten_cons,
    ← List.append_assoc] at h
  have hlen := congrArg List.length h
  simp only [List.length_append] at hlen
  have h' := (List.append_inj h (by simp only [List.length_append]; omega)).1
  exact (List.append_inj h' (by omega)).2

theorem blockBody_canonicalAt_iff {s : Bytes} :
    CanonicalAt decodeBlockBody encodeBlockBody s ↔ ¬ShortListBody s := by
  rw [canonicalAt_iff]
  constructor
  · rintro h ⟨t, xs, w, x, L, v, ys, ommers, r, ht, hw, hv, hlt, rfl⟩
    have hword := hw.word_into {}
    have hall := ht.append (.cons hword hv)
    rw [← List.append_assoc] at hall
    have hdec := decodeBlockBody_accepts.ok (a := ⟨xs ++ _ :: ys, ommers⟩) ⟨_, hall, hlt, rfl⟩ r
    have heq := List.append_cancel_right (h _ _ hdec)
    rw [encodeBlockBody_eq (words_forall_type hall)] at heq
    have hflat := encodeList_injective (List.append_cancel_right (encodeList_injective heq))
    exact hw.ne_encode {} (word_eq_of_flatten ht hword hv hflat)
  · intro h body r hs
    obtain ⟨_, ⟨u, hu, hlt, rfl⟩, rfl⟩ := (decodeBlockBody_accepts _ _ _).mp hs
    rcases words_eq_or_short hu with rfl | ⟨t, xs, w, x, L, v, ys, ht, hw, hv, rfl⟩
    · rw [encodeBlockBody_eq (words_forall_type hu)]
    · exact absurd ⟨t, xs, w, x, L, v, ys, body.ommers, r, ht, hw, hv, hlt, rfl⟩ h

/-- The decoders are canonical except for lists that announce too few bytes in an EIP-2930
transaction. -/
theorem decode_canonical_iff (txn : Transaction) (s : Bytes) :
    CanonicalAt decodeAccessListEntry encodeAccessListEntry s ∧
    CanonicalAt decodeBlockHeader encodeBlockHeader s ∧
    (CanonicalAt (decodeTransactionInto txn) encodeTransaction s ↔
      ¬∃ w x L r, ShortListWord w x L ∧ s = w ++ r) ∧
    (CanonicalAt decodeBlockBody encodeBlockBody s ↔ ¬ShortListBody s) :=
  ⟨codes_accessListEntry.canonicalAt s, codes_blockHeader.canonicalAt s,
    transaction_canonicalAt_iff, blockBody_canonicalAt_iff⟩

/-- The list header announces no bytes although eleven follow. -/
theorem decodeTransaction_not_canonical :
    ¬∀ s x r, decodeTransaction s = .ok x r → s = encodeTransaction x ++ r := by
  intro h
  have := h [0x8D, 0x01, 0xC0, 0x80, 0x80, 0x80, 0x80, 0x80, 0x80, 0x80, 0xC0, 0x80, 0x80, 0x80]
    { type := some 1, chainId := some 0 } [] (by decide)
  revert this
  decide

end Silkworm.Rlp
