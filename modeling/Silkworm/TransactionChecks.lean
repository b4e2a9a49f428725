import Silkworm.TransactionValidity

/-!
# What the checks of a transaction accept

The gas is computed in words of 128 bits, which hold it for every transaction in memory. The
range check of the signature lets a single component that is too large through.
-/

namespace Silkworm
namespace Validity

section IntrinsicGas

/-- The intrinsic gas, as a number. -/
def exactIntrinsicGas (rev : Revision) (txn : Transaction) : ℕ :=
  21000 + (if txn.toAddress = none ∧ .homestead ≤ rev then 32000 else 0) +
    2400 * txn.accessList.length +
    1900 * (txn.accessList.map fun e => e.storageKeys.length).sum +
    (if .istanbul ≤ rev then 16 else 68) * txn.data.countP (· ≠ 0) +
    4 * txn.data.countP (· = 0)

/-- A transaction in memory: the number of its bytes, addresses and keys is a `size_t`. -/
structure StoredTransaction where
  txn : Transaction
  length_lt : txn.data.length + txn.accessList.length +
    (txn.accessList.map fun e => e.storageKeys.length).sum < 2 ^ 64

theorem foldl_storageKeys (accessList : List AccessListEntry) (gas : ℕ) :
    accessList.foldl (fun gas e => gas +
        BitVec.ofNat 128 e.storageKeys.length * Fee.kAccessListStorageKeyCost.setWidth 128)
      (BitVec.ofNat 128 gas) =
    BitVec.ofNat 128 (gas + 1900 * (accessList.map fun e => e.storageKeys.length).sum) := by
  induction accessList generalizing gas with
  | nil => simp
  | cons e accessList ih =>
    have hcost : Fee.kAccessListStorageKeyCost.setWidth 128 = BitVec.ofNat 128 1900 := rfl
    rw [List.foldl_cons, hcost, ← BitVec.ofNat_mul, ← BitVec.ofNat_add]
    rw [hcost] at ih
    rw [ih, List.map_cons, List.sum_cons]
    congr 1
    ring

theorem ofNat_length_sub_countP (data : Bytes) :
    BitVec.ofNat 128 data.length - BitVec.ofNat 128 (data.countP (· ≠ 0)) =
      BitVec.ofNat 128 (data.countP (· = 0)) := by
  have hsplit := List.length_eq_countP_add_countP (fun b : UInt8 => decide (b ≠ 0)) (l := data)
  have hzero : data.countP (fun b => ¬(decide (b ≠ 0)) = true) = data.countP (· = 0) := by
    congr 1
    funext b
    simp
  rw [hzero] at hsplit
  rw [hsplit, BitVec.ofNat_add, BitVec.add_comm, BitVec.add_sub_cancel]

theorem intrinsicGasAt_eq_ofNat (rev : Revision) (txn : Transaction) :
    intrinsicGasAt rev txn = BitVec.ofNat 128 (exactIntrinsicGas rev txn) := by
  have hstart : (if txn.toAddress.isNone ∧ decide (.homestead ≤ rev) then
      Fee.kGTransaction.setWidth 128 + Fee.kGTxCreate.setWidth 128
      else Fee.kGTransaction.setWidth 128) =
      BitVec.ofNat 128 (21000 + if txn.toAddress = none ∧ .homestead ≤ rev then 32000 else 0) := by
    by_cases h : txn.toAddress = none ∧ Revision.homestead ≤ rev
    · rw [if_pos (by simpa using h), if_pos h]
      rfl
    · rw [if_neg (by simpa using h), if_neg h]
      rfl
  have haddress : Fee.kAccessListAddressCost.setWidth 128 = BitVec.ofNat 128 2400 := rfl
  have hzero : Fee.kGTxDataZero.setWidth 128 = BitVec.ofNat 128 4 := rfl
  have hnonZero : (if decide (.istanbul ≤ rev) = true then Fee.kGTxDataNonZeroIstanbul
      else Fee.kGTxDataNonZeroFrontier).setWidth 128 =
      BitVec.ofNat 128 (if .istanbul ≤ rev then 16 else 68) := by
    by_cases h : Revision.istanbul ≤ rev
    · rw [if_pos (by simpa using h), if_pos h]
      rfl
    · rw [if_neg (by simpa using h), if_neg h]
      rfl
  rw [intrinsicGasAt, intrinsicGas]
  simp only [hstart, haddress, ← BitVec.ofNat_mul, ← BitVec.ofNat_add, foldl_storageKeys]
  by_cases hdata : txn.data = []
  · rw [if_pos hdata, exactIntrinsicGas, hdata]
    congr 1
    simp
    ring
  · rw [if_neg hdata, hnonZero, ofNat_length_sub_countP, hzero, ← BitVec.ofNat_mul,
      ← BitVec.ofNat_mul, ← BitVec.ofNat_add, ← BitVec.ofNat_add, exactIntrinsicGas]
    congr 1
    ring

theorem exactIntrinsicGas_lt (rev : Revision) (t : StoredTransaction) :
    exactIntrinsicGas rev t.txn < 2 ^ 128 := by
  have hlt := t.length_lt
  have hnonZero := List.countP_le_length (p := fun b : UInt8 => decide (b ≠ 0)) (l := t.txn.data)
  have hzero := List.countP_le_length (p := fun b : UInt8 => decide (b = 0)) (l := t.txn.data)
  have hprice : (if Revision.istanbul ≤ rev then 16 else 68) * t.txn.data.countP (· ≠ 0) ≤
      68 * t.txn.data.countP (· ≠ 0) := by
    apply Nat.mul_le_mul_right
    split <;> decide
  have hcreate : (if t.txn.toAddress = none ∧ Revision.homestead ≤ rev then 32000 else 0) ≤
      32000 := by
    split <;> decide
  rw [exactIntrinsicGas]
  omega

/-- No sum or product of the gas wraps. -/
theorem toNat_intrinsicGasAt (rev : Revision) (t : StoredTransaction) :
    (intrinsicGasAt rev t.txn).toNat = exactIntrinsicGas rev t.txn := by
  rw [intrinsicGasAt_eq_ofNat, BitVec.toNat_ofNat, Nat.mod_eq_of_lt (exactIntrinsicGas_lt rev t)]

end IntrinsicGas

section Checks

variable (config : ChainConfig) (blockNumber : Uint64) (txn : Transaction)

def ChainIdAllowed : Prop :=
  txn.chainId = none ∨
    (.spuriousDragon ≤ config.revision blockNumber ∧
      txn.chainId = some (config.chainId.setWidth 256))

def TypeAllowed : Prop :=
  txn.type = none ∨ (.berlin ≤ config.revision blockNumber ∧ txn.type = some 1)

/-- Both components are below the order of the curve, and from Homestead on `s` is in the lower
half. -/
def SignatureInRange : Prop :=
  0 < txn.r ∧ txn.r < Ecdsa.kSecp256k1n ∧ 0 < txn.s ∧ txn.s < Ecdsa.kSecp256k1n ∧
    (.homestead ≤ config.revision blockNumber → txn.s.toNat ≤ Ecdsa.kSecp256k1n.toNat / 2)

/-- Exactly one of the two components is too large, and `s` is not in the upper half from
Homestead on. -/
def OneComponentTooLarge : Prop :=
  (Ecdsa.kSecp256k1n ≤ txn.r ∧ 0 < txn.s ∧ txn.s < Ecdsa.kSecp256k1n ∧
    (.homestead ≤ config.revision blockNumber → txn.s.toNat ≤ Ecdsa.kSecp256k1n.toNat / 2)) ∨
  (Ecdsa.kSecp256k1n ≤ txn.s ∧ 0 < txn.r ∧ txn.r < Ecdsa.kSecp256k1n ∧
    ¬.homestead ≤ config.revision blockNumber)

def GasSuffices : Prop :=
  exactIntrinsicGas (config.revision blockNumber) txn ≤ txn.gasLimit.toNat

/-- The transactions that the protocol allows in the block. -/
structure Allowed : Prop where
  chainId : ChainIdAllowed config blockNumber txn
  type : TypeAllowed config blockNumber txn
  signature : SignatureInRange config blockNumber txn
  gas : GasSuffices config blockNumber txn

theorem isValidSignature_eq_true {r s : Uint256} {homestead : Bool} :
    Ecdsa.isValidSignature r s homestead = true ↔
      (r ≠ 0 ∧ s ≠ 0) ∧ ¬(Ecdsa.kSecp256k1n ≤ r ∧ Ecdsa.kSecp256k1n ≤ s) ∧
        ¬(homestead = true ∧ Ecdsa.kSecp256k1Halfn < s) := by
  rw [Ecdsa.isValidSignature]
  constructor
  · intro h
    split_ifs at h with hzero hrange hhalf
    exact ⟨not_or.mp hzero, hrange, hhalf⟩
  · intro ⟨hzero, hrange, hhalf⟩
    rw [if_neg (not_or.mpr ⟨hzero.1, hzero.2⟩), if_neg hrange, if_neg hhalf]

theorem isValidSignature_iff :
    Ecdsa.isValidSignature txn.r txn.s (.homestead ≤ config.revision blockNumber) = true ↔
      SignatureInRange config blockNumber txn ∨ OneComponentTooLarge config blockNumber txn := by
  have hhalf : Ecdsa.kSecp256k1Halfn.toNat = Ecdsa.kSecp256k1n.toNat / 2 := by decide
  have hzero : (0 : Uint256).toNat = 0 := rfl
  simp only [isValidSignature_eq_true, SignatureInRange, OneComponentTooLarge, BitVec.lt_def,
    BitVec.le_def, hhalf, hzero, ne_eq, ← BitVec.toNat_inj, decide_eq_true_eq]
  by_cases hhomestead : Revision.homestead ≤ config.revision blockNumber
  · simp only [hhomestead, true_and, forall_const, not_true, and_false, or_false]
    omega
  · simp only [hhomestead, false_and, false_imp_iff, not_false_iff, and_true]
    omega

theorem not_signatureInRange_of_oneComponentTooLarge
    (h : OneComponentTooLarge config blockNumber txn) :
    ¬SignatureInRange config blockNumber txn := by
  intro hrange
  obtain ⟨-, hr, -, hs, -⟩ := hrange
  obtain hlarge | hlarge := h
  · exact BitVec.not_le.mpr hr hlarge.1
  · exact BitVec.not_le.mpr hs hlarge.1

end Checks

variable (config : ChainConfig) (blockNumber : Uint64) (t : StoredTransaction)

theorem lt_intrinsicGasAt_iff :
    t.txn.gasLimit.setWidth 128 < intrinsicGasAt (config.revision blockNumber) t.txn ↔
      ¬GasSuffices config blockNumber t.txn := by
  have hlimit : t.txn.gasLimit.toNat < 2 ^ 128 := t.txn.gasLimit.isLt.trans (by norm_num)
  rw [BitVec.lt_def, toNat_intrinsicGasAt, BitVec.toNat_setWidth, Nat.mod_eq_of_lt hlimit,
    GasSuffices, not_le]

theorem preValidateTransaction_eq_ok :
    preValidateTransaction t.txn blockNumber config = .ok ↔
      ChainIdAllowed config blockNumber t.txn ∧ TypeAllowed config blockNumber t.txn ∧
        (SignatureInRange config blockNumber t.txn ∨
          OneComponentTooLarge config blockNumber t.txn) ∧
        GasSuffices config blockNumber t.txn := by
  rw [← isValidSignature_iff, preValidateTransaction]
  have hchain : (t.txn.chainId.isSome ∧ (¬.spuriousDragon ≤ config.revision blockNumber ∨
      t.txn.chainId ≠ some (config.chainId.setWidth 256))) ↔
      ¬ChainIdAllowed config blockNumber t.txn := by
    rw [ChainIdAllowed, Option.isSome_iff_ne_none]
    tauto
  have htype : (t.txn.type.isSome ∧ (¬.berlin ≤ config.revision blockNumber ∨
      t.txn.type ≠ some kEip2930TransactionType)) ↔ ¬TypeAllowed config blockNumber t.txn := by
    rw [TypeAllowed, Option.isSome_iff_ne_none, kEip2930TransactionType]
    tauto
  have hgas := lt_intrinsicGasAt_iff config blockNumber t
  constructor
  · intro h
    split_ifs at h with h₁ h₂ h₃ h₄
    exact ⟨not_not.mp (mt hchain.mpr h₁), not_not.mp (mt htype.mpr h₂), h₃,
      not_not.mp (mt hgas.mpr h₄)⟩
  · intro ⟨h₁, h₂, h₃, h₄⟩
    rw [if_neg fun h => hchain.mp h h₁, if_neg fun h => htype.mp h h₂, if_neg (not_not.mpr h₃),
      if_neg fun h => hgas.mp h h₄]

/-- The transactions that pass are the ones allowed, up to the signatures with one component
that is too large. -/
theorem preValidateTransaction_exact :
    (preValidateTransaction t.txn blockNumber config = .ok ↔ Allowed config blockNumber t.txn) ↔
      ¬(ChainIdAllowed config blockNumber t.txn ∧ TypeAllowed config blockNumber t.txn ∧
        OneComponentTooLarge config blockNumber t.txn ∧ GasSuffices config blockNumber t.txn) := by
  have hallowed : Allowed config blockNumber t.txn ↔
      ChainIdAllowed config blockNumber t.txn ∧ TypeAllowed config blockNumber t.txn ∧
        SignatureInRange config blockNumber t.txn ∧ GasSuffices config blockNumber t.txn :=
    ⟨fun h => ⟨h.chainId, h.type, h.signature, h.gas⟩, fun h => ⟨h.1, h.2.1, h.2.2.1, h.2.2.2⟩⟩
  have hexclusive := not_signatureInRange_of_oneComponentTooLarge config blockNumber t.txn
  rw [preValidateTransaction_eq_ok, hallowed]
  tauto

/-- A transfer whose `r` is the order of the curve. -/
def overflowingTransfer : StoredTransaction where
  txn := { toAddress := some (FixedBytes.replicate 20 0), gasLimit := 21000,
           r := Ecdsa.kSecp256k1n, s := 1 }
  length_lt := by decide

theorem not_preValidateTransaction_exact :
    ¬∀ (config : ChainConfig) (blockNumber : Uint64) (t : StoredTransaction),
      preValidateTransaction t.txn blockNumber config = .ok ↔ Allowed config blockNumber t.txn := by
  intro h
  have hrange := ((h {} 0 overflowingTransfer).mp (by decide)).signature
  exact BitVec.lt_irrefl _ hrange.2.1

end Validity
end Silkworm
