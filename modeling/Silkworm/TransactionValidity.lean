import Silkworm.Evm
import Silkworm.Validity

/-!
# Validity of transactions

The forks of a chain, the gas that a transaction costs before it is executed, and the checks of
a transaction that need no state.
-/

namespace Silkworm

/-- The seal engine and the Muir Glacier block only matter for headers. -/
structure ChainConfig where
  chainId : Uint64 := 0
  forkBlock : Revision → Option Uint64 := fun _ => none
  daoBlock : Option Uint64 := none

namespace ChainConfig

/-- The revisions that have a fork block, the latest first. -/
def forks : List Revision :=
  [.shanghai, .london, .berlin, .istanbul, .petersburg, .constantinople, .byzantium,
    .spuriousDragon, .tangerineWhistle, .homestead]

def revision (config : ChainConfig) (blockNumber : Uint64) : Revision :=
  (forks.find? fun rev => match config.forkBlock rev with
    | some n => n ≤ blockNumber
    | none => false).getD .frontier

end ChainConfig

namespace Fee

abbrev kAccessListAddressCost : Uint64 := 2400
abbrev kGTxCreate : Uint64 := 32000
abbrev kGTxDataZero : Uint64 := 4
abbrev kGTxDataNonZeroFrontier : Uint64 := 68
abbrev kGTxDataNonZeroIstanbul : Uint64 := 16
abbrev kGTransaction : Uint64 := 21000

end Fee

abbrev Uint128 := BitVec 128

def intrinsicGas (txn : Transaction) (homestead istanbul : Bool) : Uint128 :=
  let gas : Uint128 := Fee.kGTransaction.setWidth 128
  let gas := if txn.toAddress.isNone ∧ homestead then gas + Fee.kGTxCreate.setWidth 128 else gas
  let gas := gas + BitVec.ofNat 128 txn.accessList.length * Fee.kAccessListAddressCost.setWidth 128
  let gas := txn.accessList.foldl (fun gas e =>
    gas + BitVec.ofNat 128 e.storageKeys.length * Fee.kAccessListStorageKeyCost.setWidth 128) gas
  if txn.data = [] then gas
  else
    let nonZeroBytes : Uint128 := BitVec.ofNat 128 (txn.data.countP (· ≠ 0))
    let nonZeroGas := if istanbul then Fee.kGTxDataNonZeroIstanbul else Fee.kGTxDataNonZeroFrontier
    let gas := gas + nonZeroBytes * nonZeroGas.setWidth 128
    let zeroBytes : Uint128 := BitVec.ofNat 128 txn.data.length - nonZeroBytes
    gas + zeroBytes * Fee.kGTxDataZero.setWidth 128

namespace Ecdsa

def kSecp256k1n : Uint256 := 0xfffffffffffffffffffffffffffffffebaaedce6af48a03bbfd25e8cd0364141

def kSecp256k1Halfn : Uint256 := kSecp256k1n >>> 1

def isValidSignature (r s : Uint256) (homestead : Bool) : Bool :=
  if r = 0 ∨ s = 0 then false
  else if kSecp256k1n ≤ r ∧ kSecp256k1n ≤ s then false
  else if homestead ∧ kSecp256k1Halfn < s then false
  else true

end Ecdsa

namespace Validity

def intrinsicGasAt (rev : Revision) (txn : Transaction) : Uint128 :=
  intrinsicGas txn (.homestead ≤ rev) (.istanbul ≤ rev)

def preValidateTransaction (txn : Transaction) (blockNumber : Uint64) (config : ChainConfig) :
    ValidationResult :=
  let rev := config.revision blockNumber
  if txn.chainId.isSome ∧ (¬.spuriousDragon ≤ rev ∨ txn.chainId ≠ some (config.chainId.setWidth 256))
  then .wrongChainId
  else if txn.type.isSome ∧ (¬.berlin ≤ rev ∨ txn.type ≠ some kEip2930TransactionType) then
    .unsupportedEip2718Type
  else if ¬Ecdsa.isValidSignature txn.r txn.s (.homestead ≤ rev) then .invalidSignature
  else if txn.gasLimit.setWidth 128 < intrinsicGasAt rev txn then .intrinsicGas
  else .ok

/-- The rules of a chain with its checks of transactions. -/
def checking (config : ChainConfig) (rules : ChainRules) : ChainRules :=
  { rules with
    preValidateTransaction := fun txn blockNumber => preValidateTransaction txn blockNumber config }

/-- An accepted transaction pays for its intrinsic gas. -/
theorem intrinsicGas_le_of_preValidateTransaction {txn : Transaction} {blockNumber : Uint64}
    {config : ChainConfig} (h : preValidateTransaction txn blockNumber config = .ok) :
    (intrinsicGasAt (config.revision blockNumber) txn).toNat ≤ txn.gasLimit.toNat := by
  unfold preValidateTransaction at h
  dsimp only at h
  split_ifs at h with _ _ _ hgas
  rw [BitVec.not_lt, BitVec.le_def, BitVec.toNat_setWidth] at hgas
  exact hgas.trans (Nat.mod_le _ _)

end Validity
end Silkworm
