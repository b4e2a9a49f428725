import Silkworm.TransactionValidity

/-!
# The execution of transactions and blocks

A transaction buys its gas, runs in the machine, gets unused gas and refunds back and pays the
miner. What the interpreter does in a transaction is given. The buffer is not written to here.
-/

namespace Silkworm

namespace Fee

abbrev kRSelfDestruct : Uint64 := 24000

end Fee

namespace Param

abbrev kEther : Uint64 := 1000000000000000000
abbrev kBlockRewardFrontier : Uint64 := 5 * kEther
abbrev kBlockRewardByzantium : Uint64 := 3 * kEther
abbrev kBlockRewardConstantinople : Uint64 := 2 * kEther
abbrev kMaxRefundQuotientFrontier : Uint64 := 2
abbrev kMaxRefundQuotientLondon : Uint64 := 5

end Param

structure Receipt where
  type : Option UInt8 := none
  success : Bool := false
  cumulativeGasUsed : Uint64 := 0
  bloom : Bloom := default
  logs : List Log := []

section Blooms

variable (keccak : Bytes → Bytes32)

def Bloom.setBit (bloom : Bloom) (bit : ℕ) : Bloom :=
  ⟨bloom.val.modify (kBloomByteLength - 1 - bit / 8) (· ||| 1 <<< UInt8.ofNat (bit % 8)), by
    rw [List.length_modify, bloom.2]⟩

/-- See Section 4.3.1 "Transaction Receipt" of the Yellow Paper. -/
def m32048 (bloom : Bloom) (x : Bytes) : Bloom :=
  let hash := (keccak x).val
  [0, 2, 4].foldl (fun bloom i =>
    Bloom.setBit bloom (((hash.getD (i + 1) 0).toNat + (hash.getD i 0).toNat * 2 ^ 8) % 2 ^ 11)) bloom

def logsBloom (logs : List Log) : Bloom :=
  logs.foldl (fun bloom log =>
    log.topics.foldl (fun bloom topic => m32048 keccak bloom topic.val)
      (m32048 keccak bloom log.address.val)) default

end Blooms

namespace Evm
open IntraBlockState

variable {B : Type} [StateBuffer B] (evm : Config) (db : B)

structure CallResult where
  status : StatusCode
  gasLeft : Uint64
  data : Bytes

def transactionMessage (txn : Transaction) (sender : Address) (gas : Uint64) : Message where
  kind := if txn.toAddress.isNone then .create else .call
  gas := gas.toInt
  destination := txn.toAddress.getD default
  sender
  inputData := txn.data
  value := txn.value

def executeTransaction (txn : Transaction) (sender : Address) (gas : Uint64)
    (interpreter : Interpreter) (m : Machine) : Option (CallResult × Machine) := do
  let message := transactionMessage txn sender gas
  let (res, m) ← if txn.toAddress.isNone then create evm db message interpreter m
    else call evm db message interpreter m
  some (⟨res.statusCode, BitVec.ofInt 64 res.gasLeft, res.outputData⟩, m)

end Evm

/-- What a processor is set up with: the chain and the block, the functions that the machine
needs, and the accounts that the DAO fork moves. -/
structure ExecutionContext where
  config : ChainConfig
  block : Block
  keccak : Bytes → Bytes32
  precompiledGas : ℕ → Bytes → Revision → Uint64
  precompiledRun : ℕ → Bytes → Option Bytes
  daoChildren : List Address
  daoWithdraw : Address

def ExecutionContext.evm (x : ExecutionContext) : Evm.Config where
  revision := x.config.revision x.block.header.number
  keccak := x.keccak
  precompiledGas := x.precompiledGas
  precompiledRun := x.precompiledRun

structure ExecutionProcessor where
  machine : Evm.Machine := {}
  cumulativeGasUsed : Uint64 := 0

namespace ExecutionProcessor
open IntraBlockState

variable {B : Type} [StateBuffer B] (x : ExecutionContext) (db : B)

def state (p : ExecutionProcessor) : IntraBlockState := p.machine.state

def setState (p : ExecutionProcessor) (s : IntraBlockState) : ExecutionProcessor :=
  { p with machine := { p.machine with state := s } }

def availableGas (p : ExecutionProcessor) : Uint64 := x.block.header.gasLimit - p.cumulativeGasUsed

/-- The cost is computed with 512 bits, which are enough. -/
def validateTransaction (txn : Transaction) (p : ExecutionProcessor) :
    ValidationResult × ExecutionProcessor :=
  match txn.sender with
  | none => (.missingSender, p)
  | some sender =>
    let (nonce, s) := getNonce db sender p.state
    if nonce ≠ txn.nonce then (.wrongNonce, p.setState s)
    else
      let (balance, s) := getBalance db sender s
      if balance.toNat < txn.gasLimit.toNat * txn.gasPrice.toNat + txn.value.toNat then
        (.insufficientFunds, p.setState s)
      else if availableGas x p < txn.gasLimit then (.blockGasLimitExceeded, p.setState s)
      else (.ok, p.setState s)

def gasCost (gas : Uint64) (gasPrice : Uint256) : Uint256 := gas.setWidth 256 * gasPrice

def accessEntries (accessList : List AccessListEntry) (s : IntraBlockState) : IntraBlockState :=
  accessList.foldl (fun s ae => ae.storageKeys.foldl (fun s key => (accessStorage ae.account key s).2)
    (accessAccount ae.account s).2) s

/-- What a transaction does before it enters the machine. -/
def buyGas (txn : Transaction) (sender : Address) (s : IntraBlockState) : IntraBlockState :=
  let s := clearJournalAndSubstate s
  let s := (accessAccount sender s).2
  let s := subtractFromBalance db sender (gasCost txn.gasLimit txn.gasPrice) s
  let s := match txn.toAddress with
    | some recipient => setNonce db sender (txn.nonce + 1) (accessAccount recipient s).2
    | none => s
  accessEntries txn.accessList s

/-- The gas that is returned, with refunds. -/
def refundedGas (rev : Revision) (txn : Transaction) (gasLeft : Uint64) (s : IntraBlockState) :
    Uint64 :=
  let refund := if ¬.london ≤ rev then
      s.refund + Fee.kRSelfDestruct * BitVec.ofNat 64 (HashSet.toList s.selfDestructs).length
    else s.refund
  let quotient := if .london ≤ rev then Param.kMaxRefundQuotientLondon
    else Param.kMaxRefundQuotientFrontier
  let maxRefund := (txn.gasLimit - gasLeft) / quotient
  gasLeft + if maxRefund < refund then maxRefund else refund

def refundGas (txn : Transaction) (sender : Address) (gasLeft : Uint64) (s : IntraBlockState) :
    Uint64 × IntraBlockState :=
  let gasLeft := refundedGas x.evm.revision txn gasLeft s
  (gasLeft, addToBalance db sender (gasCost gasLeft txn.gasPrice) s)

/-- The end of a transaction: the destruction of accounts. -/
def cleanUp (s : IntraBlockState) : IntraBlockState :=
  let s := destructSuicides db s
  let s := if .spuriousDragon ≤ x.evm.revision then destructTouchedDead db s else s
  finalizeTransaction s

/-- A transaction without a sender is not executed. -/
def executeTransaction (txn : Transaction) (interpreter : Evm.Interpreter)
    (p : ExecutionProcessor) : Option (Receipt × ExecutionProcessor) := do
  let sender ← txn.sender
  let m := { p.machine with state := buyGas db txn sender p.state }
  let g0 := Validity.intrinsicGasAt x.evm.revision txn
  let (vmRes, m) ← Evm.executeTransaction x.evm db txn sender (txn.gasLimit - g0.setWidth 64)
    interpreter m
  let (gasLeft, s) := refundGas x db txn sender vmRes.gasLeft m.state
  let gasUsed := txn.gasLimit - gasLeft
  let s := addToBalance db x.block.header.beneficiary (gasCost gasUsed txn.gasPrice) s
  let s := cleanUp x db s
  let cumulativeGasUsed := p.cumulativeGasUsed + gasUsed
  some (⟨txn.type, vmRes.status = .success, cumulativeGasUsed, logsBloom x.keccak s.logs, s.logs⟩,
    ⟨{ m with state := s }, cumulativeGasUsed⟩)

def blockReward (rev : Revision) : Uint256 :=
  if .constantinople ≤ rev then Param.kBlockRewardConstantinople.setWidth 256
  else if .byzantium ≤ rev then Param.kBlockRewardByzantium.setWidth 256
  else Param.kBlockRewardFrontier.setWidth 256

def ommerReward (ommer : BlockHeader) : Uint256 :=
  ((8 + ommer.number - x.block.header.number).setWidth 256 * blockReward x.evm.revision) >>> 3

def applyRewards (s : IntraBlockState) : IntraBlockState :=
  let reward := blockReward x.evm.revision
  let (minerReward, s) := x.block.ommers.foldl (fun (minerReward, s) ommer =>
    (minerReward + reward / 32, addToBalance db ommer.beneficiary (ommerReward x ommer) s)) (reward, s)
  addToBalance db x.block.header.beneficiary minerReward s

def transferBalances (s : IntraBlockState) : IntraBlockState :=
  x.daoChildren.foldl (fun s a =>
    let (balance, s) := getBalance db a s
    setBalance db a 0 (addToBalance db x.daoWithdraw balance s)) s

/-- The transactions in turn, the interpreter of each by its index. -/
def executeTransactions (interpreter : ℕ → Evm.Interpreter) :
    List Transaction → ℕ → List Receipt → ExecutionProcessor →
      Option ((List Receipt × ValidationResult) × ExecutionProcessor)
  | [], _, receipts, p => some ((receipts, .ok), p)
  | txn :: txns, i, receipts, p =>
    let (err, p) := validateTransaction x db txn p
    if err ≠ .ok then some ((receipts, err), p)
    else do
      let (receipt, p) ← executeTransaction x db txn (interpreter i) p
      executeTransactions interpreter txns (i + 1) (receipts ++ [receipt]) p

def executeBlock (interpreter : ℕ → Evm.Interpreter) (p : ExecutionProcessor) :
    Option ((List Receipt × ValidationResult) × ExecutionProcessor) := do
  let s := if some x.block.header.number = x.config.daoBlock then transferBalances x db p.state
    else p.state
  let p : ExecutionProcessor := { p.setState s with cumulativeGasUsed := 0 }
  let ((receipts, err), p) ← executeTransactions x db interpreter x.block.transactions 0 [] p
  if err ≠ .ok then some ((receipts, err), p)
  else some ((receipts, .ok), p.setState (applyRewards x db p.state))

theorem cumulativeGasUsed_validateTransaction (txn : Transaction) (p : ExecutionProcessor) :
    (validateTransaction x db txn p).2.cumulativeGasUsed = p.cumulativeGasUsed := by
  unfold validateTransaction
  split
  · rfl
  · dsimp only
    split_ifs <;> rfl

/-- What the checks of a transaction say if it passes all of them. -/
theorem validateTransaction_eq_ok {x : ExecutionContext} {db : B} {txn : Transaction}
    {p p' : ExecutionProcessor} (h : validateTransaction x db txn p = (.ok, p')) :
    ∃ sender, txn.sender = some sender ∧ (getNonce db sender p.state).1 = txn.nonce ∧
      txn.gasLimit.toNat * txn.gasPrice.toNat + txn.value.toNat ≤
        (getBalance db sender (getNonce db sender p.state).2).1.toNat ∧
      txn.gasLimit.toNat ≤ (availableGas x p).toNat ∧
      p' = p.setState (getBalance db sender (getNonce db sender p.state).2).2 := by
  unfold validateTransaction at h
  cases hsender : txn.sender with
  | none =>
    rw [hsender] at h
    cases h
  | some sender =>
    rw [hsender] at h
    dsimp only at h
    split_ifs at h with hnonce hbalance hgas
    all_goals cases h
    exact ⟨sender, rfl, not_not.mp hnonce, Nat.not_lt.mp hbalance, Nat.not_lt.mp hgas, rfl⟩

end ExecutionProcessor
end Silkworm
