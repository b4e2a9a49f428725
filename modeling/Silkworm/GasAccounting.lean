import Silkworm.Ommers
import Silkworm.WatchedExecution

/-!
# Gas accounting

The gas of a transaction is bought before it enters the machine and partly returned afterwards,
in unchecked arithmetic. An interpreter that returns no more gas than it got keeps every
difference and sum within its width, and the gas used in a block within its limit.
-/

namespace Silkworm

namespace Evm
open IntraBlockState

variable {B : Type} [StateBuffer B] {evm : Config} {db : B}

/-- The interpreter returns some of its gas. -/
def ReturnsWithin (gas : ℤ) (interpreter : Interpreter) : Prop :=
  ∀ m res m', interpreter m = some (res, m') → 0 ≤ res.gasLeft ∧ res.gasLeft ≤ gas

section Frames

variable {gas : ℤ} {interpreter : Interpreter} {message : Message} {m : Machine}
  {x : Result × Machine}

theorem ReturnsWithin.execute (h : ReturnsWithin gas interpreter) (destination : Address) :
    ReturnsWithin gas (execute destination interpreter) := by
  intro m res m' hm
  obtain ⟨⟨res₁, m₁⟩, hrun, heq⟩ := Option.bind_eq_some_iff.mp hm
  cases heq
  exact h _ _ _ hrun

theorem gasLeft_leave {res : Result} (h : 0 ≤ res.gasLeft ∧ res.gasLeft ≤ gas) (hg : 0 ≤ gas)
    (snapshot : Snapshot) (m : Machine) :
    0 ≤ (leave snapshot res m).1.gasLeft ∧ (leave snapshot res m).1.gasLeft ≤ gas := by
  unfold leave
  split_ifs
  · exact h
  · exact h
  · exact ⟨le_rfl, hg⟩

theorem gasLeft_callPrecompiled (hg : 0 ≤ message.gas) :
    0 ≤ (callPrecompiled evm message).gasLeft ∧
      (callPrecompiled evm message).gasLeft ≤ message.gas := by
  unfold callPrecompiled
  dsimp only
  split_ifs with h
  · exact ⟨hg, le_rfl⟩
  · split
    · dsimp only
      omega
    · exact ⟨hg, le_rfl⟩

theorem gasLeft_deployed (contractAddr : Address)
    (h : 0 ≤ x.1.gasLeft ∧ x.1.gasLeft ≤ gas) :
    0 ≤ (deployed evm db contractAddr x).1.gasLeft ∧
      (deployed evm db contractAddr x).1.gasLeft ≤ gas := by
  have hdeposit : 0 ≤ (depositCode evm db contractAddr x.1 x.2).1.gasLeft ∧
      (depositCode evm db contractAddr x.1 x.2).1.gasLeft ≤ gas := by
    unfold depositCode
    dsimp only
    split_ifs with hs hsize hgas
    · exact h
    · exact h
    · dsimp only
      omega
    · exact h
    · exact h
  unfold deployed
  dsimp only
  split_ifs
  · exact hdeposit
  · exact hdeposit

theorem gasLeft_call (hi : ReturnsWithin message.gas interpreter) (hg : 0 ≤ message.gas)
    (h : call evm db message interpreter m = some x) :
    0 ≤ x.1.gasLeft ∧ x.1.gasLeft ≤ message.gas := by
  rw [← callWith_plain] at h
  cases called_of_callWith h with
  | insufficient => exact ⟨hg, le_rfl⟩
  | absent => exact ⟨hg, le_rfl⟩
  | precompiled => exact gasLeft_leave (gasLeft_callPrecompiled hg) hg _ _
  | codeless => exact ⟨hg, le_rfl⟩
  | executed _ _ _ hr => exact gasLeft_leave (hi.execute _ _ _ _ hr) hg _ _

theorem gasLeft_create (hi : ReturnsWithin message.gas interpreter) (hg : 0 ≤ message.gas)
    (h : create evm db message interpreter m = some x) :
    0 ≤ x.1.gasLeft ∧ x.1.gasLeft ≤ message.gas := by
  rw [← createWith_plain] at h
  cases created_of_createWith h with
  | insufficient => exact ⟨hg, le_rfl⟩
  | collision => exact ⟨le_rfl, hg⟩
  | executed _ _ hr =>
    exact gasLeft_leave (gasLeft_deployed _ (hi.execute _ _ _ _ hr)) hg _ _

theorem gasLeft_executeTransaction {txn : Transaction} {sender : Address} {gas : Uint64}
    {r : CallResult × Machine} (hi : ReturnsWithin gas.toNat interpreter) (hg : gas.toNat < 2 ^ 63)
    (h : executeTransaction evm db txn sender gas interpreter m = some r) :
    r.1.gasLeft.toNat ≤ gas.toNat := by
  have hint : gas.toInt = gas.toNat := BitVec.toInt_eq_toNat_of_lt (by omega)
  rw [← hint] at hi
  have hmessage : ReturnsWithin (transactionMessage txn sender gas).gas interpreter := hi
  have hpos : 0 ≤ gas.toInt := by omega
  have hgas : ∃ y : Result × Machine, (0 ≤ y.1.gasLeft ∧ y.1.gasLeft ≤ gas.toInt) ∧
      (⟨y.1.statusCode, BitVec.ofInt 64 y.1.gasLeft, y.1.outputData⟩, y.2) = r := by
    unfold executeTransaction at h
    dsimp only at h
    split_ifs at h
    · obtain ⟨y, hy, hr⟩ := Option.bind_eq_some_iff.mp h
      exact ⟨y, gasLeft_create hmessage hpos hy, Option.some.inj hr⟩
    · obtain ⟨y, hy, hr⟩ := Option.bind_eq_some_iff.mp h
      exact ⟨y, gasLeft_call hmessage hpos hy, Option.some.inj hr⟩
  obtain ⟨y, hgas, hr⟩ := hgas
  cases hr
  dsimp only
  rw [BitVec.toNat_ofInt]
  omega

end Frames

end Evm

namespace ExecutionProcessor
open Evm IntraBlockState

variable {B : Type} [StateBuffer B] (x : ExecutionContext) (db : B)

section Transactions

variable (txn : Transaction) (interpreter : Interpreter) (p : ExecutionProcessor)

def intrinsic : Uint128 := Validity.intrinsicGasAt x.evm.revision txn

/-- The gas that a transaction passes to the machine. -/
def passedGas : Uint64 := txn.gasLimit - (intrinsic x txn).setWidth 64

/-- The part of a transaction within the machine. -/
def runMachine : Option (CallResult × Machine) := do
  let sender ← txn.sender
  Evm.executeTransaction x.evm db txn sender (passedGas x txn) interpreter
    { p.machine with state := buyGas db txn sender p.state }

/-- The gas that a transaction does not use, given how the machine has left it. -/
def unusedGas (r : CallResult × Machine) : Uint64 :=
  refundedGas x.evm.revision txn r.1.gasLeft r.2.state

def gasUsed (r : CallResult × Machine) : Uint64 := txn.gasLimit - unusedGas x txn r

def refundQuotient : ℕ := if .london ≤ x.evm.revision then 5 else 2

/-- None of the differences and sums of a transaction leaves its width, whose execution starts
with the given processor. -/
structure Accounted : Prop where
  cumulative : p.cumulativeGasUsed.toNat ≤ x.block.header.gasLimit.toNat
  available : (availableGas x p).toNat = x.block.header.gasLimit.toNat - p.cumulativeGasUsed.toNat
  intrinsic : (intrinsic x txn).toNat ≤ txn.gasLimit.toNat
  passed : (passedGas x txn).toNat = txn.gasLimit.toNat - (ExecutionProcessor.intrinsic x txn).toNat
  message : ∀ sender, (transactionMessage txn sender (passedGas x txn)).gas = (passedGas x txn).toNat
  left : ∀ r, runMachine x db txn interpreter p = some r → r.1.gasLeft.toNat ≤ txn.gasLimit.toNat
  unused : ∀ r, runMachine x db txn interpreter p = some r →
    r.1.gasLeft.toNat ≤ (unusedGas x txn r).toNat ∧
      (unusedGas x txn r).toNat ≤ r.1.gasLeft.toNat +
        (txn.gasLimit.toNat - r.1.gasLeft.toNat) / refundQuotient x ∧
      (unusedGas x txn r).toNat ≤ txn.gasLimit.toNat
  used : ∀ r, runMachine x db txn interpreter p = some r →
    (gasUsed x txn r).toNat = txn.gasLimit.toNat - (unusedGas x txn r).toNat ∧
      (txn.gasLimit.toNat - r.1.gasLeft.toNat) -
        (txn.gasLimit.toNat - r.1.gasLeft.toNat) / refundQuotient x ≤ (gasUsed x txn r).toNat ∧
      (gasUsed x txn r).toNat ≤ txn.gasLimit.toNat
  total : ∀ r, runMachine x db txn interpreter p = some r →
    p.cumulativeGasUsed.toNat + (gasUsed x txn r).toNat ≤ x.block.header.gasLimit.toNat

variable {x txn}

theorem toNat_passedGas (hg : (intrinsic x txn).toNat ≤ txn.gasLimit.toNat) :
    (passedGas x txn).toNat = txn.gasLimit.toNat - (intrinsic x txn).toNat := by
  have hlow : ((intrinsic x txn).setWidth 64).toNat = (intrinsic x txn).toNat := by
    rw [BitVec.toNat_setWidth]
    omega
  unfold passedGas
  bv_omega

/-- The refund is added to the gas that is left without an overflow. -/
theorem toNat_refundedGas {gasLeft : Uint64} (h : gasLeft.toNat ≤ txn.gasLimit.toNat)
    (s : IntraBlockState) :
    gasLeft.toNat ≤ (refundedGas x.evm.revision txn gasLeft s).toNat ∧
      (refundedGas x.evm.revision txn gasLeft s).toNat ≤
        gasLeft.toNat + (txn.gasLimit.toNat - gasLeft.toNat) / refundQuotient x := by
  have hsub : (txn.gasLimit - gasLeft).toNat = txn.gasLimit.toNat - gasLeft.toNat := by bv_omega
  have hquotient : ((txn.gasLimit - gasLeft) /
      (if .london ≤ x.evm.revision then Param.kMaxRefundQuotientLondon
        else Param.kMaxRefundQuotientFrontier)).toNat =
      (txn.gasLimit.toNat - gasLeft.toNat) / refundQuotient x := by
    rw [BitVec.toNat_udiv, hsub, refundQuotient]
    split_ifs <;> rfl
  have hle := Nat.div_le_self (txn.gasLimit.toNat - gasLeft.toNat) (refundQuotient x)
  have hlimit := txn.gasLimit.isLt
  unfold refundedGas
  dsimp only
  generalize hmax : (txn.gasLimit - gasLeft) / _ = maxRefund
  rw [hmax] at hquotient
  generalize (if ¬Revision.london ≤ x.evm.revision then _ else _ : Uint64) = refund
  rw [← hquotient] at hle ⊢
  split_ifs with hlt
  · bv_omega
  · bv_omega

/-- A transaction that is accepted in turn, with what was checked of the block before. -/
theorem accounted {p p' : ExecutionProcessor} (hlimit : x.block.header.gasLimit.toNat < 2 ^ 63)
    (hg : (intrinsic x txn).toNat ≤ txn.gasLimit.toNat)
    (hc : p.cumulativeGasUsed.toNat ≤ x.block.header.gasLimit.toNat)
    (hv : validateTransaction x db txn p = (.ok, p'))
    (hi : ReturnsWithin (passedGas x txn).toNat interpreter) :
    Accounted x db txn interpreter p' := by
  have havailable : (availableGas x p).toNat =
      x.block.header.gasLimit.toNat - p.cumulativeGasUsed.toNat := by
    unfold availableGas
    bv_omega
  obtain ⟨hsame, hfits⟩ : p'.cumulativeGasUsed = p.cumulativeGasUsed ∧
      txn.gasLimit.toNat ≤ (availableGas x p).toNat := by
    obtain ⟨sender, -, -, -, hgas, rfl⟩ := validateTransaction_eq_ok hv
    exact ⟨rfl, hgas⟩
  have hpassed := toNat_passedGas hg
  have hleft (r : CallResult × Machine) (hr : runMachine x db txn interpreter p' = some r) :
      r.1.gasLeft.toNat ≤ txn.gasLimit.toNat := by
    obtain ⟨sender, -, hr⟩ := Option.bind_eq_some_iff.mp hr
    have := gasLeft_executeTransaction hi (by omega) hr
    omega
  have hunused (r : CallResult × Machine) (hr : runMachine x db txn interpreter p' = some r) :
      r.1.gasLeft.toNat ≤ (unusedGas x txn r).toNat ∧
        (unusedGas x txn r).toNat ≤ r.1.gasLeft.toNat +
          (txn.gasLimit.toNat - r.1.gasLeft.toNat) / refundQuotient x ∧
        (unusedGas x txn r).toNat ≤ txn.gasLimit.toNat := by
    obtain ⟨hlow, hhigh⟩ := toNat_refundedGas (x := x) (hleft r hr) r.2.state
    have hdiv := Nat.div_le_self (txn.gasLimit.toNat - r.1.gasLeft.toNat) (refundQuotient x)
    have hle := hleft r hr
    exact ⟨hlow, hhigh, hhigh.trans (by omega)⟩
  have hused (r : CallResult × Machine) (hr : runMachine x db txn interpreter p' = some r) :
      (gasUsed x txn r).toNat = txn.gasLimit.toNat - (unusedGas x txn r).toNat := by
    have hle := (hunused r hr).2.2
    unfold gasUsed
    bv_omega
  constructor
  case cumulative => rwa [hsame]
  case available =>
    rw [hsame, ← havailable, availableGas, availableGas, hsame]
  case intrinsic => exact hg
  case passed => exact hpassed
  case message =>
    intro sender
    exact BitVec.toInt_eq_toNat_of_lt (by omega)
  case left => exact hleft
  case unused => exact hunused
  case used =>
    intro r hr
    obtain ⟨hlow, hhigh, hle⟩ := hunused r hr
    have := hleft r hr
    rw [hused r hr]
    omega
  case total =>
    intro r hr
    rw [hsame, hused r hr]
    omega

/-- The receipt and the counter of a transaction, in terms of how the machine has left it. -/
theorem cumulativeGasUsed_executeTransaction {p p' : ExecutionProcessor} {receipt : Receipt}
    (h : executeTransaction x db txn interpreter p = some (receipt, p')) :
    ∃ r, runMachine x db txn interpreter p = some r ∧
      p'.cumulativeGasUsed = p.cumulativeGasUsed + gasUsed x txn r ∧
      receipt.cumulativeGasUsed = p'.cumulativeGasUsed := by
  unfold executeTransaction at h
  obtain ⟨sender, hsender, h⟩ := Option.bind_eq_some_iff.mp h
  obtain ⟨r, hr, h⟩ := Option.bind_eq_some_iff.mp h
  refine ⟨r, Option.bind_eq_some_iff.mpr ⟨sender, hsender, hr⟩, ?_⟩
  cases h
  exact ⟨rfl, rfl⟩

end Transactions

section Blocks

variable (interpreter : ℕ → Interpreter) (p₀ : ExecutionProcessor)

/-- The processor before the first transaction. -/
def started : ExecutionProcessor :=
  { p₀.setState (if some x.block.header.number = x.config.daoBlock then
      transferBalances x db p₀.state else p₀.state) with cumulativeGasUsed := 0 }

/-- The processor, the receipts and the gas used by each of a number of transactions. -/
inductive Reached : ℕ → ExecutionProcessor → List Receipt → List Uint64 → Prop
  | start : Reached 0 (started x db p₀) [] []
  | next {i : ℕ} {p p' p'' : ExecutionProcessor} {receipts : List Receipt} {used : List Uint64}
      {txn : Transaction} {r : CallResult × Machine} {receipt : Receipt}
      (h : Reached i p receipts used) (ht : x.block.transactions[i]? = some txn)
      (hv : validateTransaction x db txn p = (.ok, p'))
      (hr : runMachine x db txn (interpreter i) p' = some r)
      (he : executeTransaction x db txn (interpreter i) p' = some (receipt, p'')) :
      Reached (i + 1) p'' (receipts ++ [receipt]) (used ++ [gasUsed x txn r])

variable {x db interpreter p₀}

theorem Reached.le_length {i : ℕ} {p : ExecutionProcessor} {receipts : List Receipt}
    {used : List Uint64} (h : Reached x db interpreter p₀ i p receipts used) :
    i ≤ x.block.transactions.length := by
  cases h with
  | start => exact Nat.zero_le _
  | next _ ht => exact (List.getElem?_eq_some_iff.mp ht).1

/-- The execution of a list of transactions passes through reached processors. -/
theorem reached_executeTransactions {txns : List Transaction} {i : ℕ} {p p' : ExecutionProcessor}
    {receipts receipts' : List Receipt} {used : List Uint64} {err : ValidationResult}
    (h : Reached x db interpreter p₀ i p receipts used) (ht : x.block.transactions.drop i = txns)
    (he : executeTransactions x db interpreter txns i receipts p = some ((receipts', err), p')) :
    ∃ j q used', Reached x db interpreter p₀ j q receipts' used' ∧
      p'.cumulativeGasUsed = q.cumulativeGasUsed ∧
      (err = .ok → j = x.block.transactions.length) := by
  induction txns generalizing i p receipts used with
  | nil =>
    cases he
    have hlength : x.block.transactions.length ≤ i := List.drop_eq_nil_iff.mp ht
    exact ⟨i, p', used, h, rfl, fun _ => le_antisymm h.le_length hlength⟩
  | cons txn txns ih =>
    have htxn : x.block.transactions[i]? = some txn := by
      rw [← List.head?_drop, ht]
      rfl
    have hrest : x.block.transactions.drop (i + 1) = txns := by
      rw [← List.tail_drop, ht]
      rfl
    rw [executeTransactions] at he
    cases hv : validateTransaction x db txn p with
    | mk verdict q =>
      rw [hv] at he
      dsimp only at he
      by_cases hok : verdict = .ok
      · subst hok
        obtain ⟨⟨receipt, q'⟩, hexecute, he⟩ := Option.bind_eq_some_iff.mp he
        obtain ⟨r, hr, -, -⟩ := cumulativeGasUsed_executeTransaction db _ hexecute
        exact ih (.next h htxn hv hr hexecute) hrest he
      · rw [if_pos hok] at he
        cases he
        have hsame := cumulativeGasUsed_validateTransaction x db txn p
        rw [hv] at hsame
        exact ⟨i, p, used, h, hsame, fun herr => absurd herr hok⟩

/-- So does the execution of the block. -/
theorem reached_executeBlock {p : ExecutionProcessor} {receipts : List Receipt}
    {err : ValidationResult} (h : executeBlock x db interpreter p₀ = some ((receipts, err), p)) :
    ∃ i q used, Reached x db interpreter p₀ i q receipts used ∧
      p.cumulativeGasUsed = q.cumulativeGasUsed ∧
      (err = .ok → i = x.block.transactions.length) := by
  unfold executeBlock at h
  obtain ⟨⟨⟨receipts₁, err₁⟩, p₁⟩, hrun, h⟩ := Option.bind_eq_some_iff.mp h
  have hstart : Reached x db interpreter p₀ 0 (started x db p₀) [] [] := .start
  obtain ⟨i, q, used, hreached, hsame, hlength⟩ :=
    reached_executeTransactions hstart List.drop_zero hrun
  dsimp only at h
  split_ifs at h with herr
  · cases h
    exact ⟨i, q, used, hreached, hsame, hlength⟩
  · cases h
    exact ⟨i, q, used, hreached, hsame, fun _ => hlength (not_not.mp herr)⟩

section Accounting

variable {S : Type} [BlockReader S] {rules : ChainRules} {state : S}

/-- What holds at every point of the execution of a block. -/
structure BlockAccounted (x : ExecutionContext) (db : B) (interpreter : ℕ → Interpreter) (i : ℕ)
    (p : ExecutionProcessor) (receipts : List Receipt) (used : List Uint64) : Prop where
  cumulative : p.cumulativeGasUsed.toNat ≤ x.block.header.gasLimit.toNat
  next : ∀ txn p', x.block.transactions[i]? = some txn → validateTransaction x db txn p = (.ok, p') →
    Accounted x db txn (interpreter i) p'
  sum : p.cumulativeGasUsed.toNat = (used.map BitVec.toNat).sum
  monotone : (receipts.map fun receipt => receipt.cumulativeGasUsed.toNat).Pairwise (· ≤ ·)
  bound : ∀ receipt ∈ receipts, receipt.cumulativeGasUsed.toNat ≤ p.cumulativeGasUsed.toNat
  last : ∀ receipt ∈ receipts.getLast?, receipt.cumulativeGasUsed = p.cumulativeGasUsed

theorem Reached.blockAccounted {i : ℕ} {p : ExecutionProcessor} {receipts : List Receipt}
    {used : List Uint64} (h : Reached x db interpreter p₀ i p receipts used)
    (hlimit : x.block.header.gasLimit.toNat < 2 ^ 63)
    (hg : ∀ txn ∈ x.block.transactions, (intrinsic x txn).toNat ≤ txn.gasLimit.toNat)
    (hi : ∀ i txn, x.block.transactions[i]? = some txn →
      ReturnsWithin (passedGas x txn).toNat (interpreter i)) :
    BlockAccounted x db interpreter i p receipts used := by
  have hnext {i : ℕ} {p : ExecutionProcessor}
      (hc : p.cumulativeGasUsed.toNat ≤ x.block.header.gasLimit.toNat) (txn : Transaction)
      (p' : ExecutionProcessor) (ht : x.block.transactions[i]? = some txn)
      (hv : validateTransaction x db txn p = (.ok, p')) : Accounted x db txn (interpreter i) p' :=
    accounted db (interpreter i) hlimit (hg txn (List.mem_of_getElem? ht)) hc hv (hi i txn ht)
  induction h with
  | start => exact ⟨Nat.zero_le _, hnext (Nat.zero_le _), rfl, .nil, nofun, nofun⟩
  | next h ht hv hr he ih =>
    rename_i i p p' p'' receipts used txn r receipt
    obtain ⟨r', hr', hcumulative, hreceipt⟩ := cumulativeGasUsed_executeTransaction db _ he
    obtain rfl : r' = r := Option.some.inj (hr'.symm.trans hr)
    have hstep := ih.next txn p' ht hv
    have hsame := cumulativeGasUsed_validateTransaction x db txn p
    rw [hv] at hsame
    have htotal := hstep.total r' hr
    have hsum : p''.cumulativeGasUsed.toNat =
        p.cumulativeGasUsed.toNat + (gasUsed x txn r').toNat := by
      have hlt := x.block.header.gasLimit.isLt
      rw [hcumulative, BitVec.toNat_add, hsame, Nat.mod_eq_of_lt]
      rw [hsame] at htotal
      omega
    have hle : p''.cumulativeGasUsed.toNat ≤ x.block.header.gasLimit.toNat := by
      rw [hsum, ← hsame]
      exact htotal
    have hbound (b : Receipt) (hb : b ∈ receipts ++ [receipt]) :
        b.cumulativeGasUsed.toNat ≤ p''.cumulativeGasUsed.toNat := by
      rcases List.mem_append.mp hb with hb | hb
      · have := ih.bound b hb
        omega
      · rw [List.mem_singleton.mp hb, hreceipt]
    refine ⟨hle, hnext hle, ?_, ?_, hbound, ?_⟩
    · rw [hsum, ih.sum, List.map_append, List.sum_append]
      simp
    · rw [List.map_append, List.pairwise_append]
      refine ⟨ih.monotone, List.pairwise_singleton _ _, fun n hn n' hn' => ?_⟩
      obtain ⟨b, hb, rfl⟩ := List.mem_map.mp hn
      rw [List.map_singleton, List.mem_singleton] at hn'
      rw [hn', hreceipt, hsum]
      exact (ih.bound b hb).trans (Nat.le_add_right _ _)
    · rw [List.getLast?_concat]
      intro b hb
      cases hb
      exact hreceipt

/-- The gas of a block that passed its checks, at every point of its execution. -/
theorem gas_accounting
    (hv : Validity.preValidateBlock (Validity.checking x.config rules) state x.block = .ok)
    (hi : ∀ i txn, x.block.transactions[i]? = some txn →
      ReturnsWithin (passedGas x txn).toNat (interpreter i)) :
    (∀ i p receipts used, Reached x db interpreter p₀ i p receipts used →
      BlockAccounted x db interpreter i p receipts used) ∧
    ∀ receipts err p, executeBlock x db interpreter p₀ = some ((receipts, err), p) →
      ∃ i q used, Reached x db interpreter p₀ i q receipts used ∧
        p.cumulativeGasUsed = q.cumulativeGasUsed ∧
        (err = .ok → i = x.block.transactions.length) := by
  have hblock := Validity.accepted_of_preValidateBlock hv
  refine ⟨fun i p receipts used h => ?_, fun receipts err p h => reached_executeBlock h⟩
  refine h.blockAccounted (Validity.gasLimit_lt_of_validateBlockHeader hblock.header)
    (fun txn ht => ?_) hi
  exact Validity.intrinsicGas_le_of_preValidateTransaction
    (Validity.preValidateTransaction_of_validateTransactions hblock.transactions ht)

end Accounting

end Blocks

section Examples

private def payer : Address := FixedBytes.replicate 20 1

private def payee : Address := FixedBytes.replicate 20 2

/-- A payment to a contract. -/
private def payment : Transaction where
  gasLimit := 50000
  gasPrice := 2
  toAddress := some payee
  value := 5
  r := 1
  s := 1
  sender := some payer

private def paid : Block where
  header := { number := 1, gasLimit := 100000, timestamp := 1 }
  transactions := [payment]

private def context : ExecutionContext where
  config := {}
  block := paid
  keccak _ := default
  precompiledGas _ _ _ := 0
  precompiledRun _ _ := none
  daoChildren := []
  daoWithdraw := default

private def accounts : MemoryBuffer where
  accounts := HashMap.set (HashMap.set ∅ payer { balance := 1000000 }) payee
    { codeHash := default, incarnation := 1 }
  code := HashMap.set ∅ default [0]

private def rules : ChainRules where
  keccak _ := default
  canonicalDifficulty _ _ _ _ _ := 0
  daoBlock := none
  isValidSeal _ := true
  transactionsRoot _ := default
  preValidateTransaction _ _ := .ok

private def genesis : Validity.ListedBlocks where
  keccak _ := default
  blocks := [({ gasLimit := 100000 }, {})]

/-- The code returns 1000 of 29000. -/
private def spending : Interpreter := fun m => some ({ statusCode := .success, gasLeft := 1000 }, m)

theorem gas_accounting_payment :
    Validity.preValidateBlock (Validity.checking context.config rules) genesis context.block = .ok ∧
    (executeBlock context accounts (fun _ => spending) {}).map (fun out => (out.1.2,
      out.2.cumulativeGasUsed)) = some (.ok, 49000) ∧
    ∃ i q receipts used, Reached context accounts (fun _ => spending) {} i q receipts used ∧
      BlockAccounted context accounts (fun _ => spending) i q receipts used ∧ i = 1 := by
  have hv : Validity.preValidateBlock (Validity.checking context.config rules) genesis
      context.block = .ok := by decide
  have hrun : (executeBlock context accounts (fun _ => spending) {}).map (fun out => (out.1.2,
      out.2.cumulativeGasUsed)) = some (.ok, 49000) := by decide
  have hi (i : ℕ) (txn : Transaction) (ht : context.block.transactions[i]? = some txn) :
      ReturnsWithin (passedGas context txn).toNat spending := by
    cases i with
    | zero =>
      cases ht
      intro m res m' h
      cases h
      exact ⟨by decide, by decide⟩
    | succ i => cases ht
  obtain ⟨hreached, hblock⟩ :=
    @gas_accounting _ _ context accounts (fun _ => spending) {} _ _ rules genesis hv hi
  obtain ⟨⟨⟨receipts, err⟩, p⟩, hout, herr⟩ := Option.map_eq_some_iff.mp hrun
  obtain ⟨i, q, used, h, -, hlength⟩ := hblock receipts err p hout
  have herr : err = .ok := congrArg Prod.fst herr
  exact ⟨hv, hrun, i, q, receipts, used, h, hreached i q receipts used h, hlength herr⟩

end Examples

end ExecutionProcessor
end Silkworm
