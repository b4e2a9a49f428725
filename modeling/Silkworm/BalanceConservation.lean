import Silkworm.Balances
import Silkworm.GasAccounting

/-!
# The conservation of balances

A transaction that was accepted can pay for its gas. What it gets back and what the miner gets add
up to what it has paid, and the accounts that are destroyed in the end only lose what they have.
-/

namespace Silkworm

namespace Evm
open IntraBlockState

variable {B : Type} [StateBuffer B] {evm : Config} {db : B} {message : Message}
  {interpreter : Interpreter} {m : Machine} {x : Result × Machine}

/-- The gas that a frame leaves behind, also of one without any to begin with. -/
def LeftWithin (gas gasLeft : ℤ) : Prop := gasLeft = gas ∨ 0 ≤ gasLeft ∧ (gasLeft ≤ gas ∨ gasLeft = 0)

theorem leftWithin_leave {gas : ℤ} {res : Result} (h : 0 ≤ res.gasLeft ∧ res.gasLeft ≤ gas)
    (snapshot : Snapshot) (m : Machine) : LeftWithin gas (leave snapshot res m).1.gasLeft := by
  unfold leave
  split_ifs
  · exact .inr ⟨h.1, .inl h.2⟩
  · exact .inr ⟨h.1, .inl h.2⟩
  · exact .inr ⟨le_rfl, .inr rfl⟩

theorem leftWithin_callPrecompiled (snapshot : Snapshot) (m : Machine) :
    LeftWithin message.gas (leave snapshot (callPrecompiled evm message) m).1.gasLeft := by
  by_cases hg : 0 ≤ message.gas
  · exact leftWithin_leave (gasLeft_callPrecompiled hg) snapshot m
  -- without gas nothing can be paid for
  have hout : callPrecompiled evm message =
      { statusCode := .outOfGas, gasLeft := message.gas } := by
    unfold callPrecompiled
    dsimp only
    rw [if_pos (by omega)]
  rw [hout]
  exact .inr ⟨le_rfl, .inr rfl⟩

theorem leftWithin_call (hi : ReturnsWithin message.gas interpreter)
    (h : call evm db message interpreter m = some x) : LeftWithin message.gas x.1.gasLeft := by
  rw [← callWith_plain] at h
  cases called_of_callWith h with
  | insufficient => exact .inl rfl
  | absent => exact .inl rfl
  | precompiled => exact leftWithin_callPrecompiled _ _
  | codeless => exact .inl rfl
  | executed _ _ _ hr => exact leftWithin_leave (hi.execute _ _ _ _ hr) _ _

theorem leftWithin_create (hi : ReturnsWithin message.gas interpreter)
    (h : create evm db message interpreter m = some x) : LeftWithin message.gas x.1.gasLeft := by
  rw [← createWith_plain] at h
  cases created_of_createWith h with
  | insufficient => exact .inl rfl
  | collision => exact .inr ⟨le_rfl, .inr rfl⟩
  | executed _ _ hr => exact leftWithin_leave (gasLeft_deployed _ (hi.execute _ _ _ _ hr)) _ _

/-- The machine returns no more gas than a transaction passes to it. -/
theorem gasLeft_le_of_executeTransaction {txn : Transaction} {sender : Address} {gas : Uint64}
    {r : CallResult × Machine} (hi : ReturnsWithin gas.toInt interpreter)
    (h : executeTransaction evm db txn sender gas interpreter m = some r) :
    r.1.gasLeft.toNat ≤ gas.toNat := by
  have hmessage : ReturnsWithin (transactionMessage txn sender gas).gas interpreter := hi
  have hleft : ∃ y : Result × Machine, LeftWithin gas.toInt y.1.gasLeft ∧
      (⟨y.1.statusCode, BitVec.ofInt 64 y.1.gasLeft, y.1.outputData⟩, y.2) = r := by
    unfold executeTransaction at h
    dsimp only at h
    split_ifs at h
    · obtain ⟨y, hy, hr⟩ := Option.bind_eq_some_iff.mp h
      exact ⟨y, leftWithin_create hmessage hy, Option.some.inj hr⟩
    · obtain ⟨y, hy, hr⟩ := Option.bind_eq_some_iff.mp h
      exact ⟨y, leftWithin_call hmessage hy, Option.some.inj hr⟩
  obtain ⟨y, hleft, hr⟩ := hleft
  cases hr
  dsimp only
  rcases hleft with hleft | ⟨hpos, hleft⟩
  · rw [hleft, BitVec.ofInt_toInt]
  · have hlt := BitVec.toInt_lt (x := gas)
    have hle : gas.toInt ≤ gas.toNat := by
      rw [BitVec.toInt_eq_toNat_cond]
      split_ifs <;> omega
    rw [BitVec.toNat_ofInt]
    omega

end Evm

namespace IntraBlockState
open Ledgers

variable {B : Type} [StateBuffer B] {s t : IntraBlockState}

section Destructions

variable (db : B)

theorem balanceOf_destruct (a : Address) (s : IntraBlockState) (a' : Address) :
    balanceOf db (destruct db a s) a' = if a' = a then 0 else balanceOf db s a' := by
  rw [balanceOf, viewAccount_destruct]
  split_ifs <;> rfl

theorem selfDestructs_destruct (a : Address) (s : IntraBlockState) :
    (destruct db a s).selfDestructs = s.selfDestructs := by
  rw [destruct, getObject_eq]
  cases viewObject db s.objects a <;> rfl

theorem supply_destruct_le (a : Address) (s : IntraBlockState) :
    supply db (destruct db a s) ≤ supply db s := by
  refine total_mono fun a' => ?_
  rw [balanceOf_destruct]
  split_ifs
  · exact Nat.zero_le _
  · exact le_rfl

/-- The accounts that destructed themselves in turn. -/
theorem supply_destructs_le (as : List Address) (s : IntraBlockState) :
    supply db (as.foldl (fun s a => destruct db a s) s) ≤ supply db s ∧
      (as.foldl (fun s a => destruct db a s) s).selfDestructs = s.selfDestructs := by
  induction as generalizing s with
  | nil => exact ⟨le_rfl, rfl⟩
  | cons a as ih =>
    obtain ⟨hle, hset⟩ := ih (destruct db a s)
    exact ⟨hle.trans (supply_destruct_le db a s), hset.trans (selfDestructs_destruct db a s)⟩

theorem balanceOf_of_isDead {a : Address} (h : (isDead db a s).1 = true) : balanceOf db s a = 0 := by
  rw [balanceOf]
  cases hv : viewAccount db s a with
  | none => rfl
  | some account => exact ((isDead_fst db a s).mp h account hv).2.1

/-- An account without a balance is destroyed. -/
theorem sameFunds_destruct {a : Address} (h : balanceOf db s a = 0) :
    SameFunds db s (destruct db a s) := by
  refine ⟨fun a' => ?_, fun a' => by rw [selfDestructs_destruct]⟩
  rw [balanceOf_destruct]
  split_ifs with ha
  · rw [ha, h]
  · rfl

theorem sameFunds_destructTouchedDead (s : IntraBlockState) :
    SameFunds db s (destructTouchedDead db s) := by
  unfold destructTouchedDead
  generalize HashSet.toList s.touched = as
  induction as generalizing s with
  | nil => exact .refl s
  | cons a as ih =>
    refine SameFunds.trans ?_ (ih _)
    have hread := (sameAccounts_isDead db a s).sameFunds
    dsimp only
    split_ifs with hdead
    · refine hread.trans (sameFunds_destruct db ?_)
      rw [hread.balance]
      exact balanceOf_of_isDead db hdead
    · exact hread

end Destructions

end IntraBlockState

namespace ExecutionProcessor
open Evm IntraBlockState

variable {B : Type} [StateBuffer B] {x : ExecutionContext} {db : B} {txn : Transaction}
  {sender : Address} {s t : IntraBlockState}

theorem toNat_gasCost {gas : Uint64} {gasPrice : Uint256}
    (h : gas.toNat * gasPrice.toNat < 2 ^ 256) :
    (gasCost gas gasPrice).toNat = gas.toNat * gasPrice.toNat := by
  have hwidth : (gas.setWidth 256).toNat = gas.toNat := BitVec.toNat_setWidth_of_le (by decide)
  rw [gasCost, BitVec.toNat_mul, hwidth, Nat.mod_eq_of_lt h]

theorem checked_multiply {gas : Uint64} {gasPrice : Uint256}
    (h : gas.toNat * gasPrice.toNat < 2 ^ 256) :
    (Hooks.checked db).multiply gas gasPrice = some (gasCost gas gasPrice) := if_pos h

variable (db txn sender) in
/-- What follows the purchase of the gas. -/
theorem sameFunds_afterPurchase (s : IntraBlockState) :
    SameFunds db s (accessEntries txn.accessList (match txn.toAddress with
      | some recipient =>
        setNonce db sender (txn.nonce + 1) (IntraBlockState.accessAccount recipient s).2
      | none => s)) := by
  refine SameFunds.trans ?_ (sameAccounts_accessEntries db txn.accessList _).sameFunds
  cases txn.toAddress with
  | none => exact .refl s
  | some recipient =>
    exact (sameFunds_accessAccount db recipient s).trans (sameFunds_setNonce db sender _ _)

/-- A sender that has what the gas costs. -/
theorem buyGas_checked
    (hcost : txn.gasLimit.toNat * txn.gasPrice.toNat ≤ (balanceOf db s sender).toNat) :
    buyGasWith (.checked db) db txn sender s = some (buyGas db txn sender s) ∧
      supply db (buyGas db txn sender s) + txn.gasLimit.toNat * txn.gasPrice.toNat =
        supply db s := by
  have hlt := hcost.trans_lt (balanceOf db s sender).isLt
  have haccess : ∀ a, balanceOf db (IntraBlockState.accessAccount sender
      (clearJournalAndSubstate s)).2 a = balanceOf db s a :=
    (sameFunds_accessAccount db sender (clearJournalAndSubstate s)).balance
  unfold buyGasWith buyGas
  dsimp only
  generalize (IntraBlockState.accessAccount sender (clearJournalAndSubstate s)).2 = s₁ at haccess ⊢
  have hsupply : supply db s₁ = supply db s :=
    Ledgers.total_congr fun a => congrArg BitVec.toNat (haccess a)
  rw [← haccess, ← toNat_gasCost hlt] at hcost
  have hsub := supply_subtractFromBalance hcost
  rw [checked_multiply hlt]
  dsimp only [Option.bind_eq_bind, Option.bind_some]
  rw [checked_subtract hcost]
  refine ⟨rfl, ?_⟩
  have hrest := (sameFunds_afterPurchase db txn sender
    (subtractFromBalance db sender (gasCost txn.gasLimit txn.gasPrice) s₁)).supply
  rw [toNat_gasCost hlt] at hsub
  exact (congrArg (· + _) hrest).trans (hsub.trans hsupply)

variable (txn sender) in
/-- The part of a transaction within the machine. -/
theorem executeTransaction_conserved (evm : Config) (gas : Uint64) {m : Machine} (b : Behaviour)
    (hs : supply db m.state < 2 ^ 256) :
    Evm.executeTransactionWith (.checked db) evm db txn sender gas (b.runWith (.checked db) evm db) m =
        Evm.executeTransaction evm db txn sender gas (b.run evm db) m ∧
      ∀ r, Evm.executeTransaction evm db txn sender gas (b.run evm db) m = some r →
        Conserved db m.state r.2.state := by
  have hrun := b.conserves evm db
  have hkeeps := b.keeps evm db
  unfold Evm.executeTransactionWith Evm.executeTransaction
  dsimp only
  split_ifs
  · obtain ⟨heq, hconserved⟩ := hrun.create hkeeps (transactionMessage txn sender gas) m hs
    rw [heq]
    refine ⟨rfl, fun r hr => ?_⟩
    obtain ⟨y, hy, hr⟩ := Option.bind_eq_some_iff.mp hr
    cases hr
    exact hconserved y hy
  · obtain ⟨heq, hconserved⟩ := hrun.call hkeeps (transactionMessage txn sender gas) m hs
    rw [heq]
    refine ⟨rfl, fun r hr => ?_⟩
    obtain ⟨y, hy, hr⟩ := Option.bind_eq_some_iff.mp hr
    cases hr
    exact hconserved y hy

variable (x db) in
theorem supply_cleanUp (s : IntraBlockState) :
    supply db (cleanUp x db s) ≤ supply db s ∧
      (∀ a, HashSet.contains (cleanUp x db s).selfDestructs a = HashSet.contains s.selfDestructs a) ∧
      ((∀ a, ¬HashSet.contains s.selfDestructs a = true) →
        supply db (cleanUp x db s) = supply db s) := by
  obtain ⟨hle, hset⟩ := supply_destructs_le db (HashSet.toList s.selfDestructs) s
  have hrest : SameFunds db (destructSuicides db s) (cleanUp x db s) := by
    have hdead : SameFunds db (destructSuicides db s) (if .spuriousDragon ≤ x.evm.revision then
        destructTouchedDead db (destructSuicides db s) else destructSuicides db s) := by
      split_ifs
      · exact sameFunds_destructTouchedDead db _
      · exact .refl _
    exact hdead.trans (.of_eq rfl rfl)
  refine ⟨hrest.supply.trans_le hle, fun a => ?_, fun hnone => ?_⟩
  · rw [hrest.selfDestructs]
    exact congrArg (HashSet.contains · a) hset
  · have hempty : HashSet.toList s.selfDestructs = [] := by
      refine List.eq_nil_iff_forall_not_mem.mpr fun a ha => hnone a ?_
      exact HashSet.mem_toList.mp ha
    rw [hrest.supply, destructSuicides, hempty]
    rfl

/-- The unused gas is paid back, the rest goes to the miner. -/
theorem supply_addGas {gas gasLimit : Uint64} {gasPrice : Uint256} (a : Address)
    (hgas : gas.toNat ≤ gasLimit.toNat)
    (hs : supply db s + gasLimit.toNat * gasPrice.toNat < 2 ^ 256) :
    (Hooks.checked db).multiply gas gasPrice = some (gasCost gas gasPrice) ∧
      (Hooks.checked db).add a (gasCost gas gasPrice) s =
        some (addToBalance db a (gasCost gas gasPrice) s) ∧
      supply db (addToBalance db a (gasCost gas gasPrice) s) =
        supply db s + gas.toNat * gasPrice.toNat := by
  have hle : gas.toNat * gasPrice.toNat ≤ gasLimit.toNat * gasPrice.toNat :=
    Nat.mul_le_mul_right _ hgas
  have hbalance := balanceOf_le_supply db s a
  have hcost : (gasCost gas gasPrice).toNat = gas.toNat * gasPrice.toNat :=
    toNat_gasCost (by omega)
  have hfits : (balanceOf db s a).toNat + (gasCost gas gasPrice).toNat < 2 ^ 256 := by omega
  exact ⟨checked_multiply (by omega), checked_add hfits, hcost ▸ supply_addToBalance hfits⟩

theorem selfDestructs_addToBalance (a : Address) (v : Uint256) (s : IntraBlockState) :
    (addToBalance db a v s).selfDestructs = s.selfDestructs := selfDestructs_updateAndTouch db a _ s

variable (x db txn sender s) in
/-- What follows the machine, in terms of the gas that it leaves. -/
theorem settled {gasLeft : Uint64} (hleft : gasLeft.toNat ≤ txn.gasLimit.toNat)
    (hs : supply db s + txn.gasLimit.toNat * txn.gasPrice.toNat < 2 ^ 256) :
    let refunded := refundGas x db txn sender gasLeft s
    let fee := gasCost (txn.gasLimit - refunded.1) txn.gasPrice
    let paid := addToBalance db x.block.header.beneficiary fee refunded.2
    refundGasWith (.checked db) x txn sender gasLeft s = some refunded ∧
      (Hooks.checked db).multiply (txn.gasLimit - refunded.1) txn.gasPrice = some fee ∧
      (Hooks.checked db).add x.block.header.beneficiary fee refunded.2 = some paid ∧
      supply db paid = supply db s + txn.gasLimit.toNat * txn.gasPrice.toNat ∧
      paid.selfDestructs = s.selfDestructs := by
  intro refunded fee paid
  obtain ⟨-, hhigh⟩ := toNat_refundedGas (x := x) hleft s
  have hdiv := Nat.div_le_self (txn.gasLimit.toNat - gasLeft.toNat) (refundQuotient x)
  have hunused : refunded.1.toNat ≤ txn.gasLimit.toNat := hhigh.trans (by omega)
  have hused : (txn.gasLimit - refunded.1).toNat = txn.gasLimit.toNat - refunded.1.toNat := by
    bv_omega
  obtain ⟨hmultiply, hadd, hsupply⟩ := supply_addGas sender hunused hs
  have hsum : refunded.1.toNat * txn.gasPrice.toNat +
      (txn.gasLimit - refunded.1).toNat * txn.gasPrice.toNat =
        txn.gasLimit.toNat * txn.gasPrice.toNat := by
    rw [← Nat.add_mul, hused, Nat.add_sub_cancel' hunused]
  have hrefunded : supply db refunded.2 = supply db s + refunded.1.toNat * txn.gasPrice.toNat := hsupply
  have hle := balanceOf_le_supply db refunded.2 x.block.header.beneficiary
  have hcost : fee.toNat = (txn.gasLimit - refunded.1).toNat * txn.gasPrice.toNat :=
    toNat_gasCost (by omega)
  have hfits : (balanceOf db refunded.2 x.block.header.beneficiary).toNat + fee.toNat < 2 ^ 256 := by
    omega
  refine ⟨?_, checked_multiply (by omega), checked_add hfits, ?_, ?_⟩
  · unfold refundGasWith
    change ((Hooks.checked db).multiply refunded.1 txn.gasPrice).bind _ = _
    rw [hmultiply, Option.bind_some]
    change ((Hooks.checked db).add sender (gasCost refunded.1 txn.gasPrice) s).bind _ = _
    rw [hadd]
    rfl
  · rw [supply_addToBalance hfits, hrefunded, hcost, Nat.add_assoc, hsum]
  · rw [selfDestructs_addToBalance]
    exact selfDestructs_addToBalance _ _ _

/-- The conservation of balances. With checks in place of the arithmetic, which stop where a
balance or a product would wrap around, an accepted transaction does the same. -/
theorem executeTransaction_conserves {p p' : ExecutionProcessor} (b : Behaviour)
    (hs : supply db p.state < 2 ^ 256)
    (hpre : Validity.preValidateTransaction txn x.block.header.number x.config = .ok)
    (hv : validateTransaction x db txn p = (.ok, p'))
    (hi : ReturnsWithin (passedGas x txn).toInt (b.run x.evm db)) :
    executeTransactionWith (.checked db) x db txn (b.runWith (.checked db) x.evm db) p' =
        executeTransaction x db txn (b.run x.evm db) p' ∧
      ∀ receipt q, executeTransaction x db txn (b.run x.evm db) p' = some (receipt, q) →
        supply db q.state ≤ supply db p.state ∧
          ((∀ a, ¬HashSet.contains q.state.selfDestructs a = true) →
            supply db q.state = supply db p.state) := by
  obtain ⟨sender, hsender, -, hbalance, -, rfl⟩ := validateTransaction_eq_ok hv
  have hread := (sameFunds_getNonce db sender p.state).trans (sameFunds_getBalance db sender _)
  rw [getBalance_eq_balanceOf, (sameFunds_getNonce db sender p.state).balance,
    ← hread.balance] at hbalance
  generalize hp' : p.setState (getBalance db sender (getNonce db sender p.state).2).2 = p'
  have hstate : SameFunds db p.state p'.state := hp' ▸ hread
  have hbalance' : txn.gasLimit.toNat * txn.gasPrice.toNat ≤ (balanceOf db p'.state sender).toNat := by
    rw [hstate.balance, ← hread.balance]
    omega
  obtain ⟨hbuy, hbought⟩ := buyGas_checked hbalance'
  rw [hstate.supply] at hbought
  have hentered : supply db (buyGas db txn sender p'.state) < 2 ^ 256 := by omega
  obtain ⟨hmachine, hconserved⟩ := executeTransaction_conserved txn sender x.evm (passedGas x txn)
    (m := { p'.machine with state := buyGas db txn sender p'.state }) b hentered
  have hpassed : (passedGas x txn).toNat ≤ txn.gasLimit.toNat := by
    rw [toNat_passedGas (Validity.intrinsicGas_le_of_preValidateTransaction hpre)]
    exact Nat.sub_le _ _
  have hsettled (r : CallResult × Machine)
      (hr : Evm.executeTransaction x.evm db txn sender (passedGas x txn) (b.run x.evm db)
        { p'.machine with state := buyGas db txn sender p'.state } = some r) :=
    settled x db txn sender r.2.state
      ((gasLeft_le_of_executeTransaction hi hr).trans hpassed)
      (by have := (hconserved r hr).le; dsimp only at this; omega)
  constructor
  · unfold executeTransactionWith executeTransaction
    rw [hsender]
    dsimp only [Option.bind_eq_bind, Option.bind_some]
    rw [hbuy]
    change (Evm.executeTransactionWith (.checked db) x.evm db txn sender (passedGas x txn) _ _).bind _ =
      (Evm.executeTransaction x.evm db txn sender (passedGas x txn) _ _).bind _
    rw [hmachine]
    cases hr : Evm.executeTransaction x.evm db txn sender (passedGas x txn) (b.run x.evm db)
      { p'.machine with state := buyGas db txn sender p'.state } with
    | none => rfl
    | some r =>
      obtain ⟨hrefund, hmultiply, hadd, -, -⟩ := hsettled r hr
      dsimp only [Option.bind_some]
      rw [hrefund]
      dsimp only [Option.bind_some]
      rw [hmultiply]
      dsimp only [Option.bind_some]
      rw [hadd]
      rfl
  · intro receipt q h
    unfold executeTransaction at h
    rw [hsender] at h
    dsimp only [Option.bind_eq_bind, Option.bind_some] at h
    obtain ⟨r, hr, h⟩ := Option.bind_eq_some_iff.mp h
    obtain ⟨-, -, -, hpaid, hset⟩ := hsettled r hr
    have hrun := hconserved r hr
    have hrunle := hrun.le
    dsimp only at hrunle
    cases h
    generalize addToBalance db x.block.header.beneficiary _ _ = paid at hpaid hset ⊢
    obtain ⟨hle, hdestructs, hkept⟩ := supply_cleanUp x db paid
    refine ⟨hle.trans (by omega), fun hnone => ?_⟩
    have hnone' (a : Address) : ¬HashSet.contains paid.selfDestructs a = true := by
      rw [← hdestructs]
      exact hnone a
    have heq : supply db r.2.state = supply db (buyGas db txn sender p'.state) := by
      refine hrun.eq.resolve_right fun ⟨a, ha⟩ => hnone' a ?_
      rwa [hset]
    have hsum : supply db (cleanUp x db paid) = supply db paid := hkept hnone'
    exact hsum.trans (by omega)

section Examples

private def hoarder : Address := FixedBytes.replicate 20 3

/-- A contract that has half of what a balance can hold. -/
private def hoard : MemoryBuffer where
  accounts := HashMap.set ∅ hoarder
    { balance := BitVec.ofNat 256 (2 ^ 255), codeHash := default, incarnation := 1 }
  code := HashMap.set ∅ default [0]

private def trigger : Transaction where
  gasLimit := 50000
  toAddress := some hoarder
  r := 1
  s := 1
  sender := some default

private def triggered : ExecutionContext where
  config := {}
  block := { header := { number := 1, gasLimit := 100000 }, transactions := [trigger] }
  keccak _ := default
  precompiledGas _ _ _ := 0
  precompiledRun _ _ := none
  daoChildren := []
  daoWithdraw := default

/-- The contract destructs itself in its own favour. -/
private def destruction : Behaviour :=
  .host (.selfdestruct hoarder hoarder) fun _ => .done .success 0 []

private theorem balanceOf_hoard (a : Address) :
    balanceOf hoard {} a = if a = hoarder then BitVec.ofNat 256 (2 ^ 255) else 0 := by
  have hview : viewAccount hoard {} a = HashMap.find hoard.accounts a := by
    change (((HashMap.find hoard.accounts a).map fun account : Account =>
      (⟨some account, some account⟩ : Object)).bind Object.current) = _
    cases HashMap.find hoard.accounts a <;> rfl
  rw [balanceOf, hview, hoard, HashMap.find_set]
  split_ifs <;> rfl

private theorem supply_hoard : supply hoard {} < 2 ^ 256 := by
  have htotal : supply hoard {} + 0 = Ledgers.total (fun _ : Address => 0) + 2 ^ 255 := by
    refine Ledgers.total_set (f := fun _ : Address => 0) (a := hoarder) fun a => ?_
    rw [balanceOf_hoard]
    split_ifs
    · decide
    · rfl
  have hzero : Ledgers.total (fun _ : Address => 0) = 0 := Finset.sum_const_zero
  omega

private theorem returnsWithin_destruction :
    ReturnsWithin (passedGas triggered trigger).toInt (destruction.run triggered.evm hoard) := by
  intro m res m' h
  cases h
  exact ⟨by decide, by decide⟩

/-- The checks pass, and half of what a balance can hold is gone. -/
theorem executeTransaction_conserves_hoard :
    supply hoard {} < 2 ^ 256 ∧
    ∃ p', validateTransaction triggered hoard trigger {} = (.ok, p') ∧
      executeTransactionWith (.checked hoard) triggered hoard trigger
          (destruction.runWith (.checked hoard) triggered.evm hoard) p' =
        executeTransaction triggered hoard trigger (destruction.run triggered.evm hoard) p' ∧
      ∀ receipt q, executeTransaction triggered hoard trigger
          (destruction.run triggered.evm hoard) p' = some (receipt, q) →
        supply hoard q.state ≤ supply hoard {} ∧
          ((∀ a, ¬HashSet.contains q.state.selfDestructs a = true) →
            supply hoard q.state = supply hoard {}) :=
  ⟨supply_hoard, _, rfl, executeTransaction_conserves (p := {}) destruction supply_hoard (by decide)
    rfl returnsWithin_destruction⟩

/-- The contract adds its balance to itself, which wraps around, before it sets it to 0. -/
theorem not_executeTransaction_conserves :
    supply hoard {} < 2 ^ 256 ∧
    Validity.preValidateTransaction trigger triggered.block.header.number triggered.config = .ok ∧
    triggered.block.header.gasLimit.toNat < 2 ^ 63 ∧
    ReturnsWithin (passedGas triggered trigger).toInt (destruction.run triggered.evm hoard) ∧
    ∃ p', validateTransaction triggered hoard trigger {} = (.ok, p') ∧
      (executeTransaction triggered hoard trigger (destruction.run triggered.evm hoard) p').isSome =
        true ∧
      executeTransactionWith (.strict hoard) triggered hoard trigger
        (destruction.runWith (.strict hoard) triggered.evm hoard) p' = none := by
  refine ⟨supply_hoard, by decide, by decide, returnsWithin_destruction, _, rfl, by decide, ?_⟩
  exact Option.isNone_iff_eq_none.mp (by decide)

end Examples

end ExecutionProcessor
end Silkworm
