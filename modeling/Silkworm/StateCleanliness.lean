import Silkworm.TouchedAccounts

/-!
# Empty accounts

An account that is empty at the end of a transaction has been touched, and is destroyed.
-/

namespace Silkworm

namespace IntraBlockState

variable {B : Type} [StateBuffer B] {db : B} {s t : IntraBlockState}

section Destructions

theorem SameAccounts.noEmptyAccounts (h : SameAccounts db s t) (hs : NoEmptyAccounts db s) :
    NoEmptyAccounts db t := fun a account haccount =>
  hs a account ((h.account a).symm.trans haccount)

variable (db) in
/-- No empty account is left, and what the accounts were is remembered. -/
structure Cleans (s t : IntraBlockState) : Prop where
  initial : ∀ a, viewInitial db t a = viewInitial db s a
  noEmptyAccounts : NoEmptyAccounts db t

theorem NoEmptyAccounts.emptyTouched (h : NoEmptyAccounts db s) : EmptyTouched db s :=
  fun a account haccount hempty => absurd hempty (h a account haccount)

variable (db) in
theorem viewInitial_destruct (a : Address) (s : IntraBlockState) (a' : Address) :
    viewInitial db (destruct db a s) a' = viewInitial db s a' := by
  rw [viewInitial, viewObject_destruct, viewInitial]
  split_ifs with ha
  · subst ha
    cases viewObject db s.objects a' <;> rfl
  · rfl

variable (db) in
theorem touched_destruct (a : Address) (s : IntraBlockState) :
    (destruct db a s).touched = s.touched := by
  rw [destruct, getObject_eq]
  cases viewObject db s.objects a <;> rfl

theorem EmptyTouched.destruct (h : EmptyTouched db s) (a : Address) :
    EmptyTouched db (destruct db a s) := by
  intro a' account haccount hempty
  rw [viewAccount_destruct] at haccount
  split_ifs at haccount
  rw [touched_destruct]
  exact h a' account haccount hempty

theorem EmptyTouched.destructSuicides (h : EmptyTouched db s) :
    EmptyTouched db (destructSuicides db s) ∧
      ∀ a, viewInitial db (destructSuicides db s) a = viewInitial db s a := by
  rw [IntraBlockState.destructSuicides]
  generalize HashSet.toList s.selfDestructs = as
  induction as generalizing s with
  | nil => exact ⟨h, fun _ => rfl⟩
  | cons a as ih =>
    obtain ⟨htouched, hinitial⟩ := ih (h.destruct a)
    exact ⟨htouched, fun a' => (hinitial a').trans (viewInitial_destruct db a s a')⟩

variable (db) in
theorem viewInitial_destructDead (as : List Address) (s : IntraBlockState) (a : Address) :
    viewInitial db (as.foldl (fun s a =>
      let (dead, s) := isDead db a s
      if dead then destruct db a s else s) s) a = viewInitial db s a := by
  induction as generalizing s with
  | nil => rfl
  | cons a' as ih =>
    refine (ih _).trans ?_
    have hread : viewInitial db (isDead db a' s).2 a = viewInitial db s a :=
      (sameAccounts_isDead db a' s).initial a
    dsimp only
    split_ifs
    · exact (viewInitial_destruct db a' _ a).trans hread
    · exact hread

/-- Of some addresses the dead accounts are destroyed, and nothing else changes. -/
theorem viewAccount_destructDead {as : List Address} {a : Address} {account : Account}
    (h : viewAccount db (as.foldl (fun s a =>
      let (dead, s) := isDead db a s
      if dead then destruct db a s else s) s) a = some account) :
    viewAccount db s a = some account ∧ (a ∈ as → ¬account.IsEmpty) := by
  induction as generalizing s with
  | nil => exact ⟨h, fun hin => absurd hin List.not_mem_nil⟩
  | cons a' as ih =>
    obtain ⟨hview, hrest⟩ := ih h
    dsimp only at hview
    have hread (a'' : Address) : viewAccount db (isDead db a' s).2 a'' = viewAccount db s a'' :=
      (sameAccounts_isDead db a' s).account a''
    split_ifs at hview with hdead
    · rw [viewAccount_destruct, hread] at hview
      split_ifs at hview with heq
      refine ⟨hview, fun hin => ?_⟩
      exact hrest ((List.mem_cons.mp hin).resolve_left heq)
    · rw [hread] at hview
      refine ⟨hview, fun hin hempty => ?_⟩
      rcases List.mem_cons.mp hin with rfl | hin
      · refine hdead ((isDead_fst db a s).mpr fun account' haccount' => ?_)
        cases hview.symm.trans haccount'
        exact hempty
      · exact hrest hin hempty

/-- The touched accounts that are dead are destroyed, and no empty account is left. -/
theorem EmptyTouched.destructTouchedDead (h : EmptyTouched db s) :
    Cleans db s (destructTouchedDead db s) := by
  refine ⟨viewInitial_destructDead db _ s, fun a account haccount hempty => ?_⟩
  obtain ⟨hview, hdead⟩ := viewAccount_destructDead haccount
  exact hdead (HashSet.mem_toList.mpr (h a account hview hempty)) hempty

end Destructions

end IntraBlockState

namespace ExecutionProcessor
open Evm IntraBlockState

variable {B : Type} [StateBuffer B] {x : ExecutionContext} {db : B} {txn : Transaction}
  {sender : Address} {s t : IntraBlockState}

section Transactions

variable (txn sender) in
/-- When the machine is entered, the sender is touched. -/
theorem emptyTouched_buyGas (hs : NoEmptyAccounts db s) :
    (EmptyTouched db (buyGas db txn sender s) ∧
      ∀ a, viewInitial db (buyGas db txn sender s) a = viewInitial db s a) ∧
      HashSet.contains (buyGas db txn sender s).touched sender = true := by
  have hclear : EmptyTouched db (clearJournalAndSubstate s) := fun a account haccount hempty =>
    absurd hempty (hs a account haccount)
  have haccess := (sameAccounts_accessAccount db sender (clearJournalAndSubstate s)).touchesChanges
  unfold buyGas
  dsimp only
  generalize (accessAccount sender (clearJournalAndSubstate s)).2 = s₁ at haccess ⊢
  have hpaid := haccess.trans
    (touchesChanges_subtractFromBalance db sender (gasCost txn.gasLimit txn.gasPrice) s₁)
  have hsender := contains_touch_self sender (updateObject db sender (fun account =>
    { account with balance := account.balance - gasCost txn.gasLimit txn.gasPrice }) s₁)
  change HashSet.contains (subtractFromBalance db sender (gasCost txn.gasLimit txn.gasPrice)
    s₁).touched sender = true at hsender
  generalize subtractFromBalance db sender (gasCost txn.gasLimit txn.gasPrice) s₁ = s₂
    at hpaid hsender ⊢
  have hfrom {s₃ : IntraBlockState} (hnonce : TouchesChanges db s₂ s₃) :
      (EmptyTouched db (accessEntries txn.accessList s₃) ∧
        ∀ a, viewInitial db (accessEntries txn.accessList s₃) a = viewInitial db s a) ∧
        HashSet.contains (accessEntries txn.accessList s₃).touched sender = true := by
    have hall := hnonce.trans (sameAccounts_accessEntries db txn.accessList s₃).touchesChanges
    exact ⟨⟨(hpaid.trans hall).emptyTouched hclear, (hpaid.trans hall).initial⟩,
      hall.touched sender hsender⟩
  cases txn.toAddress with
  | none => exact hfrom (.refl s₂)
  | some recipient =>
    have hread := sameAccounts_accessAccount db recipient s₂
    exact hfrom (hread.touchesChanges.trans
      (touchesChanges_setNonce (.inl (hread.touched sender hsender)) _))

/-- The part of a transaction within the machine. -/
theorem touchesChanges_executeTransaction {evm : Config} {gas : Uint64} {b : Behaviour}
    {m : Machine} {r : CallResult × Machine}
    (hsender : HashSet.contains m.state.touched sender = true)
    (h : Evm.executeTransaction evm db txn sender gas (b.runWith (.own db) evm db) m = some r) :
    TouchesChanges db m.state r.2.state := by
  obtain ⟨hk, hb⟩ := b.touches evm db
  unfold Evm.executeTransaction at h
  dsimp only at h
  split_ifs at h with hto
  · obtain ⟨y, hy, hr⟩ := Option.bind_eq_some_iff.mp h
    cases hr
    have hstep := hb.create hk (.inl hsender) hy
    exact hstep
  · obtain ⟨y, hy, hr⟩ := Option.bind_eq_some_iff.mp h
    cases hr
    have hkind : (transactionMessage txn sender gas).kind = .call := if_neg hto
    have hstep := hb.call hk (fun hother => by
      rw [hkind] at hother
      exact absurd hother (by decide)) hy
    exact hstep

theorem cleans_cleanUp (hrev : .spuriousDragon ≤ x.evm.revision) (h : EmptyTouched db s) :
    Cleans db s (cleanUp x db s) := by
  obtain ⟨htouched, hinitial⟩ := h.destructSuicides
  have hclean : Cleans db s (if .spuriousDragon ≤ x.evm.revision then
      destructTouchedDead db (destructSuicides db s) else destructSuicides db s) := by
    rw [if_pos hrev]
    have hdead := htouched.destructTouchedDead
    exact ⟨fun a => (hdead.initial a).trans (hinitial a), hdead.noEmptyAccounts⟩
  exact ⟨hclean.initial, hclean.noEmptyAccounts⟩

/-- No empty account is left by a transaction. -/
theorem cleans_executeTransaction {b : Behaviour} {p q : ExecutionProcessor}
    {receipt : Receipt} (hrev : .spuriousDragon ≤ x.evm.revision)
    (hp : NoEmptyAccounts db p.state)
    (h : executeTransaction x db txn (b.runWith (.own db) x.evm db) p = some (receipt, q)) :
    Cleans db p.state q.state := by
  obtain ⟨sender, hsender, h⟩ := Option.bind_eq_some_iff.mp h
  obtain ⟨⟨hentered, hinitial⟩, htouched⟩ := emptyTouched_buyGas txn sender hp
  obtain ⟨r, hr, h⟩ := Option.bind_eq_some_iff.mp h
  have hrun := touchesChanges_executeTransaction
    (m := { p.machine with state := buyGas db txn sender p.state }) htouched hr
  cases h
  have hrefunded := hrun.trans (touchesChanges_addToBalance db sender
    (gasCost (refundedGas x.evm.revision txn r.1.gasLeft r.2.state) txn.gasPrice) r.2.state)
  have hpaid := hrefunded.trans (touchesChanges_addToBalance db x.block.header.beneficiary
    (gasCost (txn.gasLimit - refundedGas x.evm.revision txn r.1.gasLeft r.2.state) txn.gasPrice) _)
  have hclean := cleans_cleanUp (x := x) hrev (hpaid.emptyTouched hentered)
  exact ⟨fun a => (hclean.initial a).trans ((hpaid.initial a).trans (hinitial a)),
    hclean.noEmptyAccounts⟩

/-- The transactions in turn. -/
theorem cleans_executeTransactions {b : ℕ → Behaviour} {txns : List Transaction} {i : ℕ}
    {receipts receipts' : List Receipt} {p q : ExecutionProcessor}
    (hrev : .spuriousDragon ≤ x.evm.revision) (hp : NoEmptyAccounts db p.state)
    (h : executeTransactions x db (fun i => (b i).runWith (.own db) x.evm db) txns i receipts p =
      some ((receipts', .ok), q)) : Cleans db p.state q.state := by
  induction txns generalizing i receipts p with
  | nil =>
    cases h
    exact ⟨fun _ => rfl, hp⟩
  | cons txn txns ih =>
    rw [executeTransactions] at h
    cases hv : validateTransaction x db txn p with
    | mk err p₁ =>
      rw [hv] at h
      dsimp only at h
      split_ifs at h with herr
      · cases h
        exact absurd rfl herr
      · rw [not_not.mp herr] at hv
        obtain ⟨sender, -, -, -, -, rfl⟩ := validateTransaction_eq_ok hv
        have hread := (sameAccounts_getNonce db sender p.state).trans
          (sameAccounts_getBalance db sender _)
        obtain ⟨⟨receipt, p₂⟩, htxn, h⟩ := Option.bind_eq_some_iff.mp h
        have hfirst := cleans_executeTransaction (p := p.setState _) hrev
          (hread.noEmptyAccounts hp) htxn
        have hrest := ih hfirst.noEmptyAccounts h
        exact ⟨fun a => (hrest.initial a).trans ((hfirst.initial a).trans (hread.initial a)),
          hrest.noEmptyAccounts⟩

end Transactions

end ExecutionProcessor
end Silkworm
