import Silkworm.BalanceConservation
import Silkworm.BlockCleanliness
import Silkworm.FrameInvariants

/-!
# Nonces of senders

An account without code does not run, and no contract is created where the nonce is not 0. So the
nonce of such an account changes with its own transactions only, by one each.
-/

namespace Silkworm.IntraBlockState
open StateBuffer

variable {B : Type} [StateBuffer B]

section Settled

variable (db : B) (a : Address) (n : Uint64)

/-- The account has the nonce and no code. One that does not exist counts as empty. -/
structure Settled (s : IntraBlockState) : Prop where
  nonce : ((viewAccount db s a).getD {}).nonce = n
  codeHash : ((viewAccount db s a).getD {}).codeHash = kEmptyHash

/-- A settled account that is not to be destructed. -/
def Rests (s : IntraBlockState) : Prop :=
  Settled db a n s ∧ HashSet.contains s.selfDestructs a = false

/-- What the accounts were at the beginning of the block is what the buffer has. -/
def StartsFrom (s : IntraBlockState) : Prop := ∀ a, viewInitial db s a = readAccount db a

variable {db a n} {s t : IntraBlockState}

theorem Settled.of_eq (h : Settled db a n s) (hview : viewAccount db t a = viewAccount db s a) :
    Settled db a n t := ⟨hview ▸ h.nonce, hview ▸ h.codeHash⟩

theorem Settled.update {f : Account → Account} (h : Settled db a n s)
    (hf : ∀ account, (f account).nonce = account.nonce ∧ (f account).codeHash = account.codeHash)
    (a' : Address) : Settled db a n (updateObject db a' f s) := by
  have hview := viewAccount_updateObject db a' f s a
  by_cases ha : a = a'
  · subst ha
    rw [if_pos rfl] at hview
    constructor
    · rw [hview, Option.getD_some, (hf _).1, h.nonce]
    · rw [hview, Option.getD_some, (hf _).2, h.codeHash]
  · rw [if_neg ha] at hview
    exact h.of_eq hview

theorem Settled.setNonce (h : Settled db a n s) (n' : Uint64) :
    Settled db a n' (setNonce db a n' s) := by
  have hview := viewAccount_updateObject db a (fun account => { account with nonce := n' }) s a
  rw [if_pos rfl] at hview
  constructor
  · rw [IntraBlockState.setNonce, hview]
    rfl
  · rw [IntraBlockState.setNonce, hview]
    exact h.codeHash

theorem Settled.setNonce_ne (h : Settled db a n s) {a' : Address} (hne : a' ≠ a) (n' : Uint64) :
    Settled db a n (IntraBlockState.setNonce db a' n' s) := by
  refine h.of_eq ?_
  rw [IntraBlockState.setNonce, viewAccount_updateObject, if_neg (Ne.symm hne)]

/-- With a nonce the account exists. -/
theorem Settled.exists_account (h : Settled db a n s) (hn : n ≠ 0) :
    ∃ account, viewAccount db s a = some account ∧ account.nonce = n ∧
      account.codeHash = kEmptyHash := by
  cases hview : viewAccount db s a with
  | none =>
    have hnonce := h.nonce
    rw [hview] at hnonce
    exact absurd hnonce.symm hn
  | some account =>
    have hnonce := h.nonce
    have hcode := h.codeHash
    rw [hview] at hnonce hcode
    exact ⟨account, rfl, hnonce, hcode⟩

variable (db) in
theorem getNonce_eq_nonce (a : Address) (s : IntraBlockState) :
    (getNonce db a s).1 = ((viewAccount db s a).getD {}).nonce := by
  rw [Evm.getNonce_fst]
  cases viewAccount db s a <;> rfl

theorem selfDestructs_setNonce (a : Address) (n : Uint64) (s : IntraBlockState) :
    (setNonce db a n s).selfDestructs = s.selfDestructs := by
  rw [setNonce, updateObject_eq]

variable (db a n) in
theorem settled_keptByPayments : Evm.KeptByPayments db (Settled db a n) where
  same hsame h := h.of_eq (hsame.account a)
  balance hf a' h := (h.update hf a').of_eq (viewAccount_touch a' _ a)

variable (db a n) in
theorem rests_keptByPayments : Evm.KeptByPayments db (Rests db a n) where
  same hsame h := ⟨(settled_keptByPayments db a n).same hsame h.1, (hsame.selfDestructs a).trans h.2⟩
  balance {s f} hf a' h := by
    refine ⟨(settled_keptByPayments db a n).balance hf a' h.1, ?_⟩
    rw [selfDestructs_updateAndTouch]
    exact h.2

/-- An account that rests is not where a contract is created. -/
theorem Rests.ne_of_fresh (h : Rests db a n s) (hn : n ≠ 0) {a' : Address}
    (hfresh : Evm.Fresh db s a') : a' ≠ a := by
  rintro rfl
  obtain ⟨account, hview, hnonce, -⟩ := h.1.exists_account hn
  exact hn (hnonce.symm.trans (hfresh account hview).1)

variable (db a) in
theorem rests_frameInvariant (evm : Evm.Config) (hn : n ≠ 0) :
    Evm.FrameInvariant evm db (· ≠ a) (Rests db a n) where
  toKeptByPayments := rests_keptByPayments db a n
  nonce hne n' h := ⟨h.1.setNonce_ne hne n', by rw [selfDestructs_setNonce]; exact h.2⟩
  suicide {s a'} hne h := by
    refine ⟨h.1.of_eq ?_, ?_⟩
    · unfold recordSuicide
      dsimp only
      split_ifs <;> rfl
    · have hinsert : HashSet.contains (HashSet.insert s.selfDestructs a') a = false := by
        rw [HashSet.contains_insert, h.2, Bool.or_false]
        exact decide_eq_false (Ne.symm hne)
      unfold recordSuicide
      dsimp only
      split_ifs <;> exact hinsert
  contract {s a'} hfresh h := by
    have hne := h.ne_of_fresh hn hfresh
    refine ⟨h.1.of_eq ?_, ?_⟩
    · rw [viewAccount, viewObject_createContract, if_neg (Ne.symm hne), viewAccount]
    · unfold createContract
      rw [getObject_eq]
      dsimp only [record]
      split <;> exact h.2
  deposit {s t a' code} hfresh hs _ ht := by
    have hne := hs.ne_of_fresh hn hfresh
    refine ⟨ht.1.of_eq ?_, ?_⟩
    · refine (viewAccount_updateObject db a'
        (fun account => { account with codeHash := evm.keccak code }) t a).trans ?_
      exact if_neg (Ne.symm hne)
    · have hset : (setCode db evm.keccak a' code t).selfDestructs = t.selfDestructs := by
        rw [setCode, updateObject_eq]
      rw [hset]
      exact ht.2
  runs_contract hfresh h := h.ne_of_fresh hn hfresh
  runs_code {s a'} hcode h := by
    rintro rfl
    obtain ⟨account, hview, hne⟩ := hcode
    have hsettled := h.1.codeHash
    rw [hview] at hsettled
    exact hne hsettled

variable (db) in
theorem startsFrom_frameInvariant (evm : Evm.Config) :
    Evm.FrameInvariant evm db (fun _ => True) (StartsFrom db) where
  same hsame h a := (hsame.initial a).trans (h a)
  balance {s f} _ a' h a := by
    rw [(sameAccounts_touch db a' _).initial, viewInitial_updateObject]
    exact h a
  nonce {s a'} _ n h a := (viewInitial_updateObject db a' _ s a).trans (h a)
  suicide {s a'} _ h a := ((Evm.touchesChanges_recordSuicide db a' s).initial a).trans (h a)
  contract {s a'} _ h a := (viewInitial_createContract db a' s a).trans (h a)
  deposit {s t a' code} _ _ _ h a := (viewInitial_updateObject db a'
    (fun account => { account with codeHash := evm.keccak code }) t a).trans (h a)
  runs_contract _ _ := trivial
  runs_code _ _ := trivial

variable (db) in
theorem startsFrom_empty : StartsFrom db {} := by
  intro a
  change ((readAccount db a).map fun account => (⟨some account, some account⟩ : Object)).bind
    Object.initial = readAccount db a
  cases readAccount db a <;> rfl

end Settled

end Silkworm.IntraBlockState

namespace Silkworm.ExecutionProcessor
open IntraBlockState Evm

variable {B : Type} [StateBuffer B] {x : ExecutionContext} {db : B} {a : Address} {n : Uint64}
  {s : IntraBlockState} {txn : Transaction} {sender : Address}

section Transactions

theorem rests_start (h : Settled db a n s) : Rests db a n (clearJournalAndSubstate s) :=
  ⟨h.of_eq rfl, rfl⟩

/-- A settled account with a nonce is not destructed as a dead one. -/
theorem Settled.cleanUp (h : Rests db a n s) (hn : n ≠ 0) : Settled db a n (cleanUp x db s) := by
  obtain ⟨account, hview, hnonce, hcode⟩ := h.1.exists_account hn
  have hafter := viewAccount_cleanUp (x := x) hview h.2 fun hempty => hn (hnonce ▸ hempty.1)
  constructor
  · rw [hafter]
    exact hnonce
  · rw [hafter]
    exact hcode

/-- What is left of the balance after the gas has been paid for suffices for the value. -/
theorem value_le_buyGas (h : txn.gasLimit.toNat * txn.gasPrice.toNat + txn.value.toNat ≤
    (balanceOf db s sender).toNat) :
    txn.value ≤ (getBalance db sender (buyGas db txn sender s)).1 := by
  have hlt := (balanceOf db s sender).isLt
  have hcost : (gasCost txn.gasLimit txn.gasPrice).toNat =
      txn.gasLimit.toNat * txn.gasPrice.toNat := toNat_gasCost (by omega)
  have hrest := (sameFunds_afterPurchase db txn sender (subtractFromBalance db sender
    (gasCost txn.gasLimit txn.gasPrice) (IntraBlockState.accessAccount sender
      (clearJournalAndSubstate s)).2)).balance sender
  have hread := (sameFunds_accessAccount db sender (clearJournalAndSubstate s)).balance sender
  have hleft : (getBalance db sender (buyGas db txn sender s)).1 =
      balanceOf db s sender - gasCost txn.gasLimit txn.gasPrice := by
    rw [getBalance_eq_balanceOf]
    refine hrest.trans ?_
    rw [balanceOf_subtractFromBalance, if_pos rfl, hread]
    rfl
  rw [hleft, BitVec.le_def, BitVec.toNat_sub_of_le (by rw [BitVec.le_def]; omega), hcost]
  omega

/-- The nonce of a sender that creates a contract has not been increased when the machine is
entered. -/
theorem getNonce_buyGas (hto : txn.toAddress = none) :
    (getNonce db sender (buyGas db txn sender s)).1 = (getNonce db sender s).1 := by
  let I (t : IntraBlockState) : Prop :=
    ((viewAccount db t sender).getD {}).nonce = ((viewAccount db s sender).getD {}).nonce
  have hI : KeptByPayments db I := by
    constructor
    · intro t u hsame ht
      exact (congrArg (fun account => (account.getD {}).nonce) (hsame.account sender)).trans ht
    · intro t f hf a ht
      change ((viewAccount db (touch a (updateObject db a f t)) sender).getD {}).nonce = _
      rw [viewAccount_touch, viewAccount_updateObject]
      split_ifs with heq
      · subst heq
        exact (hf _).1.trans ht
      · exact ht
  have hbought : I (buyGas db txn sender s) := (invariant_buyGas (J := fun _ => True) hI
    ⟨fun _ _ => trivial, fun _ _ _ => trivial⟩ (fun _ _ => trivial) rfl).2 hto
  rw [getNonce_eq_nonce, getNonce_eq_nonce]
  exact hbought

variable {b : Behaviour} {p p' q : ExecutionProcessor} {receipt : Receipt}

/-- What a transaction that is valid has been checked for, in terms of the accounts. -/
theorem sender_of_validateTransaction (h : validateTransaction x db txn p = (.ok, p')) :
    ∃ sender, txn.sender = some sender ∧
      ((viewAccount db p'.state sender).getD {}).nonce = txn.nonce ∧
      txn.gasLimit.toNat * txn.gasPrice.toNat + txn.value.toNat ≤
        (balanceOf db p'.state sender).toNat ∧
      SameAccounts db p.state p'.state := by
  obtain ⟨sender, hsender, hnonce, hbalance, -, rfl⟩ := validateTransaction_eq_ok h
  have hfirst := sameAccounts_getNonce db sender p.state
  have hsecond := sameAccounts_getBalance db sender (getNonce db sender p.state).2
  have hread := hfirst.trans hsecond
  refine ⟨sender, hsender, ?_, ?_, hread⟩
  · rw [← hnonce, getNonce_eq_nonce]
    exact congrArg (fun account => (account.getD {}).nonce) (hread.account sender)
  · rw [getBalance_eq_balanceOf, ← hsecond.sameFunds.balance] at hbalance
    exact hbalance

/-- A transaction that is valid, and an invariant of the accounts that run, its sender among them. -/
theorem invariant_validated {Runs : Address → Prop} {I : IntraBlockState → Prop}
    (h : FrameInvariant x.evm db Runs I) (hp : validateTransaction x db txn p = (.ok, p'))
    (hr : ∀ sender, txn.sender = some sender → Runs sender)
    (hs : I (clearJournalAndSubstate p'.state))
    (hq : executeTransaction x db txn (b.runWatched .own x.evm db) p' = some (receipt, q)) :
    ∃ s, I s ∧ q.state = cleanUp x db s := by
  obtain ⟨sender, hsender, hnonce, -, -⟩ := sender_of_validateTransaction hp
  refine invariant_executeTransaction h (Watch.guards_own Runs) h.toKeptByPayments
    (fun t ht => h.nonce (hr sender hsender) _ ht) hsender hs (fun hto t ht hI => ⟨.inl hI, ?_⟩) hq
  rw [ht, getNonce_buyGas hto, getNonce_eq_nonce, hnonce]

/-- A transaction increases the nonce of its sender by one, and the nonce of no other account that
is settled. -/
theorem settled_executeTransaction (hs : Settled db a n p.state) (hn : txn.sender ≠ some a → n ≠ 0)
    (hsucc : txn.sender = some a → n + 1 ≠ 0) (hp : validateTransaction x db txn p = (.ok, p'))
    (hq : executeTransaction x db txn (b.runWatched .own x.evm db) p' = some (receipt, q)) :
    (txn.sender = some a → txn.nonce = n) ∧
      Settled db a (if txn.sender = some a then n + 1 else n) q.state := by
  obtain ⟨sender, hsender, hnonce, hbalance, hsame⟩ := sender_of_validateTransaction hp
  have hs' := hs.of_eq (hsame.account a)
  by_cases ha : txn.sender = some a
  · rw [if_pos ha]
    cases hsender.symm.trans ha
    have hvalue := value_le_buyGas hbalance
    have hcreated (hto : txn.toAddress = none) :
        (getNonce db a (buyGas db txn a p'.state)).1 = txn.nonce := by
      rw [getNonce_buyGas hto, getNonce_eq_nonce, hnonce]
    have heq : txn.nonce = n := hnonce.symm.trans hs'.nonce
    have hincreased (t : IntraBlockState) (ht : Rests db a n t) :
        Rests db a (n + 1) (setNonce db a (txn.nonce + 1) t) := by
      rw [heq]
      exact ⟨ht.1.setNonce _, (congrArg (HashSet.contains · a) (selfDestructs_setNonce ..)).trans ht.2⟩
    refine ⟨fun _ => heq, ?_⟩
    obtain ⟨s, hrests, hclean⟩ := invariant_executeTransaction
      (rests_frameInvariant db a x.evm (hsucc ha)) (Watch.guards_own (· ≠ a))
      (rests_keptByPayments db a n) hincreased hsender (rests_start hs')
      (fun hto t ht _ => ht ▸ ⟨.inr (BitVec.not_lt.mpr hvalue), hcreated hto⟩) hq
    rw [hclean]
    exact Settled.cleanUp hrests (hsucc ha)
  · rw [if_neg ha]
    have hne (sender : Address) (hsender : txn.sender = some sender) : sender ≠ a := fun heq =>
      ha (heq ▸ hsender)
    refine ⟨fun heq => absurd heq ha, ?_⟩
    obtain ⟨s, hrests, hclean⟩ := invariant_validated (rests_frameInvariant db a x.evm (hn ha)) hp hne
      (rests_start hs') hq
    rw [hclean]
    exact Settled.cleanUp hrests (hn ha)

theorem startsFrom_executeTransaction (hs : StartsFrom db p.state)
    (hp : validateTransaction x db txn p = (.ok, p'))
    (hq : executeTransaction x db txn (b.runWatched .own x.evm db) p' = some (receipt, q)) :
    StartsFrom db q.state := by
  obtain ⟨-, -, -, -, hsame⟩ := sender_of_validateTransaction hp
  obtain ⟨s, hstarts, hclean⟩ := invariant_validated (startsFrom_frameInvariant db x.evm) hp
    (fun _ _ => trivial) (fun a => (hsame.initial a).trans (hs a)) hq
  rw [hclean]
  exact fun a => (viewInitial_cleanUp x db s a).trans (hstarts a)

end Transactions

end Silkworm.ExecutionProcessor
