import Silkworm.FailedMessages
import Silkworm.InterpreterRefinement
import Silkworm.StateCleanliness

/-!
# Invariants of frames

A property of the state that every single change keeps is kept by every frame, however the frames
are nested and whichever of them fail. What the interpreter does in the name of accounts can be
watched, since the account whose code runs is known.
-/

namespace Silkworm.Evm
open IntraBlockState

/-- What an interpreter may do, given the machine. -/
structure Watch where
  call : HostCall → Machine → Bool
  message : Message → Machine → Bool

/-- Everything is allowed. -/
def Watch.none : Watch := ⟨fun _ _ => true, fun _ _ => true⟩

/-- An interpreter acts in the name of the account whose code runs. A delegated call keeps the
sender of the frame that it is made from. -/
def Watch.own : Watch where
  call c m := match c with
    | .setStorage a _ _ | .selfdestruct a _ | .emitLog a _ _ => a = m.addressStack.headD default
    | _ => true
  message message m := message.kind = .delegateCall ∨ message.sender = m.addressStack.headD default

variable {B : Type} [StateBuffer B]

section Watching

variable (watch : Watch) (evm : Config) (db : B)

def Behaviour.runWatched : Behaviour → Interpreter
  | .done statusCode gasLeft outputData => fun m => some ({ statusCode, gasLeft, outputData }, m)
  | .host c next => fun m =>
    if ¬watch.call c m then Option.none
    else do
      let (reply, s) ← c.perform evm db m.state
      (next reply).runWatched { m with state := s }
  | .message msg inner next => fun m =>
    if ¬watch.message msg m then Option.none
    else do
      let (res, m) ← hostCall evm db msg inner.runWatched m
      (next res).runWatched m

theorem Behaviour.runWatched_none (b : Behaviour) : b.runWatched .none evm db = b.run evm db := by
  induction b with
  | done statusCode gasLeft outputData => rfl
  | host c next ih =>
    funext m
    have hallowed : ¬¬Watch.none.call c m = true := not_not.mpr rfl
    rw [runWatched, run]
    dsimp only
    rw [if_neg hallowed]
    simp only [ih]
  | message msg inner next ihi ihn =>
    funext m
    have hallowed : ¬¬Watch.none.message msg m = true := not_not.mpr rfl
    rw [runWatched, run]
    dsimp only
    rw [if_neg hallowed, ihi]
    simp only [ihn]

/-- What is allowed is done as it is without a watch. -/
theorem Behaviour.runWatched_refines (b : Behaviour) :
    Refines (b.runWatched watch evm db) (b.run evm db) := by
  induction b with
  | done statusCode gasLeft outputData => exact fun _ _ hx => hx
  | host c next ih =>
    intro m x hx
    rw [runWatched] at hx
    dsimp only at hx
    split_ifs at hx
    obtain ⟨⟨reply, s⟩, hc, hx⟩ := Option.bind_eq_some_iff.mp hx
    exact Option.bind_eq_some_iff.mpr ⟨⟨reply, s⟩, hc, ih reply _ _ hx⟩
  | message msg inner next ihi ihn =>
    intro m x hx
    rw [runWatched] at hx
    dsimp only at hx
    split_ifs at hx
    obtain ⟨⟨res, m₁⟩, hc, hx⟩ := Option.bind_eq_some_iff.mp hx
    have hcall := ihi.hostCall evm db msg _ _ hc
    exact Option.bind_eq_some_iff.mpr ⟨⟨res, m₁⟩, hcall, ihn res _ _ hx⟩

theorem Behaviour.keeps_runWatched (b : Behaviour) : Keeps evm db (b.runWatched watch evm db) :=
  fun m res m' h => b.keeps evm db m res m' (b.runWatched_refines watch evm db m (res, m') h)

end Watching

section Invariants

variable (evm : Config) (db : B) (Runs : Address → Prop) (I : IntraBlockState → Prop)

/-- A contract may be created where there is neither nonce nor code. -/
def Fresh (s : IntraBlockState) (a : Address) : Prop :=
  ∀ account, viewAccount db s a = some account → account.nonce = 0 ∧ account.codeHash = kEmptyHash

/-- Payments keep the invariant, of whichever accounts. -/
structure KeptByPayments : Prop where
  same : ∀ {s t}, SameAccounts db s t → I s → I t
  balance : ∀ {s f}, (∀ account : Account, (f account).nonce = account.nonce ∧
    (f account).codeHash = account.codeHash) → ∀ a, I s → I (touch a (updateObject db a f s))

/-- The single changes of a frame keep the invariant. Nonces and destructions are those of accounts
that run. -/
structure FrameInvariant : Prop extends KeptByPayments db I where
  nonce : ∀ {s a}, Runs a → ∀ n, I s → I (setNonce db a n s)
  suicide : ∀ {s a}, Runs a → I s → I (recordSuicide a s)
  contract : ∀ {s a}, Fresh db s a → I s → I (createContract db a s)
  deposit : ∀ {s t a code}, Fresh db s a → I s →
    (.spuriousDragon ≤ evm.revision → code.length ≤ Param.kMaxCodeSize) → I t →
      I (setCode db evm.keccak a code t)
  runs_contract : ∀ {s a}, Fresh db s a → I s → Runs a
  runs_code : ∀ {s a}, HasCode db s a → I s → Runs a

/-- Accounts that run are the only ones in whose names the watch lets anything happen. -/
structure Watch.Guards (watch : Watch) : Prop where
  call : ∀ {a beneficiary m}, watch.call (.selfdestruct a beneficiary) m = true →
    Runs (m.addressStack.headD default) → Runs a
  message : ∀ {message m}, watch.message message m = true → message.kind ≠ .delegateCall →
    Runs (m.addressStack.headD default) → Runs message.sender

def KeepsInvariant (interpreter : Interpreter) : Prop :=
  ∀ m x, interpreter m = some x → I m.state → Runs (m.addressStack.headD default) → I x.2.state

theorem Watch.guards_none : Watch.none.Guards fun _ => True := ⟨fun _ _ => trivial, fun _ _ _ => trivial⟩

theorem Watch.guards_own : Watch.own.Guards Runs where
  call h hr := of_decide_eq_true h ▸ hr
  message h hk hr := (of_decide_eq_true h).resolve_left hk ▸ hr

end Invariants

section Reads

variable (db : B)

theorem getCodeHash_fst (a : Address) (s : IntraBlockState) :
    (IntraBlockState.getCodeHash db a s).1 =
      ((viewAccount db s a).map Account.codeHash).getD kEmptyHash := by
  rw [IntraBlockState.getCodeHash, getObject_eq]
  rfl

end Reads

section Frames

variable {evm : Config} {db : B} {Runs : Address → Prop} {I : IntraBlockState → Prop}
  {s : IntraBlockState} {m : Machine} {message : Message} {x : Result × Machine}
  {interpreter : Interpreter}

theorem KeepsInvariant.execute (h : KeepsInvariant Runs I interpreter) {destination : Address}
    (hx : execute destination interpreter m = some x) (hs : I m.state) (hr : Runs destination) :
    I x.2.state := by
  obtain ⟨y, hy, heq⟩ := Option.bind_eq_some_iff.mp hx
  cases heq
  exact h { m with addressStack := destination :: m.addressStack } y hy hs hr

theorem fresh_createState
    (h : ¬(getNonce db (newAddress evm db message s) (announce evm db message s)).1 ≠ 0 ∧
      ¬(presentCodeHash evm db message s).1 ≠ kEmptyHash) :
    Fresh db (createState evm db message s) (newAddress evm db message s) := by
  intro account haccount
  obtain ⟨hnonce, hcode⟩ := h
  rw [not_not] at hnonce hcode
  rw [(cached_createState evm db message s).sameAccounts.account] at haccount
  have hread := (sameAccounts_getNonce db (newAddress evm db message s)
    (announce evm db message s)).account (newAddress evm db message s)
  rw [presentCodeHash] at hcode
  dsimp only at hcode
  rw [if_pos hnonce, getCodeHash_fst, hread, haccount] at hcode
  rw [getNonce_fst, haccount] at hnonce
  exact ⟨hnonce, hcode⟩

namespace KeptByPayments

variable (h : KeptByPayments db I)
include h

theorem addToBalance (a : Address) (v : Uint256) (hs : I s) : I (addToBalance db a v s) :=
  h.balance (f := fun account => { account with balance := account.balance + v })
    (fun _ => ⟨rfl, rfl⟩) a hs

theorem subtractFromBalance (a : Address) (v : Uint256) (hs : I s) :
    I (subtractFromBalance db a v s) :=
  h.balance (f := fun account => { account with balance := account.balance - v })
    (fun _ => ⟨rfl, rfl⟩) a hs

theorem setBalance (a : Address) (v : Uint256) (hs : I s) : I (setBalance db a v s) :=
  h.balance (f := fun account => { account with balance := v }) (fun _ => ⟨rfl, rfl⟩) a hs

end KeptByPayments

namespace FrameInvariant

variable (h : FrameInvariant evm db Runs I)
include h

theorem selfdestruct {a : Address} (hr : Runs a) (beneficiary : Address) (hs : I s) :
    I (selfdestruct db a beneficiary s) := by
  have hrecorded := h.suicide hr hs
  have hread := h.same (sameAccounts_getBalance db a (recordSuicide a s)) hrecorded
  unfold Evm.selfdestruct
  dsimp only
  generalize getBalance db a (recordSuicide a s) = y at hread ⊢
  exact h.setBalance a 0 (h.addToBalance beneficiary y.1 hread)

/-- One host call. -/
theorem perform {c : HostCall} {reply : c.Reply × IntraBlockState}
    (hc : c.perform evm db s = some reply)
    (hr : ∀ a beneficiary, c = .selfdestruct a beneficiary → Runs a) (hs : I s) : I reply.2 := by
  by_cases hother : ∀ a beneficiary, c ≠ .selfdestruct a beneficiary
  · exact h.same (HostCall.sameAccounts hc hother) hs
  · simp only [not_forall, not_not] at hother
    obtain ⟨a, beneficiary, rfl⟩ := hother
    simp only [HostCall.perform, Option.some.injEq] at hc
    subst hc
    dsimp only
    exact h.selfdestruct (hr a beneficiary rfl) beneficiary hs

variable (message) in
theorem transfer (hs : I s) : I (transfer db message s) := by
  unfold Evm.transfer
  split_ifs
  · exact hs
  · exact h.same (sameAccounts_touch db message.destination s) hs
  · exact h.addToBalance message.destination message.value
      (h.subtractFromBalance message.sender message.value hs)

/-- A frame that fails leaves the accounts as they were. -/
theorem leave (hg : Grows db evm.keccak s m.state) (hs : I s) (hm : I m.state) (res : Result) :
    I (leave (takeSnapshot s) res m).2.state := by
  have hreverted := h.same hg.cached_revertToSnapshot.sameAccounts hs
  unfold Evm.leave
  split_ifs
  · exact hm
  · exact hreverted
  · exact hreverted

/-- A call from an account that runs, or from a transaction. -/
theorem call (hi : KeepsInvariant Runs I interpreter) (hk : Keeps evm db interpreter)
    (hr : message.kind = .callCode ∨ message.kind = .delegateCall →
      Runs (callDestination message m))
    (hx : call evm db message interpreter m = some x) (hs : I m.state) : I x.2.state := by
  have hstate := h.same (cached_callState evm db message m.state).sameAccounts hs
  have htransfer := h.transfer message hstate
  have hgrows := transfer_grows evm db message (callState evm db message m.state)
  rw [← callWith_plain] at hx
  cases called_of_callWith hx with
  | insufficient hb => exact h.same (lacksBalance_cached evm db message m.state).sameAccounts hs
  | absent hb => exact hstate
  | precompiled hb ht =>
    rw [transferWith_plain] at ht
    cases ht
    exact h.leave (m := ⟨_, m.addressStack⟩) hgrows hstate htransfer _
  | codeless hb ht =>
    rw [transferWith_plain] at ht
    cases ht
    exact h.same (sameAccounts_getCode db _ _) htransfer
  | executed hb ht hc hrun =>
    rw [transferWith_plain] at ht
    cases ht
    have hread := cached_codeRead evm db message
      (Evm.transfer db message (callState evm db message m.state))
    have hentered := h.same hread.sameAccounts htransfer
    have hdestination : Runs (callDestination message m) := by
      by_cases hkind : message.kind = .callCode ∨ message.kind = .delegateCall
      · exact hr hkind
      · have hself : callDestination message m = message.destination := by
          unfold callDestination
          split
          · exact absurd (.inl ‹_›) hkind
          · exact absurd (.inr ‹_›) hkind
          · rfl
        rw [hself]
        exact h.runs_code (hasCode_of_getCode hc) htransfer
    have hend := hi.execute (m := { m with state := _ }) hrun hentered hdestination
    have hall := (hgrows.trans hread.grows).trans ((hk.execute _) _ _ _ hrun).1
    exact h.leave hall hstate hend _

variable (message) in
theorem enterCreation {a : Address} (hfresh : Fresh db s a) (hs : I s) :
    I (enterCreation evm db message a s) := by
  have hcontract := h.contract hfresh hs
  have hruns := h.runs_contract hfresh hs
  unfold Evm.enterCreation
  dsimp only
  generalize createContract db a s = s₁ at hcontract ⊢
  have hnonce : I (if .spuriousDragon ≤ evm.revision then setNonce db a 1 s₁ else s₁) := by
    split_ifs
    · exact h.nonce hruns 1 hcontract
    · exact hcontract
  exact h.addToBalance a message.value (h.subtractFromBalance message.sender message.value hnonce)

theorem deployed {a : Address} (hfresh : Fresh db s a) (hs : I s) (hx : I x.2.state) :
    I (deployed evm db a x).2.state := by
  unfold Evm.deployed depositCode
  dsimp only
  split_ifs with hfailed hsize
  · exact hx
  · exact hx
  · exact h.deposit hfresh hs (fun hrev => Nat.not_lt.mp fun hlt => hsize ⟨hrev, hlt⟩) hx
  · exact hx
  · exact hx

/-- A creation, once the nonce of its sender has been increased. -/
theorem create (hi : KeepsInvariant Runs I interpreter) (hk : Keeps evm db interpreter)
    (hx : create evm db message interpreter m = some x) (hs : I m.state ∨
      ¬(getBalance db message.sender m.state).1 < message.value)
    (hannounced : I (announce evm db message m.state)) : I x.2.state := by
  have hstate := h.same (cached_createState evm db message m.state).sameAccounts hannounced
  rw [← createWith_plain] at hx
  by_cases hcollision : (getNonce db (newAddress evm db message m.state)
      (announce evm db message m.state)).1 ≠ 0 ∨
        (presentCodeHash evm db message m.state).1 ≠ kEmptyHash
  · unfold createWith at hx
    dsimp only at hx
    split_ifs at hx with hb
    · cases hx
      exact h.same (sameAccounts_getBalance db message.sender m.state)
        (hs.resolve_right (not_not.mpr hb))
    · cases hx
      exact hstate
  have hfresh := fresh_createState (not_or.mp hcollision)
  cases created_of_createWith hx with
  | insufficient hb =>
    exact h.same (sameAccounts_getBalance db message.sender m.state)
      (hs.resolve_right (not_not.mpr hb))
  | collision hb => exact hstate
  | executed hb he hr =>
    rename_i s y
    rw [enterCreationWith_plain] at he
    have hentered := h.enterCreation message hfresh hstate
    have hgrows := enterCreation_grows evm db message (newAddress evm db message m.state)
      (createState evm db message m.state)
    rw [Option.some.inj he] at hentered hgrows
    have hrun := hi.execute (m := { m with state := s }) hr hentered
      (h.runs_contract hfresh hstate)
    have hend := h.deployed (x := y) hfresh hstate hrun
    have hall := hgrows.trans (((hk.execute _) _ _ _ hr).1.trans
      (depositCode_grows evm db (newAddress evm db message m.state) y.1 y.2).1)
    exact h.leave hall hstate hend _

theorem announce (hr : Runs message.sender) (hs : I s) : I (announce evm db message s) := by
  have hbalance := h.same (sameAccounts_getBalance db message.sender s) hs
  unfold Evm.announce
  dsimp only
  generalize (getBalance db message.sender s).2 = s₁ at hbalance ⊢
  have hread := h.same (sameAccounts_getNonce db message.sender s₁) hbalance
  generalize getNonce db message.sender s₁ = y at hread ⊢
  exact h.same (sameAccounts_accessAccount db (contractAddress evm message y.1) _)
    (h.nonce hr (y.1 + 1) hread)

theorem hostCall {watch : Watch} (hw : watch.Guards Runs)
    (hi : KeepsInvariant Runs I interpreter) (hk : Keeps evm db interpreter)
    (hm : watch.message message m = true)
    (hx : hostCall evm db message interpreter m = some x) (hs : I m.state)
    (hr : Runs (m.addressStack.headD default)) : I x.2.state := by
  unfold Evm.hostCall at hx
  split_ifs at hx with hkind
  · obtain ⟨y, hy, hx⟩ := Option.bind_eq_some_iff.mp hx
    cases hx
    have hsender : Runs message.sender := by
      refine hw.message hm (fun hdelegate => ?_) hr
      rw [hdelegate] at hkind
      exact absurd hkind (by decide)
    have hstep := h.create hi hk hy (.inl hs) (h.announce hsender hs)
    exact hstep
  · refine h.call hi hk (fun hkind' => ?_) hx hs
    rcases hkind' with hcallCode | hdelegate
    · rw [callDestination, hcallCode]
      refine hw.message hm (fun hdelegate => ?_) hr
      rw [hdelegate] at hcallCode
      cases hcallCode
    · rw [callDestination, hdelegate]
      exact hr

/-- Every run of an interpreter, by induction over the tree of its calls. -/
theorem behaviour {watch : Watch} (hw : watch.Guards Runs) (b : Behaviour) :
    KeepsInvariant Runs I (b.runWatched watch evm db) := by
  induction b with
  | done statusCode gasLeft outputData =>
    intro m x hx hs _
    cases hx
    exact hs
  | host c next ih =>
    intro m x hx hs hr
    rw [Behaviour.runWatched] at hx
    dsimp only at hx
    split_ifs at hx with hc
    obtain ⟨⟨reply, s⟩, hcall, hnext⟩ := Option.bind_eq_some_iff.mp hx
    have hruns (a beneficiary : Address) (heq : c = .selfdestruct a beneficiary) : Runs a := by
      subst heq
      exact hw.call hc hr
    have hstep := h.perform hcall hruns hs
    exact ih reply { m with state := s } x hnext hstep hr
  | message msg inner next ihi ihn =>
    intro m x hx hs hr
    rw [Behaviour.runWatched] at hx
    dsimp only at hx
    split_ifs at hx with hm
    obtain ⟨⟨res, m₁⟩, hcall, hnext⟩ := Option.bind_eq_some_iff.mp hx
    have hk := inner.keeps_runWatched watch evm db
    have hstep := h.hostCall hw ihi hk hm hcall hs hr
    obtain ⟨-, hstack⟩ := hk.hostCall msg _ _ _ hcall
    exact ihn res m₁ x hnext hstep (hstack ▸ hr)

/-- The part of a transaction within the machine. A creation is entered with the nonce increased. -/
theorem executeTransaction {watch : Watch} (hw : watch.Guards Runs) {b : Behaviour}
    {txn : Transaction} {sender : Address} {gas : Uint64} {r : CallResult × Machine}
    (hcall : txn.toAddress ≠ none → I m.state)
    (hcreate : txn.toAddress = none → (I m.state ∨ ¬(getBalance db sender m.state).1 < txn.value) ∧
      I (Evm.announce evm db (transactionMessage txn sender gas) m.state))
    (hr : executeTransaction evm db txn sender gas (b.runWatched watch evm db) m = some r) :
    I r.2.state := by
  have hi := h.behaviour hw b
  have hk := b.keeps_runWatched watch evm db
  unfold Evm.executeTransaction at hr
  dsimp only at hr
  split_ifs at hr with hto
  · obtain ⟨y, hy, hr⟩ := Option.bind_eq_some_iff.mp hr
    cases hr
    obtain ⟨hs, hannounced⟩ := hcreate (Option.isNone_iff_eq_none.mp hto)
    have hstep := h.create hi hk hy hs hannounced
    exact hstep
  · obtain ⟨y, hy, hr⟩ := Option.bind_eq_some_iff.mp hr
    cases hr
    have hkind : (transactionMessage txn sender gas).kind = .call := if_neg hto
    have hstep := h.call hi hk (fun hother => by
      rw [hkind] at hother
      exact absurd hother (by decide)) hy (hcall fun heq => hto (Option.isNone_iff_eq_none.mpr heq))
    exact hstep

end FrameInvariant

end Frames

end Silkworm.Evm

namespace Silkworm.ExecutionProcessor
open IntraBlockState Evm

variable {B : Type} [StateBuffer B] {x : ExecutionContext} {db : B} {I J : IntraBlockState → Prop}
  {s : IntraBlockState} {txn : Transaction} {sender : Address}

section Destructions

variable (db) in
theorem viewAccount_destructSuicides (s : IntraBlockState) (a : Address) :
    viewAccount db (destructSuicides db s) a =
      if HashSet.contains s.selfDestructs a = true then none else viewAccount db s a := by
  have hfold (as : List Address) (t : IntraBlockState) : viewAccount db (as.foldl (fun s a =>
      destruct db a s) t) a = if a ∈ as then none else viewAccount db t a := by
    induction as generalizing t with
    | nil => simp
    | cons a' as ih =>
      rw [List.foldl_cons, ih, viewAccount_destruct]
      by_cases ha : a = a'
      · simp [ha]
      · simp [ha]
  rw [destructSuicides, hfold]
  simp only [HashSet.mem_toList]

/-- An account that is not empty is not destructed as dead. -/
theorem viewAccount_destructTouchedDead {a : Address} {account : Account}
    (h : viewAccount db s a = some account) (hne : ¬account.IsEmpty) :
    viewAccount db (destructTouchedDead db s) a = some account := by
  rw [destructTouchedDead]
  generalize HashSet.toList s.touched = as
  induction as generalizing s with
  | nil => exact h
  | cons a' as ih =>
    have hread := (sameAccounts_isDead db a' s).account a
    refine ih ?_
    dsimp only
    split_ifs with hdead
    · have hother : a ≠ a' := by
        intro heq
        subst heq
        exact hne ((isDead_fst db a s).mp hdead account h)
      rw [viewAccount_destruct, if_neg hother, hread, h]
    · rw [hread, h]

/-- An account that is neither destructed nor empty is as before. -/
theorem viewAccount_cleanUp {a : Address} {account : Account}
    (h : viewAccount db s a = some account) (hs : HashSet.contains s.selfDestructs a = false)
    (hne : ¬account.IsEmpty) : viewAccount db (cleanUp x db s) a = some account := by
  have hsuicides : viewAccount db (destructSuicides db s) a = some account := by
    rw [viewAccount_destructSuicides, hs, if_neg Bool.false_ne_true, h]
  have hdead : viewAccount db (if .spuriousDragon ≤ x.evm.revision then
      destructTouchedDead db (destructSuicides db s) else destructSuicides db s) a =
        some account := by
    split_ifs
    · exact viewAccount_destructTouchedDead hsuicides hne
    · exact hsuicides
  exact hdead

/-- What is left was there before. -/
theorem viewAccount_of_cleanUp {a : Address} {account : Account}
    (h : viewAccount db (cleanUp x db s) a = some account) :
    viewAccount db s a = some account ∧ HashSet.contains s.selfDestructs a = false := by
  have hsuicides : viewAccount db (destructSuicides db s) a = some account := by
    change viewAccount db (if .spuriousDragon ≤ x.evm.revision then
      destructTouchedDead db (destructSuicides db s) else destructSuicides db s) a = _ at h
    split_ifs at h
    · exact (viewAccount_destructDead h).1
    · exact h
  rw [viewAccount_destructSuicides] at hsuicides
  split_ifs at hsuicides with hs
  exact ⟨hsuicides, Bool.eq_false_iff.mpr hs⟩

variable (x db) in
theorem viewInitial_cleanUp (s : IntraBlockState) (a : Address) :
    viewInitial db (cleanUp x db s) a = viewInitial db s a := by
  have hsuicides : viewInitial db (destructSuicides db s) a = viewInitial db s a := by
    rw [destructSuicides]
    generalize HashSet.toList s.selfDestructs = as
    induction as generalizing s with
    | nil => rfl
    | cons a' as ih => exact (ih _).trans (viewInitial_destruct db a' s a)
  change viewInitial db (if .spuriousDragon ≤ x.evm.revision then
    destructTouchedDead db (destructSuicides db s) else destructSuicides db s) a = _
  split_ifs
  · exact (viewInitial_destructDead db _ _ a).trans hsuicides
  · exact hsuicides

end Destructions

/-- A transaction up to the message that it sends: the gas is paid, and the nonce of the sender of a
call is increased, which may lead from one invariant to another. -/
theorem invariant_buyGas (hI : KeptByPayments db I) (hJ : KeptByPayments db J)
    (hnonce : ∀ t, I t → J (setNonce db sender (txn.nonce + 1) t))
    (hs : I (clearJournalAndSubstate s)) :
    (txn.toAddress ≠ none → J (buyGas db txn sender s)) ∧
      (txn.toAddress = none → I (buyGas db txn sender s)) := by
  have hread := hI.same (sameAccounts_accessAccount db sender (clearJournalAndSubstate s)) hs
  unfold buyGas
  dsimp only
  generalize (accessAccount sender (clearJournalAndSubstate s)).2 = s₁ at hread ⊢
  have hpaid := hI.subtractFromBalance sender (gasCost txn.gasLimit txn.gasPrice) hread
  generalize subtractFromBalance db sender (gasCost txn.gasLimit txn.gasPrice) s₁ = s₂ at hpaid ⊢
  cases txn.toAddress with
  | none =>
    refine ⟨fun hne => absurd rfl hne, fun _ => ?_⟩
    exact hI.same (sameAccounts_accessEntries db txn.accessList s₂) hpaid
  | some recipient =>
    refine ⟨fun _ => ?_, nofun⟩
    have haccessed := hI.same (sameAccounts_accessAccount db recipient s₂) hpaid
    exact hJ.same (sameAccounts_accessEntries db txn.accessList _) (hnonce _ haccessed)

/-- A transaction up to its end, when accounts are destructed. -/
theorem invariant_executeTransaction {Runs : Address → Prop} {watch : Watch}
    (h : FrameInvariant x.evm db Runs J) (hw : watch.Guards Runs) (hI : KeptByPayments db I)
    (hnonce : ∀ t, I t → J (setNonce db sender (txn.nonce + 1) t))
    {b : Behaviour} {p q : ExecutionProcessor} {receipt : Receipt} (hsender : txn.sender = some sender)
    (hp : I (clearJournalAndSubstate p.state))
    (hcreate : txn.toAddress = none → ∀ t, t = buyGas db txn sender p.state → I t →
      (J t ∨ ¬(getBalance db sender t).1 < txn.value) ∧ (getNonce db sender t).1 = txn.nonce)
    (hq : executeTransaction x db txn (b.runWatched watch x.evm db) p = some (receipt, q)) :
    ∃ s, J s ∧ q.state = cleanUp x db s := by
  obtain ⟨sender', hsender', hq⟩ := Option.bind_eq_some_iff.mp hq
  cases hsender.symm.trans hsender'
  obtain ⟨hcalled, hcreated⟩ := invariant_buyGas hI h.toKeptByPayments hnonce hp
  obtain ⟨r, hr, hq⟩ := Option.bind_eq_some_iff.mp hq
  have hrun : J r.2.state := by
    refine h.executeTransaction (m := { p.machine with state := buyGas db txn sender p.state }) hw
      hcalled (fun hto => ?_) hr
    have hbought := hcreated hto
    obtain ⟨hs, heq⟩ := hcreate hto _ rfl hbought
    refine ⟨hs, ?_⟩
    have hbalance := sameAccounts_getBalance db sender (buyGas db txn sender p.state)
    have hread := hI.same hbalance hbought
    have hsame : (getNonce db sender (getBalance db sender (buyGas db txn sender p.state)).2).1 =
        txn.nonce := by
      rw [getNonce_fst, hbalance.account, ← getNonce_fst, heq]
    unfold Evm.announce
    dsimp only [transactionMessage]
    rw [hsame]
    refine h.same (sameAccounts_accessAccount db _ _) (hnonce _ ?_)
    exact hI.same (sameAccounts_getNonce db sender _) hread
  cases hq
  have hrefunded := h.addToBalance sender
    (gasCost (refundedGas x.evm.revision txn r.1.gasLeft r.2.state) txn.gasPrice) hrun
  exact ⟨_, h.addToBalance x.block.header.beneficiary
    (gasCost (txn.gasLimit - refundedGas x.evm.revision txn r.1.gasLeft r.2.state) txn.gasPrice)
    hrefunded, rfl⟩

end Silkworm.ExecutionProcessor
