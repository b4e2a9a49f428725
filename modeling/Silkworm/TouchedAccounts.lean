import Silkworm.AccountViews
import Silkworm.WatchedExecution

/-!
# Touched accounts

An account that changes is touched, apart from the nonce of an account that creates another one. As
that account runs it has code, or it was touched before. So an empty account has been touched, also
after a frame that failed.
-/

namespace Silkworm

namespace IntraBlockState

variable {B : Type} [StateBuffer B]

section Relations

variable (db : B)

def NoEmptyAccounts (s : IntraBlockState) : Prop :=
  ∀ a account, viewAccount db s a = some account → ¬account.IsEmpty

def EmptyTouched (s : IntraBlockState) : Prop :=
  ∀ a account, viewAccount db s a = some account → account.IsEmpty →
    HashSet.contains s.touched a = true

def HasCode (s : IntraBlockState) (a : Address) : Prop :=
  ∃ account, viewAccount db s a = some account ∧ account.codeHash ≠ kEmptyHash

def TouchedOrCoded (s : IntraBlockState) (a : Address) : Prop :=
  HashSet.contains s.touched a = true ∨ HasCode db s a

/-- Accounts that have changed are touched, or have code as before. What they were at the beginning
of the block is remembered. -/
structure TouchesChanges (s t : IntraBlockState) : Prop where
  initial : ∀ a, viewInitial db t a = viewInitial db s a
  changed : ∀ a, HashSet.contains t.touched a = true ∨ viewAccount db t a = viewAccount db s a ∨
    HasCode db s a ∧ HasCode db t a
  touched : ∀ a, HashSet.contains s.touched a = true → HashSet.contains t.touched a = true

end Relations

variable {db : B} {s t u : IntraBlockState} {a : Address}

theorem HasCode.of_eq (h : HasCode db s a) (hview : viewAccount db t a = viewAccount db s a) :
    HasCode db t a := by
  obtain ⟨account, haccount, hcode⟩ := h
  exact ⟨account, hview.trans haccount, hcode⟩

theorem SameAccounts.touchesChanges (h : SameAccounts db s t) : TouchesChanges db s t :=
  ⟨h.initial, fun a => .inr (.inl (h.account a)), h.touched⟩

theorem TouchesChanges.refl (s : IntraBlockState) : TouchesChanges db s s :=
  (SameAccounts.refl s).touchesChanges

theorem TouchesChanges.trans (h : TouchesChanges db s t) (h' : TouchesChanges db t u) :
    TouchesChanges db s u where
  initial a := (h'.initial a).trans (h.initial a)
  changed a := by
    rcases h'.changed a with htouched | hview' | ⟨hcode', hcode''⟩
    · exact .inl htouched
    · rcases h.changed a with htouched | hview | ⟨hcode, hcode'⟩
      · exact .inl (h'.touched a htouched)
      · exact .inr (.inl (hview'.trans hview))
      · exact .inr (.inr ⟨hcode, hcode'.of_eq hview'⟩)
    · rcases h.changed a with htouched | hview | ⟨hcode, -⟩
      · exact .inl (h'.touched a htouched)
      · exact .inr (.inr ⟨hcode'.of_eq hview.symm, hcode''⟩)
      · exact .inr (.inr ⟨hcode, hcode''⟩)
  touched a ha := h'.touched a (h.touched a ha)

/-- Empty accounts are still touched. -/
theorem TouchesChanges.emptyTouched (h : TouchesChanges db s t) (hs : EmptyTouched db s) :
    EmptyTouched db t := by
  intro a account haccount hempty
  rcases h.changed a with htouched | hview | ⟨-, account', haccount', hcode⟩
  · exact htouched
  · exact h.touched a (hs a account (hview.symm.trans haccount) hempty)
  · cases haccount.symm.trans haccount'
    exact absurd hempty.2.2 hcode

theorem TouchesChanges.touchedOrCoded (h : TouchesChanges db s t) (ha : TouchedOrCoded db s a) :
    TouchedOrCoded db t a := by
  rcases ha with htouched | hcode
  · exact .inl (h.touched a htouched)
  · rcases h.changed a with htouched | hview | ⟨-, hcode'⟩
    · exact .inl htouched
    · exact .inr (hcode.of_eq hview)
    · exact .inr hcode'

/-- An account that is touched in the end may change in between. -/
theorem TouchesChanges.of_change (h : TouchesChanges db t u)
    (hinitial : ∀ a', viewInitial db t a' = viewInitial db s a')
    (hview : ∀ a' ≠ a, viewAccount db t a' = viewAccount db s a')
    (htouched : ∀ a', HashSet.contains s.touched a' = true → HashSet.contains t.touched a' = true)
    (ha : HashSet.contains u.touched a = true) : TouchesChanges db s u where
  initial a' := (h.initial a').trans (hinitial a')
  changed a' := by
    by_cases heq : a' = a
    · subst heq
      exact .inl ha
    · have hsame := hview a' heq
      refine (h.changed a').imp_right (Or.imp (fun h => h.trans hsame) fun ⟨hcode, hcode'⟩ => ?_)
      exact ⟨hcode.of_eq hsame.symm, hcode'⟩
  touched a' ha' := h.touched a' (htouched a' ha')

section Setters

variable (db)

theorem touched_updateObject (a : Address) (f : Account → Account) (s : IntraBlockState) :
    (updateObject db a f s).touched = s.touched := by
  rw [updateObject_eq]

theorem viewInitial_updateObject (a : Address) (f : Account → Account) (s : IntraBlockState)
    (a' : Address) : viewInitial db (updateObject db a f s) a' = viewInitial db s a' := by
  rw [viewInitial, viewObject_updateObject, viewInitial]
  split_ifs with ha
  · subst ha
    rfl
  · rfl

theorem contains_touch_self (a : Address) (s : IntraBlockState) :
    HashSet.contains (touch a s).touched a = true := by
  rw [touch_eq]
  dsimp only
  rw [HashSet.contains_insert]
  simp

/-- Setters of the balance touch the account. -/
theorem touchesChanges_updateAndTouch (a : Address) (f : Account → Account) (s : IntraBlockState) :
    TouchesChanges db s (touch a (updateObject db a f s)) := by
  refine (sameAccounts_touch db a _).touchesChanges.of_change (viewInitial_updateObject db a f s)
    (fun a' ha => ?_) (fun a' ha => ?_) (contains_touch_self a _)
  · rw [viewAccount_updateObject, if_neg ha]
  · rw [touched_updateObject]
    exact ha

theorem touchesChanges_setBalance (a : Address) (v : Uint256) (s : IntraBlockState) :
    TouchesChanges db s (setBalance db a v s) := touchesChanges_updateAndTouch db a _ s

theorem touchesChanges_addToBalance (a : Address) (v : Uint256) (s : IntraBlockState) :
    TouchesChanges db s (addToBalance db a v s) := touchesChanges_updateAndTouch db a _ s

theorem touchesChanges_subtractFromBalance (a : Address) (v : Uint256) (s : IntraBlockState) :
    TouchesChanges db s (subtractFromBalance db a v s) := touchesChanges_updateAndTouch db a _ s

variable {db}

theorem touchesChanges_updateObject (ha : HashSet.contains s.touched a = true)
    (f : Account → Account) : TouchesChanges db s (updateObject db a f s) := by
  refine (TouchesChanges.refl _).of_change (a := a) (viewInitial_updateObject db a f s)
    (fun a' hne => ?_) (fun a' ha' => ?_) ?_
  · rw [viewAccount_updateObject, if_neg hne]
  · rw [touched_updateObject]
    exact ha'
  · rw [touched_updateObject]
    exact ha

theorem touchesChanges_setNonce (ha : TouchedOrCoded db s a) (nonce : Uint64) :
    TouchesChanges db s (setNonce db a nonce s) := by
  rcases ha with htouched | ⟨account, haccount, hcode⟩
  · exact touchesChanges_updateObject htouched _
  · refine ⟨viewInitial_updateObject db a _ s, fun a' => .inr ?_, fun a' ha' => ?_⟩
    · have hview := viewAccount_updateObject db a (fun account => { account with nonce }) s a'
      rw [haccount, Option.getD_some] at hview
      by_cases heq : a' = a
      · subst heq
        rw [if_pos rfl] at hview
        exact .inr ⟨⟨account, haccount, hcode⟩, _, hview, hcode⟩
      · rw [if_neg heq] at hview
        exact .inl hview
    · rw [setNonce, touched_updateObject]
      exact ha'

theorem touchesChanges_setCode {keccak : Bytes → Bytes32}
    (ha : HashSet.contains s.touched a = true) (code : Bytes) :
    TouchesChanges db s (setCode db keccak a code s) := by
  have hupdate : TouchesChanges db s (updateObject db a
      (fun account => { account with codeHash := keccak code }) s) :=
    touchesChanges_updateObject ha _
  refine hupdate.trans (SameAccounts.touchesChanges ?_)
  exact .of_eq rfl rfl rfl

variable (db) in
theorem viewInitial_createContract (a : Address) (s : IntraBlockState) (a' : Address) :
    viewInitial db (createContract db a s) a' = viewInitial db s a' := by
  rw [viewInitial, viewObject_createContract, viewInitial]
  split_ifs with ha
  · subst ha
    cases viewObject db s.objects a' <;> rfl
  · rfl

variable (db) in
theorem touched_createContract (a : Address) (s : IntraBlockState) :
    (createContract db a s).touched = s.touched := by
  unfold createContract
  rw [getObject_eq]
  dsimp only [record]
  split <;> rfl

end Setters

end IntraBlockState

namespace Evm
open IntraBlockState

variable {B : Type} [StateBuffer B] {evm : Config} {db : B} {s t : IntraBlockState}

/-- Messages other than delegated calls are sent by the account whose code runs. -/
def Hooks.own (db : B) : Hooks :=
  { Hooks.plain db with
    admits := fun message m =>
      message.kind = .delegateCall ∨ message.sender = m.addressStack.headD default }

section Host

variable (db) in
theorem touchesChanges_recordSuicide (a : Address) (s : IntraBlockState) :
    TouchesChanges db s (recordSuicide a s) := by
  refine ⟨fun a' => ?_, fun a' => .inr (.inl ?_), fun a' ha' => ?_⟩
  · unfold recordSuicide
    dsimp only
    split_ifs <;> rfl
  · unfold recordSuicide
    dsimp only
    split_ifs <;> rfl
  · unfold recordSuicide
    dsimp only
    split_ifs <;> exact ha'

variable (db) in
theorem touchesChanges_selfdestruct (a beneficiary : Address) (s : IntraBlockState) :
    TouchesChanges db s (selfdestruct db a beneficiary s) := by
  have hread := (touchesChanges_recordSuicide db a s).trans
    (sameAccounts_getBalance db a (recordSuicide a s)).touchesChanges
  unfold selfdestruct
  dsimp only
  generalize getBalance db a (recordSuicide a s) = x at hread ⊢
  exact (hread.trans (touchesChanges_addToBalance db beneficiary x.1 x.2)).trans
    (touchesChanges_setBalance db a 0 _)

/-- One host call. -/
theorem HostCall.touchesChanges {c : HostCall} {reply : c.Reply × IntraBlockState}
    (h : c.perform evm db s = some reply) : TouchesChanges db s reply.2 := by
  by_cases hc : ∀ a beneficiary, c ≠ .selfdestruct a beneficiary
  · exact (HostCall.sameAccounts h hc).touchesChanges
  · simp only [not_forall, not_not] at hc
    obtain ⟨a, beneficiary, rfl⟩ := hc
    simp only [HostCall.perform, Option.some.injEq] at h
    subst h
    dsimp only
    exact touchesChanges_selfdestruct db a beneficiary s

end Host

section Frames

variable {m m' : Machine} {message : Message} {res : Result} {x : Result × Machine}
  {interpreter : Interpreter}

variable (db) in
/-- The account whose code runs. -/
def RunsSettled (m : Machine) : Prop := TouchedOrCoded db m.state (m.addressStack.headD default)

variable (evm db) in
/-- What an interpreter changes is touched, if the account whose code runs is touched or has code. -/
def Touches (interpreter : Interpreter) : Prop :=
  ∀ m x, interpreter m = some x → RunsSettled db m → TouchesChanges db m.state x.2.state

theorem Touches.execute (h : Touches db interpreter) {destination : Address}
    (hx : execute destination interpreter m = some x)
    (hdestination : TouchedOrCoded db m.state destination) :
    TouchesChanges db m.state x.2.state := by
  obtain ⟨y, hy, heq⟩ := Option.bind_eq_some_iff.mp hx
  cases heq
  exact h { m with addressStack := destination :: m.addressStack } y hy hdestination

/-- A frame that fails leaves the accounts as they were. -/
theorem touchesChanges_leave (hg : Grows db evm.keccak s m.state)
    (h : TouchesChanges db s m.state) (res : Result) :
    TouchesChanges db s (leave (takeSnapshot s) res m).2.state := by
  have hreverted := hg.cached_revertToSnapshot.sameAccounts.touchesChanges
  unfold leave
  split_ifs
  · exact h
  · exact hreverted
  · exact hreverted

variable (db message) in
theorem touchesChanges_transfer (s : IntraBlockState) :
    TouchesChanges db s (transfer db message s) := by
  unfold transfer
  split_ifs
  · exact .refl s
  · exact (sameAccounts_touch db message.destination s).touchesChanges
  · exact (touchesChanges_subtractFromBalance db message.sender message.value s).trans
      (touchesChanges_addToBalance db message.destination message.value _)

/-- An account whose code has been read has code. -/
theorem hasCode_of_getCode {a : Address} (h : (getCode db a s).1 ≠ []) : HasCode db s a := by
  unfold getCode at h
  rw [getObject_eq] at h
  dsimp only at h
  rw [HasCode, viewAccount]
  cases hview : (viewObject db s.objects a).bind Object.current with
  | none =>
    rw [hview] at h
    exact absurd rfl h
  | some account =>
    refine ⟨account, rfl, fun hempty => ?_⟩
    rw [hview] at h
    dsimp only at h
    rw [if_pos hempty] at h
    exact h rfl

variable (evm db message) in
theorem touchesChanges_enterCreation (contractAddr : Address) (s : IntraBlockState) :
    TouchesChanges db s (enterCreation evm db message contractAddr s) ∧
      HashSet.contains (enterCreation evm db message contractAddr s).touched contractAddr = true := by
  have hview : ∀ a' ≠ contractAddr, viewAccount db (createContract db contractAddr s) a' =
      viewAccount db s a' := by
    intro a' ha'
    rw [viewAccount, viewObject_createContract, if_neg ha', viewAccount]
  have hinitial := viewInitial_createContract db contractAddr s
  have htouched := touched_createContract db contractAddr s
  unfold enterCreation
  dsimp only
  generalize createContract db contractAddr s = s₁ at hview hinitial htouched ⊢
  have hnonce : (∀ a', viewInitial db (if .spuriousDragon ≤ evm.revision then
        setNonce db contractAddr 1 s₁ else s₁) a' = viewInitial db s a') ∧
      (∀ a' ≠ contractAddr, viewAccount db (if .spuriousDragon ≤ evm.revision then
        setNonce db contractAddr 1 s₁ else s₁) a' = viewAccount db s a') ∧
      (if .spuriousDragon ≤ evm.revision then setNonce db contractAddr 1 s₁ else s₁).touched =
        s.touched := by
    split_ifs
    · refine ⟨fun a' => ?_, fun a' ha' => ?_, ?_⟩
      · rw [setNonce, viewInitial_updateObject, hinitial a']
      · rw [setNonce, viewAccount_updateObject, if_neg ha', hview a' ha']
      · rw [setNonce, touched_updateObject, htouched]
    · exact ⟨hinitial, hview, htouched⟩
  generalize (if .spuriousDragon ≤ evm.revision then setNonce db contractAddr 1 s₁ else s₁) = s₂
    at hnonce ⊢
  have hmoved := (touchesChanges_subtractFromBalance db message.sender message.value s₂).trans
    (touchesChanges_addToBalance db contractAddr message.value _)
  have hcontract := contains_touch_self contractAddr (updateObject db contractAddr
    (fun account => { account with balance := account.balance + message.value })
    (subtractFromBalance db message.sender message.value s₂))
  refine ⟨hmoved.of_change hnonce.1 hnonce.2.1 (fun a' ha' => ?_) hcontract, hcontract⟩
  rw [hnonce.2.2]
  exact ha'

variable (evm) in
/-- The nonce of the sender is the only thing that changes without a touch. -/
theorem touchesChanges_announce (hs : TouchedOrCoded db s message.sender) :
    TouchesChanges db s (announce evm db message s) := by
  have hbalance := (sameAccounts_getBalance db message.sender s).touchesChanges
  unfold announce
  dsimp only
  generalize (getBalance db message.sender s).2 = s₁ at hbalance ⊢
  have hread := hbalance.trans (sameAccounts_getNonce db message.sender s₁).touchesChanges
  generalize getNonce db message.sender s₁ = y at hread ⊢
  have hset := touchesChanges_setNonce (hread.touchedOrCoded hs) (y.1 + 1)
  exact (hread.trans hset).trans
    (sameAccounts_accessAccount db (contractAddress evm message y.1) _).touchesChanges

variable (evm) in
theorem touchesChanges_deployed {contractAddr : Address}
    (h : HashSet.contains x.2.state.touched contractAddr = true) :
    TouchesChanges db x.2.state (deployed evm db contractAddr x).2.state := by
  have hcode : TouchesChanges db x.2.state
      (setCode db evm.keccak contractAddr x.1.outputData x.2.state) :=
    touchesChanges_setCode h x.1.outputData
  unfold deployed depositCode
  dsimp only
  split_ifs
  all_goals first | exact .refl _ | exact hcode

/-- A call, of which the code belongs to an account that was touched or has code. -/
theorem Touches.call (h : Touches db interpreter) (hk : Keeps evm db interpreter)
    (hm : message.kind = .callCode ∨ message.kind = .delegateCall →
      TouchedOrCoded db m.state (callDestination message m))
    (hx : call evm db message interpreter m = some x) : TouchesChanges db m.state x.2.state := by
  have hstate := (cached_callState evm db message m.state).sameAccounts.touchesChanges
  have htransfer := touchesChanges_transfer db message (callState evm db message m.state)
  have hgrows := transfer_grows evm db message (callState evm db message m.state)
  rw [← callWith_plain] at hx
  cases called_of_callWith hx with
  | insufficient hb => exact (lacksBalance_cached evm db message m.state).sameAccounts.touchesChanges
  | absent hb => exact hstate
  | precompiled hb ht =>
    rw [transferWith_plain] at ht
    cases ht
    exact hstate.trans (touchesChanges_leave (m := ⟨_, m.addressStack⟩) hgrows htransfer _)
  | codeless hb ht =>
    rw [transferWith_plain] at ht
    cases ht
    exact hstate.trans (htransfer.trans (sameAccounts_getCode db _ _).touchesChanges)
  | executed hb ht hc hr =>
    rw [transferWith_plain] at ht
    cases ht
    have hread := cached_codeRead evm db message (transfer db message
      (callState evm db message m.state))
    have hentered := htransfer.trans hread.sameAccounts.touchesChanges
    have hdestination : TouchedOrCoded db (codeRead db message (transfer db message
        (callState evm db message m.state))) (callDestination message m) := by
      by_cases hkind : message.kind = .callCode ∨ message.kind = .delegateCall
      · exact (hstate.trans hentered).touchedOrCoded (hm hkind)
      · have hself : callDestination message m = message.destination := by
          unfold callDestination
          split
          · exact absurd (.inl ‹_›) hkind
          · exact absurd (.inr ‹_›) hkind
          · rfl
        rw [hself]
        exact hread.sameAccounts.touchesChanges.touchedOrCoded (.inr (hasCode_of_getCode hc))
    have hrun := h.execute (m := { m with state := _ }) hr hdestination
    have hall := (hgrows.trans hread.grows).trans ((hk.execute _) _ _ _ hr).1
    exact hstate.trans (touchesChanges_leave hall (hentered.trans hrun) _)

/-- A creation by an account that was touched or has code. -/
theorem Touches.create (h : Touches db interpreter) (hk : Keeps evm db interpreter)
    (hm : TouchedOrCoded db m.state message.sender)
    (hx : create evm db message interpreter m = some x) : TouchesChanges db m.state x.2.state := by
  have hstate := (touchesChanges_announce evm hm).trans
    (cached_createState evm db message m.state).sameAccounts.touchesChanges
  rw [← createWith_plain] at hx
  cases created_of_createWith hx with
  | insufficient hb => exact (sameAccounts_getBalance db message.sender m.state).touchesChanges
  | collision hb => exact hstate
  | executed hb he hr =>
    rename_i s y
    rw [enterCreationWith_plain] at he
    obtain ⟨hentered, hcontract⟩ := touchesChanges_enterCreation evm db message
      (newAddress evm db message m.state) (createState evm db message m.state)
    have hgrows := enterCreation_grows evm db message (newAddress evm db message m.state)
      (createState evm db message m.state)
    rw [Option.some.inj he] at hentered hcontract hgrows
    have hrun := h.execute (m := { m with state := s }) hr (.inl hcontract)
    have hdeployed : TouchesChanges db y.2.state
        (deployed evm db (newAddress evm db message m.state) y).2.state :=
      touchesChanges_deployed evm (hrun.touched _ hcontract)
    have hall := hgrows.trans (((hk.execute _) _ _ _ hr).1.trans
      (depositCode_grows evm db (newAddress evm db message m.state) y.1 y.2).1)
    exact hstate.trans (touchesChanges_leave hall (hentered.trans (hrun.trans hdeployed)) _)

variable (evm) in
theorem HostCall.performWith_own (c : HostCall) (s : IntraBlockState) :
    c.performWith (.own db) evm db s = c.perform evm db s := c.performWith_plain evm db s

theorem hostCall_of_hostCallWith_own
    (h : hostCallWith (.own db) evm db message interpreter m = some x) :
    (message.kind = .delegateCall ∨ message.sender = m.addressStack.headD default) ∧
      hostCall evm db message interpreter m = some x := by
  by_cases hadmits : (Hooks.own db).admits message m = true
  · refine ⟨of_decide_eq_true hadmits, ?_⟩
    have hplain : ¬¬(Hooks.plain db).admits message m = true := not_not.mpr rfl
    rw [hostCallWith, if_neg (not_not.mpr hadmits)] at h
    rw [← hostCallWith_plain, hostCallWith, if_neg hplain]
    exact h
  · rw [hostCallWith, if_pos hadmits] at h
    cases h

theorem Touches.hostCall (h : Touches db interpreter) (hk : Keeps evm db interpreter)
    (hm : RunsSettled db m)
    (hsender : message.kind = .delegateCall ∨ message.sender = m.addressStack.headD default)
    (hx : hostCall evm db message interpreter m = some x) :
    TouchesChanges db m.state x.2.state := by
  unfold Evm.hostCall at hx
  split_ifs at hx with hkind
  · obtain ⟨y, hy, hx⟩ := Option.bind_eq_some_iff.mp hx
    cases hx
    have hown : message.sender = m.addressStack.headD default := by
      refine hsender.resolve_left fun hdelegate => ?_
      rw [hdelegate] at hkind
      exact absurd hkind (by decide)
    have hstep := h.create hk (by rw [hown]; exact hm) hy
    exact hstep
  · refine h.call hk (fun hkind' => ?_) hx
    rcases hkind' with hcallCode | hdelegate
    · have hown : message.sender = m.addressStack.headD default := by
        refine hsender.resolve_left fun hdelegate => ?_
        rw [hdelegate] at hcallCode
        cases hcallCode
      rw [callDestination, hcallCode]
      dsimp only
      rw [hown]
      exact hm
    · rw [callDestination, hdelegate]
      exact hm

variable (evm db) in
/-- Every run of an interpreter, by induction over the tree of its calls. -/
theorem Behaviour.touches (b : Behaviour) : Keeps evm db (b.runWith (.own db) evm db) ∧
    Touches db (b.runWith (.own db) evm db) := by
  induction b with
  | done statusCode gasLeft outputData =>
    constructor
    · intro m res m' h
      cases h
      exact ⟨.refl _, rfl⟩
    · intro m x h _
      cases h
      exact .refl _
  | host c next ih =>
    constructor
    · intro m res m' h
      obtain ⟨⟨reply, s⟩, hc, hnext⟩ := Option.bind_eq_some_iff.mp h
      rw [HostCall.performWith_own] at hc
      obtain ⟨hg, hs⟩ := (ih reply).1 _ _ _ hnext
      exact ⟨(HostCall.grows hc).trans hg, hs⟩
    · intro m x h hm
      obtain ⟨⟨reply, s⟩, hc, hnext⟩ := Option.bind_eq_some_iff.mp h
      rw [HostCall.performWith_own] at hc
      have hstep := HostCall.touchesChanges hc
      exact hstep.trans ((ih reply).2 { m with state := s } x hnext (hstep.touchedOrCoded hm))
  | message msg inner next ihi ihn =>
    constructor
    · intro m res m' h
      obtain ⟨⟨res₁, m₁⟩, hc, hnext⟩ := Option.bind_eq_some_iff.mp h
      obtain ⟨hg₁, hs₁⟩ := ihi.1.hostCall msg _ _ _ (hostCall_of_hostCallWith_own hc).2
      obtain ⟨hg₂, hs₂⟩ := (ihn res₁).1 _ _ _ hnext
      exact ⟨hg₁.trans hg₂, hs₂.trans hs₁⟩
    · intro m x h hm
      obtain ⟨⟨res₁, m₁⟩, hc, hnext⟩ := Option.bind_eq_some_iff.mp h
      obtain ⟨hsender, hcall⟩ := hostCall_of_hostCallWith_own hc
      have hstep := ihi.2.hostCall ihi.1 hm hsender hcall
      obtain ⟨-, hs₁⟩ := ihi.1.hostCall msg _ _ _ hcall
      refine hstep.trans ((ihn res₁).2 m₁ x hnext ?_)
      have hsettled := hstep.touchedOrCoded hm
      rw [← hs₁] at hsettled
      exact hsettled

end Frames

end Evm
end Silkworm
