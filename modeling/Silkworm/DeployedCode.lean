import Silkworm.Replays

/-!
# Deployed code

An account gets code where a contract is created and there is none. From then on the code stays
until the account is destructed, and from Spurious Dragon on it is not larger than allowed.
-/

namespace Silkworm

namespace IntraBlockState
open StateBuffer Evm

variable {B : Type} [StateBuffer B]

section Invariants

variable (db : B) (a : Address) (codeHash : Bytes32) (keccak : Bytes → Bytes32)
  (known : Bytes32 → Prop)

def CodeIs (s : IntraBlockState) : Prop :=
  ∃ account, viewAccount db s a = some account ∧ account.codeHash = codeHash

/-- A code hash is that of no code, one that is known, or that of code of an allowed size. -/
def CodeOrigin (codeHash : Bytes32) : Prop :=
  codeHash = kEmptyHash ∨ known codeHash ∨
    ∃ code : Bytes, code.length ≤ Param.kMaxCodeSize ∧ codeHash = keccak code

def CodeOrigins (s : IntraBlockState) : Prop :=
  ∀ a account, viewAccount db s a = some account → CodeOrigin keccak known account.codeHash

variable {db a codeHash keccak known} {s t : IntraBlockState}

theorem CodeIs.of_eq (h : CodeIs db a codeHash s) (hview : viewAccount db t a = viewAccount db s a) :
    CodeIs db a codeHash t := by
  rw [CodeIs, hview]
  exact h

theorem CodeIs.update {f : Account → Account} (h : CodeIs db a codeHash s)
    (hf : ∀ account, (f account).codeHash = account.codeHash) (a' : Address) :
    CodeIs db a codeHash (updateObject db a' f s) := by
  by_cases ha : a = a'
  · subst ha
    obtain ⟨account, hview, hcode⟩ := h
    refine ⟨f account, ?_, (hf account).trans hcode⟩
    rw [viewAccount_updateObject, if_pos rfl, hview]
    rfl
  · exact h.of_eq ((viewAccount_updateObject db a' f s a).trans (if_neg ha))

/-- An account with code is not where a contract is created. -/
theorem CodeIs.ne_of_fresh (h : CodeIs db a codeHash s) (hne : codeHash ≠ kEmptyHash) {a' : Address}
    (hfresh : Fresh db s a') : a ≠ a' := by
  intro heq
  subst heq
  obtain ⟨account, hview, hcode⟩ := h
  exact hne (hcode.symm.trans (hfresh account hview).2)

theorem CodeOrigins.update {f : Account → Account} (h : CodeOrigins db keccak known s) {a : Address}
    (hf : CodeOrigin keccak known (f ((viewAccount db s a).getD {})).codeHash) :
    CodeOrigins db keccak known (updateObject db a f s) := by
  intro a' account haccount
  rw [viewAccount_updateObject] at haccount
  split_ifs at haccount
  · cases haccount
    exact hf
  · exact h a' account haccount

theorem CodeOrigins.getD (h : CodeOrigins db keccak known s) (a : Address) :
    CodeOrigin keccak known ((viewAccount db s a).getD {}).codeHash := by
  cases hview : viewAccount db s a with
  | none => exact .inl rfl
  | some account => exact h a account hview

theorem viewAccount_recordSuicide (db : B) (a : Address) (s : IntraBlockState) (a' : Address) :
    viewAccount db (recordSuicide a s) a' = viewAccount db s a' := by
  unfold recordSuicide
  dsimp only
  split_ifs <;> rfl

variable (db a) in
theorem codeIs_frameInvariant (evm : Config) (hne : codeHash ≠ kEmptyHash) :
    FrameInvariant evm db (fun _ => True) (CodeIs db a codeHash) where
  same hsame h := h.of_eq (hsame.account a)
  balance hf a' h := (h.update (fun account => (hf account).2) a').of_eq (viewAccount_touch a' _ a)
  nonce _ n h := h.update (f := fun account => { account with nonce := n }) (fun _ => rfl) _
  suicide _ h := h.of_eq (viewAccount_recordSuicide db _ _ a)
  contract {s a'} hfresh h := by
    refine h.of_eq ?_
    rw [viewAccount, viewObject_createContract, if_neg (h.ne_of_fresh hne hfresh), viewAccount]
  deposit {s t a' code} hfresh hs _ ht := by
    have hupdate := viewAccount_updateObject db a'
      (fun account => { account with codeHash := evm.keccak code }) t a
    exact ht.of_eq (hupdate.trans (if_neg (hs.ne_of_fresh hne hfresh)))
  runs_contract _ _ := trivial
  runs_code _ _ := trivial

variable (db known) in
theorem codeOrigins_frameInvariant (evm : Config) (hrev : .spuriousDragon ≤ evm.revision) :
    FrameInvariant evm db (fun _ => True) (CodeOrigins db evm.keccak known) where
  same hsame h a account haccount := h a account ((hsame.account a).symm.trans haccount)
  balance {s f} hf a h a' account haccount := by
    have horigin : CodeOrigin evm.keccak known (f ((viewAccount db s a).getD {})).codeHash := by
      rw [(hf _).2]
      exact h.getD a
    exact h.update horigin a' account ((viewAccount_touch a _ a').symm.trans haccount)
  nonce {s a} _ n h := h.update (f := fun account => { account with nonce := n }) (h.getD a)
  suicide _ h a account haccount := h a account ((viewAccount_recordSuicide db _ _ a).symm.trans haccount)
  contract {s a'} hfresh h a account haccount := by
    rw [viewAccount, viewObject_createContract] at haccount
    split_ifs at haccount
    · -- a new contract has no code yet
      cases haccount
      exact .inl rfl
    · exact h a account haccount
  deposit {s t a' code} _ _ hsize ht := by
    refine CodeOrigins.update (f := fun account => { account with codeHash := evm.keccak code }) ht ?_
    exact .inr (.inr ⟨code, hsize hrev, rfl⟩)
  runs_contract _ _ := trivial
  runs_code _ _ := trivial

end Invariants

end IntraBlockState

namespace ExecutionProcessor
open StateBuffer IntraBlockState Evm

variable {B : Type} [StateBuffer B] {a : Address} {codeHash : Bytes32} {c c' : Chain B}
  {e : ChainEvent} {es es' : List ChainEvent} {x : ExecutionContext} {db : B}

section Chains

def Chain.account (c : Chain B) (a : Address) : Option Account :=
  viewAccount c.db c.processor.state a

def Chain.CodeIs (a : Address) (codeHash : Bytes32) (c : Chain B) : Prop :=
  IntraBlockState.CodeIs c.db a codeHash c.processor.state

/-- What a payment at the beginning or the end of a block keeps is carried over to the next one. -/
theorem keeps_block [LawfulAccounts B] {I : IntraBlockState → Prop} {P : Option Account → Prop}
    (hI : KeptByPayments c.db I) (hview : ∀ s, I s → P (viewAccount c.db s a))
    (hs : I c.processor.state) (hstarts : StartsFrom c.db c.processor.state) :
    P (readAccount ((applyRewards c.context c.db c.processor.state).writeToDb
      c.context.block.header.number c.db).1 a) := by
  have hrewarded := keeps_applyRewards (startsFrom_frameInvariant c.db
    c.context.evm).toKeptByPayments c.context hstarts
  rw [readAccount_writeToDb hrewarded]
  exact hview _ (keeps_applyRewards hI c.context hs)

variable [LawfulAccounts B]

/-- One event leaves the code alone, or the account is gone. -/
theorem Chain.CodeIs.step (hc : c.CodeIs a codeHash) (hne : codeHash ≠ kEmptyHash)
    (hstarts : StartsFrom c.db c.processor.state) (h : c.step e = some c') :
    c'.CodeIs a codeHash ∨ c'.account a = none := by
  cases e with
  | transaction txn b =>
    obtain ⟨p, receipt, q, hv, hq, rfl⟩ := Chain.step_transaction h
    obtain ⟨-, -, -, -, hsame⟩ := sender_of_validateTransaction hv
    obtain ⟨s, hs, hclean⟩ := invariant_validated
      (codeIs_frameInvariant c.db a c.context.evm hne) hv (fun _ _ => trivial)
      (IntraBlockState.CodeIs.of_eq hc (hsame.account a)) hq
    cases hview : viewAccount c.db q.state a with
    | none => exact .inr hview
    | some account =>
      have hafter := hview
      rw [hclean] at hafter
      obtain ⟨hbefore, -⟩ := viewAccount_of_cleanUp hafter
      obtain ⟨account', hview', hcode⟩ := hs
      cases hbefore.symm.trans hview'
      exact .inl ⟨account, hview, hcode⟩
  | block next =>
    cases h
    have hrule := fun db : B => (codeIs_frameInvariant db a c.context.evm hne).toKeptByPayments
    obtain ⟨account, hread, hcode⟩ := keeps_block (P := fun account => ∃ account',
      account = some account' ∧ account'.codeHash = codeHash) (hrule c.db) (fun s hs => hs) hc hstarts
    refine .inl (keeps_enter (hrule _) ⟨account, ?_, hcode⟩)
    rw [viewAccount_initial]
    exact hread

/-- In a run an account that has code keeps it, until it is gone. -/
theorem code_of_chainRun (h : ChainRun B ⟨x, db, enter x db⟩ es c) (h' : ChainRun B c es' c')
    (hc : c.CodeIs a codeHash) (hne : codeHash ≠ kEmptyHash) : c'.CodeIs a codeHash ∨
      ∃ es₁ es₂ c₁, es' = es₁ ++ es₂ ∧ ChainRun B c es₁ c₁ ∧ c₁.account a = none := by
  have hstarts := startsFrom_run h
  clear h
  induction h' with
  | nil c => exact .inl hc
  | cons hstep tail ih =>
    rcases hc.step hne hstarts hstep with hc₁ | hgone
    · rcases ih hc₁ (startsFrom_step hstarts hstep) with hc' | ⟨es₁, es₂, c₁, rfl, hrun, hgone⟩
      · exact .inl hc'
      · exact .inr ⟨_ :: es₁, es₂, c₁, rfl, .cons hstep hrun, hgone⟩
    · exact .inr ⟨[_], _, _, rfl, .cons hstep (.nil _), hgone⟩

variable {keccak : Bytes → Bytes32} {known : Bytes32 → Prop}

variable (keccak) in
/-- The block is one of Spurious Dragon or later. -/
def Limits (y : ExecutionContext) : Prop := .spuriousDragon ≤ y.evm.revision ∧ y.keccak = keccak

theorem codeOrigins_step (hlimits : Limits keccak c.context)
    (hc : CodeOrigins c.db keccak known c.processor.state)
    (hstarts : StartsFrom c.db c.processor.state) (h : c.step e = some c') :
    CodeOrigins c'.db keccak known c'.processor.state := by
  obtain ⟨hrev, rfl⟩ := hlimits
  have hrule := fun db : B => codeOrigins_frameInvariant db known c.context.evm hrev
  cases e with
  | transaction txn b =>
    obtain ⟨p, receipt, q, hv, hq, rfl⟩ := Chain.step_transaction h
    obtain ⟨-, -, -, -, hsame⟩ := sender_of_validateTransaction hv
    obtain ⟨s, hs, hclean⟩ := invariant_validated (hrule c.db) hv (fun _ _ => trivial)
      (fun a account haccount => hc a account ((hsame.account a).symm.trans haccount)) hq
    intro a account haccount
    dsimp only at haccount
    rw [hclean] at haccount
    exact hs a account (viewAccount_of_cleanUp haccount).1
  | block next =>
    cases h
    refine keeps_enter (hrule _).toKeptByPayments fun a account haccount => ?_
    rw [viewAccount_initial] at haccount
    exact keeps_block (P := fun account => ∀ account', account = some account' →
      CodeOrigin c.context.keccak known account'.codeHash) (hrule c.db).toKeptByPayments
      (fun s hs => hs a) hc hstarts account haccount

theorem codeOrigins_run (h : ChainRun B c es c') (hlimits : Limits keccak c.context)
    (hes : ∀ y, .block y ∈ es → Limits keccak y) (hstarts : StartsFrom c.db c.processor.state)
    (hc : CodeOrigins c.db keccak known c.processor.state) :
    CodeOrigins c'.db keccak known c'.processor.state := by
  induction h with
  | nil c => exact hc
  | @cons c c₁ c' e es hstep tail ih =>
    refine ih ?_ (fun y hy => hes y (List.mem_cons_of_mem _ hy)) (startsFrom_step hstarts hstep)
      (codeOrigins_step hlimits hc hstarts hstep)
    cases e with
    | transaction txn b =>
      obtain ⟨-, -, -, -, -, rfl⟩ := Chain.step_transaction hstep
      exact hlimits
    | block next =>
      cases hstep
      exact hes next List.mem_cons_self

/-- In a run from Spurious Dragon on, all code that there is was there before, or is not larger than
a contract may be. -/
theorem codeOrigins_of_chainRun (h : ChainRun B ⟨x, db, enter x db⟩ es c)
    (hlimits : ∀ y, y = x ∨ .block y ∈ es → Limits keccak y) {account : Account}
    (ha : c.account a = some account) : account.codeHash = kEmptyHash ∨
      (∃ a' account', readAccount db a' = some account' ∧ account'.codeHash = account.codeHash) ∨
      ∃ code : Bytes, code.length ≤ 0x6000 ∧ account.codeHash = keccak code := by
  let known (codeHash : Bytes32) : Prop :=
    ∃ a' account', readAccount db a' = some account' ∧ account'.codeHash = codeHash
  have hentered : CodeOrigins db keccak known (enter x db).state := by
    obtain ⟨hrev, rfl⟩ := hlimits x (.inl rfl)
    refine keeps_enter (codeOrigins_frameInvariant db known x.evm hrev).toKeptByPayments ?_
    intro a' account' haccount'
    rw [viewAccount_initial] at haccount'
    exact .inr (.inl ⟨a', account', haccount', rfl⟩)
  exact codeOrigins_run h (hlimits x (.inl rfl)) (fun y hy => hlimits y (.inr hy))
    (startsFrom_enter x db) hentered a account ha

end Chains

section Examples

private def deployer : Address := FixedBytes.replicate 20 7

private def library : Address := FixedBytes.replicate 20 9

private def deployment : Transaction where
  nonce := 1
  gasLimit := 100000
  r := 1
  s := 1
  sender := some deployer

/-- A block of Spurious Dragon. -/
private def deploying : ExecutionContext where
  config := { forkBlock := fun rev => if rev = .spuriousDragon then some 0 else none }
  block := { header := { number := 1, gasLimit := 1000000 } }
  keccak _ := default
  precompiledGas _ _ _ := 0
  precompiledRun _ _ := none
  daoChildren := []
  daoWithdraw := default

private def deployed : MemoryBuffer where
  accounts := HashMap.set (HashMap.set ∅ deployer { nonce := 1, balance := 10 }) library
    { codeHash := default, incarnation := 1 }
  code := HashMap.set ∅ default [0]

private def deployment' : Behaviour := .done .success 90000 [0x60]

private theorem isSome_deployment : (([ChainEvent.transaction deployment deployment'].foldlM
    Chain.step (⟨deploying, deployed, enter deploying deployed⟩ : Chain MemoryBuffer)).bind
      fun c => c.account default).isSome = true := by decide +kernel

/-- A contract is created, and another one stays. -/
theorem code_of_chainRun_library : ∃ c' : Chain MemoryBuffer,
    ChainRun MemoryBuffer ⟨deploying, deployed, enter deploying deployed⟩
      [.transaction deployment deployment'] c' ∧
    (c'.CodeIs library default ∨ ∃ es₁ es₂ c₁, [.transaction deployment deployment'] = es₁ ++ es₂ ∧
      ChainRun MemoryBuffer ⟨deploying, deployed, enter deploying deployed⟩ es₁ c₁ ∧
      c₁.account library = none) := by
  obtain ⟨account, h⟩ := Option.isSome_iff_exists.mp isSome_deployment
  obtain ⟨c', hc', -⟩ := Option.bind_eq_some_iff.mp h
  have hread : (readAccount deployed library).map Account.codeHash = some default := by
    decide +kernel
  obtain ⟨account', hread, hcode⟩ := Option.map_eq_some_iff.mp hread
  have hview : viewAccount deployed (enter deploying deployed).state library = some account' :=
    (viewAccount_initial deployed library).trans hread
  exact ⟨c', .of_foldlM hc', code_of_chainRun (.nil _) (.of_foldlM hc') ⟨account', hview, hcode⟩
    (by decide)⟩

theorem codeOrigins_of_chainRun_deployment : ∃ (c' : Chain MemoryBuffer) (account : Account),
    c'.account default = some account ∧ (account.codeHash = kEmptyHash ∨
      (∃ a' account', readAccount deployed a' = some account' ∧
        account'.codeHash = account.codeHash) ∨
      ∃ code : Bytes, code.length ≤ 0x6000 ∧ account.codeHash = deploying.keccak code) := by
  obtain ⟨account, h⟩ := Option.isSome_iff_exists.mp isSome_deployment
  obtain ⟨c', hc', haccount⟩ := Option.bind_eq_some_iff.mp h
  refine ⟨c', account, haccount, codeOrigins_of_chainRun (.of_foldlM hc') (fun y hy => ?_) haccount⟩
  rcases hy with rfl | hin
  · exact ⟨by decide, rfl⟩
  · simp at hin

end Examples

end ExecutionProcessor
end Silkworm
