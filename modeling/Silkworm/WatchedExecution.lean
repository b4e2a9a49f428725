import Silkworm.EvmFrames
import Silkworm.ExecutionProcessor

/-!
# Watched executions

The machine and the processor once more, with the arithmetic on balances and the admission of
messages as parameters. With those of the code they are the machine and the processor; with
checks in their place an execution stops where a check fails. The ways in which a call or a
creation can end are listed once.
-/

namespace Silkworm.Evm
open StateBuffer IntraBlockState

/-- What an execution is watched with. The balance that an account leaves to itself is added
on its own. -/
structure Hooks where
  multiply : Uint64 → Uint256 → Option Uint256
  add : Address → Uint256 → IntraBlockState → Option IntraBlockState
  addOwn : Address → Uint256 → IntraBlockState → Option IntraBlockState
  subtract : Address → Uint256 → IntraBlockState → Option IntraBlockState
  admits : Message → Machine → Bool

variable {B : Type} [StateBuffer B]

/-- Nothing is checked. -/
def Hooks.plain (db : B) : Hooks where
  multiply gas gasPrice := some (ExecutionProcessor.gasCost gas gasPrice)
  add a addend s := some (addToBalance db a addend s)
  addOwn a addend s := some (addToBalance db a addend s)
  subtract a subtrahend s := some (subtractFromBalance db a subtrahend s)
  admits _ _ := true

section Machines

variable (hooks : Hooks) (evm : Config) (db : B)

def selfdestructWith (a beneficiary : Address) (s : IntraBlockState) : Option IntraBlockState := do
  let s := recordSuicide a s
  let (balance, s) := getBalance db a s
  let s ← if beneficiary = a then hooks.addOwn beneficiary balance s
    else hooks.add beneficiary balance s
  some (setBalance db a 0 s)

def HostCall.performWith (c : HostCall) (s : IntraBlockState) :
    Option (c.Reply × IntraBlockState) :=
  match c with
  | .selfdestruct a beneficiary => do
    let s ← selfdestructWith hooks db a beneficiary s
    some ((), s)
  | c => c.perform evm db s

def transferWith (message : Message) (s : IntraBlockState) : Option IntraBlockState :=
  if message.kind ≠ .call then some s
  else if message.isStatic then some (touch message.destination s)
  else do
    let s ← hooks.subtract message.sender message.value s
    hooks.add message.destination message.value s

def enterCreationWith (message : Message) (contractAddr : Address) (s : IntraBlockState) :
    Option IntraBlockState := do
  let s := createContract db contractAddr s
  let s := if .spuriousDragon ≤ evm.revision then setNonce db contractAddr 1 s else s
  let s ← hooks.subtract message.sender message.value s
  hooks.add contractAddr message.value s

/-- The address of the new contract, given the state in which the creation starts. -/
def newAddress (message : Message) (s : IntraBlockState) : Address :=
  contractAddress evm message (getNonce db message.sender (getBalance db message.sender s).2).1

/-- The hash of the code at the address of the new contract, if its nonce is 0. -/
def presentCodeHash (message : Message) (s : IntraBlockState) : Bytes32 × IntraBlockState :=
  let (contractNonce, s₁) := getNonce db (newAddress evm db message s) (announce evm db message s)
  if contractNonce = 0 then IntraBlockState.getCodeHash db (newAddress evm db message s) s₁
  else (kEmptyHash, s₁)

/-- The state of a creation before its frame. -/
def createState (message : Message) (s : IntraBlockState) : IntraBlockState :=
  (presentCodeHash evm db message s).2

/-- The end of a deployment. -/
def deployed (contractAddr : Address) (x : Result × Machine) : Result × Machine :=
  let (res, m) := depositCode evm db contractAddr x.1 x.2
  (if res.statusCode = .success then { res with createAddress := contractAddr } else res, m)

def createWith (message : Message) (interpreter : Interpreter) : Interpreter := fun m =>
  let res : Result := { statusCode := .success, gasLeft := message.gas }
  if (getBalance db message.sender m.state).1 < message.value then
    some ({ res with statusCode := .insufficientBalance },
      { m with state := (getBalance db message.sender m.state).2 })
  else
    let contractAddr := newAddress evm db message m.state
    let s := createState evm db message m.state
    if (getNonce db contractAddr (announce evm db message m.state)).1 ≠ 0 ∨
        (presentCodeHash evm db message m.state).1 ≠ kEmptyHash then
      some ({ res with statusCode := .invalidInstruction, gasLeft := 0 }, { m with state := s })
    else do
      let s' ← enterCreationWith hooks evm db message contractAddr s
      let x ← execute contractAddr interpreter { m with state := s' }
      let x := deployed evm db contractAddr x
      some (leave (takeSnapshot s) x.1 x.2)

/-- The state of a call before its frame, in which caches have been filled. -/
def callState (message : Message) (s : IntraBlockState) : IntraBlockState :=
  (lacksCallee evm db message (lacksBalance db message s).2).2

/-- The state in which the code of a call starts. -/
def codeRead (message : Message) (s : IntraBlockState) : IntraBlockState :=
  (IntraBlockState.getCodeHash db message.destination (getCode db message.destination s).2).2

def callWith (message : Message) (interpreter : Interpreter) : Interpreter := fun m =>
  let res : Result := { statusCode := .success, gasLeft := message.gas }
  if (lacksBalance db message m.state).1 then
    some ({ res with statusCode := .insufficientBalance },
      { m with state := (lacksBalance db message m.state).2 })
  else
    let s := callState evm db message m.state
    if (lacksCallee evm db message (lacksBalance db message m.state).2).1 then
      some (res, { m with state := s })
    else do
      let s' ← transferWith hooks message s
      if isPrecompiled evm message.destination then
        some (leave (takeSnapshot s) (callPrecompiled evm message) { m with state := s' })
      else if (getCode db message.destination s').1 = [] then
        some (res, { m with state := (getCode db message.destination s').2 })
      else
        let x ← execute (callDestination message m) interpreter
          { m with state := codeRead db message s' }
        some (leave (takeSnapshot s) x.1 x.2)

def hostCallWith (message : Message) (interpreter : Interpreter) : Interpreter := fun m =>
  if ¬hooks.admits message m then none
  else if message.kind = .create ∨ message.kind = .create2 then do
    let (res, m) ← createWith hooks evm db message interpreter m
    some (if res.statusCode = .revert then res else { res with outputData := [] }, m)
  else callWith hooks evm db message interpreter m

def Behaviour.runWith : Behaviour → Interpreter
  | .done statusCode gasLeft outputData => fun m => some ({ statusCode, gasLeft, outputData }, m)
  | .host c next => fun m => do
    let (reply, s) ← c.performWith hooks evm db m.state
    (next reply).runWith { m with state := s }
  | .message msg inner next => fun m => do
    let (res, m) ← hostCallWith hooks evm db msg inner.runWith m
    (next res).runWith m

def executeTransactionWith (txn : Transaction) (sender : Address) (gas : Uint64)
    (interpreter : Interpreter) (m : Machine) : Option (CallResult × Machine) := do
  let message := transactionMessage txn sender gas
  let (res, m) ← if txn.toAddress.isNone then createWith hooks evm db message interpreter m
    else callWith hooks evm db message interpreter m
  some (⟨res.statusCode, BitVec.ofInt 64 res.gasLeft, res.outputData⟩, m)

end Machines

section Plain

variable (evm : Config) (db : B)

theorem selfdestructWith_plain (a beneficiary : Address) (s : IntraBlockState) :
    selfdestructWith (.plain db) db a beneficiary s = some (selfdestruct db a beneficiary s) := by
  unfold selfdestructWith
  dsimp only
  split_ifs <;> rfl

theorem HostCall.performWith_plain (c : HostCall) (s : IntraBlockState) :
    c.performWith (.plain db) evm db s = c.perform evm db s := by
  cases c with
  | selfdestruct a beneficiary =>
    change (do let s ← selfdestructWith (.plain db) db a beneficiary s; some ((), s)) = _
    rw [selfdestructWith_plain]
    rfl
  | _ => rfl

theorem transferWith_plain (message : Message) (s : IntraBlockState) :
    transferWith (.plain db) message s = some (transfer db message s) := by
  unfold transferWith transfer
  split_ifs <;> rfl

theorem enterCreationWith_plain (message : Message) (contractAddr : Address) (s : IntraBlockState) :
    enterCreationWith (.plain db) evm db message contractAddr s =
      some (enterCreation evm db message contractAddr s) := rfl

theorem createWith_plain (message : Message) (interpreter : Interpreter) :
    createWith (.plain db) evm db message interpreter = create evm db message interpreter := by
  funext m
  unfold createWith create createState presentCodeHash newAddress announce deployed
  dsimp only
  simp only [enterCreationWith_plain, Option.bind_eq_bind, Option.bind_some]

theorem callWith_plain (message : Message) (interpreter : Interpreter) :
    callWith (.plain db) evm db message interpreter = call evm db message interpreter := by
  funext m
  unfold callWith call
  simp only [transferWith_plain]
  rfl

theorem hostCallWith_plain (message : Message) (interpreter : Interpreter) :
    hostCallWith (.plain db) evm db message interpreter = hostCall evm db message interpreter := by
  funext m
  unfold hostCallWith hostCall
  rw [createWith_plain, callWith_plain]
  rfl

theorem Behaviour.runWith_plain (b : Behaviour) : b.runWith (.plain db) evm db = b.run evm db := by
  induction b with
  | done statusCode gasLeft outputData => rfl
  | host c next ih =>
    funext m
    unfold runWith run
    rw [HostCall.performWith_plain]
    simp only [ih]
  | message msg inner next ihi ihn =>
    funext m
    unfold runWith run
    rw [ihi, hostCallWith_plain]
    simp only [ihn]

theorem executeTransactionWith_plain (txn : Transaction) (sender : Address) (gas : Uint64)
    (interpreter : Interpreter) : executeTransactionWith (.plain db) evm db txn sender gas interpreter =
      executeTransaction evm db txn sender gas interpreter := by
  funext m
  unfold executeTransactionWith executeTransaction
  simp only [createWith_plain, callWith_plain]

end Plain

section Outcomes

variable {hooks : Hooks} {evm : Config} {db : B} {message : Message} {interpreter : Interpreter}
  {m : Machine} {x : Result × Machine}

variable (hooks evm db message interpreter m) in
/-- The ways in which a call ends. -/
inductive Called : Result × Machine → Prop
  | insufficient (hb : (lacksBalance db message m.state).1 = true) :
      Called ({ statusCode := .insufficientBalance, gasLeft := message.gas },
        { m with state := (lacksBalance db message m.state).2 })
  | absent (hb : ¬(lacksBalance db message m.state).1 = true) :
      Called ({ statusCode := .success, gasLeft := message.gas },
        { m with state := callState evm db message m.state })
  | precompiled {s : IntraBlockState} (hb : ¬(lacksBalance db message m.state).1 = true)
      (ht : transferWith hooks message (callState evm db message m.state) = some s) :
      Called (leave (takeSnapshot (callState evm db message m.state)) (callPrecompiled evm message)
        { m with state := s })
  | codeless {s : IntraBlockState} (hb : ¬(lacksBalance db message m.state).1 = true)
      (ht : transferWith hooks message (callState evm db message m.state) = some s) :
      Called ({ statusCode := .success, gasLeft := message.gas },
        { m with state := (getCode db message.destination s).2 })
  | executed {s : IntraBlockState} {y : Result × Machine}
      (hb : ¬(lacksBalance db message m.state).1 = true)
      (ht : transferWith hooks message (callState evm db message m.state) = some s)
      (hc : (getCode db message.destination s).1 ≠ [])
      (hr : execute (callDestination message m) interpreter
        { m with state := codeRead db message s } = some y) :
      Called (leave (takeSnapshot (callState evm db message m.state)) y.1 y.2)

theorem called_of_callWith (h : callWith hooks evm db message interpreter m = some x) :
    Called hooks evm db message interpreter m x := by
  unfold callWith at h
  dsimp only at h
  by_cases hb : (lacksBalance db message m.state).1 = true
  · rw [if_pos hb] at h
    cases h
    exact .insufficient hb
  rw [if_neg hb] at h
  by_cases ha : (lacksCallee evm db message (lacksBalance db message m.state).2).1 = true
  · rw [if_pos ha] at h
    cases h
    exact .absent hb
  rw [if_neg ha] at h
  obtain ⟨s, ht, h⟩ := Option.bind_eq_some_iff.mp h
  split_ifs at h with hp hc
  · cases h
    exact .precompiled hb ht
  · cases h
    exact .codeless hb ht
  · obtain ⟨y, hr, h⟩ := Option.bind_eq_some_iff.mp h
    cases h
    exact .executed hb ht hc hr

variable (hooks evm db message interpreter m) in
/-- The ways in which a creation ends. -/
inductive Created : Result × Machine → Prop
  | insufficient (hb : (getBalance db message.sender m.state).1 < message.value) :
      Created ({ statusCode := .insufficientBalance, gasLeft := message.gas },
        { m with state := (getBalance db message.sender m.state).2 })
  | collision (hb : ¬(getBalance db message.sender m.state).1 < message.value) :
      Created ({ statusCode := .invalidInstruction, gasLeft := 0 },
        { m with state := createState evm db message m.state })
  | executed {s : IntraBlockState} {y : Result × Machine}
      (hb : ¬(getBalance db message.sender m.state).1 < message.value)
      (he : enterCreationWith hooks evm db message (newAddress evm db message m.state)
        (createState evm db message m.state) = some s)
      (hr : execute (newAddress evm db message m.state) interpreter { m with state := s } = some y) :
      Created (leave (takeSnapshot (createState evm db message m.state))
        (deployed evm db (newAddress evm db message m.state) y).1
        (deployed evm db (newAddress evm db message m.state) y).2)

theorem created_of_createWith (h : createWith hooks evm db message interpreter m = some x) :
    Created hooks evm db message interpreter m x := by
  unfold createWith at h
  dsimp only at h
  split_ifs at h with hb hc
  · cases h
    exact .insufficient hb
  · cases h
    exact .collision hb
  · obtain ⟨s, he, h⟩ := Option.bind_eq_some_iff.mp h
    obtain ⟨y, hr, h⟩ := Option.bind_eq_some_iff.mp h
    cases h
    exact .executed hb he hr

variable (evm db message) in
theorem cached_callState (s : IntraBlockState) :
    Cached db evm.keccak s (callState evm db message s) :=
  (lacksBalance_cached evm db message s).trans (lacksCallee_cached evm db message _)

variable (evm db message) in
theorem cached_codeRead (s : IntraBlockState) :
    Cached db evm.keccak s (codeRead db message s) := by
  refine (getCode_spec db evm.keccak message.destination s).2.trans ?_
  unfold codeRead
  rw [IntraBlockState.getCodeHash, getObject_eq]
  exact cached_load db evm.keccak _ _

variable (evm db message) in
theorem cached_createState (s : IntraBlockState) :
    Cached db evm.keccak (announce evm db message s) (createState evm db message s) := by
  unfold createState presentCodeHash
  rw [getNonce, getObject_eq]
  dsimp only
  have hnonce := cached_load db evm.keccak (newAddress evm db message s) (announce evm db message s)
  split_ifs
  · rw [IntraBlockState.getCodeHash, getObject_eq]
    exact hnonce.trans (cached_load db evm.keccak _ _)
  · exact hnonce

end Outcomes

section Agreement

variable {hooks hooks' : Hooks} {evm : Config} {db : B} {message : Message}
  {interpreter interpreter' : Interpreter} {m : Machine}

/-- Two watched calls agree if they agree on the transfer and on what happens in the frame. -/
theorem callWith_congr
    (ht : ¬(lacksBalance db message m.state).1 = true →
      transferWith hooks message (callState evm db message m.state) =
        transferWith hooks' message (callState evm db message m.state))
    (hi : ∀ s, ¬(lacksBalance db message m.state).1 = true →
      transferWith hooks' message (callState evm db message m.state) = some s →
      execute (callDestination message m) interpreter { m with state := codeRead db message s } =
        execute (callDestination message m) interpreter' { m with state := codeRead db message s }) :
    callWith hooks evm db message interpreter m = callWith hooks' evm db message interpreter' m := by
  unfold callWith
  dsimp only
  by_cases hb : (lacksBalance db message m.state).1 = true
  · rw [if_pos hb, if_pos hb]
  rw [if_neg hb, if_neg hb, ht hb]
  cases hs : transferWith hooks' message (callState evm db message m.state) with
  | none => rfl
  | some s =>
    simp only [Option.bind_eq_bind, Option.bind_some]
    rw [hi s hb hs]

theorem createWith_congr
    (he : ¬(getBalance db message.sender m.state).1 < message.value →
      enterCreationWith hooks evm db message (newAddress evm db message m.state)
          (createState evm db message m.state) =
        enterCreationWith hooks' evm db message (newAddress evm db message m.state)
          (createState evm db message m.state))
    (hi : ∀ s, ¬(getBalance db message.sender m.state).1 < message.value →
      enterCreationWith hooks' evm db message (newAddress evm db message m.state)
        (createState evm db message m.state) = some s →
      execute (newAddress evm db message m.state) interpreter { m with state := s } =
        execute (newAddress evm db message m.state) interpreter' { m with state := s }) :
    createWith hooks evm db message interpreter m =
      createWith hooks' evm db message interpreter' m := by
  unfold createWith
  dsimp only
  by_cases hb : (getBalance db message.sender m.state).1 < message.value
  · rw [if_pos hb, if_pos hb]
  rw [if_neg hb, if_neg hb, he hb]
  cases hs : enterCreationWith hooks' evm db message (newAddress evm db message m.state)
      (createState evm db message m.state) with
  | none => rfl
  | some s =>
    simp only [Option.bind_eq_bind, Option.bind_some]
    rw [hi s hb hs]

end Agreement

end Silkworm.Evm

namespace Silkworm.ExecutionProcessor
open IntraBlockState Evm

variable {B : Type} [StateBuffer B]

section Processors

variable (hooks : Hooks) (x : ExecutionContext) (db : B)

def buyGasWith (txn : Transaction) (sender : Address) (s : IntraBlockState) :
    Option IntraBlockState := do
  let s := clearJournalAndSubstate s
  let s := (IntraBlockState.accessAccount sender s).2
  let cost ← hooks.multiply txn.gasLimit txn.gasPrice
  let s ← hooks.subtract sender cost s
  let s := match txn.toAddress with
    | some recipient =>
      setNonce db sender (txn.nonce + 1) (IntraBlockState.accessAccount recipient s).2
    | none => s
  some (accessEntries txn.accessList s)

def refundGasWith (txn : Transaction) (sender : Address) (gasLeft : Uint64) (s : IntraBlockState) :
    Option (Uint64 × IntraBlockState) := do
  let gasLeft := refundedGas x.evm.revision txn gasLeft s
  let cost ← hooks.multiply gasLeft txn.gasPrice
  let s ← hooks.add sender cost s
  some (gasLeft, s)

def executeTransactionWith (txn : Transaction) (interpreter : Interpreter)
    (p : ExecutionProcessor) : Option (Receipt × ExecutionProcessor) := do
  let sender ← txn.sender
  let s ← buyGasWith hooks db txn sender p.state
  let g0 := Validity.intrinsicGasAt x.evm.revision txn
  let (vmRes, m) ← Evm.executeTransactionWith hooks x.evm db txn sender
    (txn.gasLimit - g0.setWidth 64) interpreter { p.machine with state := s }
  let (gasLeft, s) ← refundGasWith hooks x txn sender vmRes.gasLeft m.state
  let gasUsed := txn.gasLimit - gasLeft
  let fee ← hooks.multiply gasUsed txn.gasPrice
  let s ← hooks.add x.block.header.beneficiary fee s
  let s := cleanUp x db s
  let cumulativeGasUsed := p.cumulativeGasUsed + gasUsed
  some (⟨txn.type, vmRes.status = .success, cumulativeGasUsed, logsBloom x.keccak s.logs, s.logs⟩,
    ⟨{ m with state := s }, cumulativeGasUsed⟩)

end Processors

theorem executeTransactionWith_plain (x : ExecutionContext) (db : B) (txn : Transaction)
    (interpreter : Interpreter) (p : ExecutionProcessor) :
    executeTransactionWith (.plain db) x db txn interpreter p =
      executeTransaction x db txn interpreter p := by
  unfold executeTransactionWith executeTransaction
  simp only [Evm.executeTransactionWith_plain]
  rfl

end Silkworm.ExecutionProcessor
