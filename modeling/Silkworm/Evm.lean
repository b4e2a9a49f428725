import Silkworm.IntraBlockState

/-!
# The virtual machine

Messages, the host through which an interpreter acts on the state, and the frames of calls and
creations. The interpreter itself is any finite tree of host calls. The transaction context and
the block hashes, which the host also hands out, touch neither the state nor the address stack.
-/

namespace Silkworm

inductive Revision where
  | frontier | homestead | tangerineWhistle | spuriousDragon | byzantium | constantinople
  | petersburg | istanbul | berlin | london | shanghai
  deriving DecidableEq, Repr

instance : LE Revision := ⟨fun r r' => r.ctorIdx ≤ r'.ctorIdx⟩

instance (r r' : Revision) : Decidable (r ≤ r') := inferInstanceAs (Decidable (_ ≤ _))

namespace Fee

abbrev kGSLoadTangerineWhistle : Uint64 := 200
abbrev kGSLoadIstanbul : Uint64 := 800
abbrev kWarmStorageReadCost : Uint64 := 100
abbrev kColdSloadCost : Uint64 := 2100
abbrev kAccessListStorageKeyCost : Uint64 := 1900
abbrev kGSSet : Uint64 := 20000
abbrev kGSReset : Uint64 := 5000
abbrev kRSClear : Uint64 := 15000
abbrev kGCodeDeposit : Uint64 := 200

end Fee

namespace Param

abbrev kMaxCodeSize : ℕ := 0x6000

end Param

namespace Evm
open StateBuffer IntraBlockState

inductive CallKind where
  | call | delegateCall | callCode | create | create2
  deriving DecidableEq

inductive StatusCode where
  | success | failure | revert | outOfGas | invalidInstruction | undefinedInstruction
  | stackOverflow | stackUnderflow | badJumpDestination | invalidMemoryAccess
  | callDepthExceeded | staticModeViolation | precompileFailure | contractValidationFailure
  | argumentOutOfRange | wasmUnreachableInstruction | wasmTrap | insufficientBalance
  | internalError | rejected | outOfMemory
  deriving DecidableEq

inductive StorageStatus where
  | unchanged | modified | modifiedAgain | added | deleted
  deriving DecidableEq

structure Message where
  kind : CallKind := .call
  isStatic : Bool := false
  depth : ℤ := 0
  gas : ℤ
  destination : Address := default
  sender : Address
  inputData : Bytes := []
  value : Uint256 := 0
  create2Salt : Bytes32 := default

structure Result where
  statusCode : StatusCode
  gasLeft : ℤ
  outputData : Bytes := []
  createAddress : Address := default
  deriving DecidableEq

/-- What a machine is set up with: the revision of its block, the hash function and the
precompiled contracts by their number. -/
structure Config where
  revision : Revision
  keccak : Bytes → Bytes32
  precompiledGas : ℕ → Bytes → Revision → Uint64
  precompiledRun : ℕ → Bytes → Option Bytes

/-- The changing part of a machine. -/
structure Machine where
  state : IntraBlockState := {}
  addressStack : List Address := []

section Addresses

def lastBytes (hash : Bytes32) : Address := ⟨hash.val.drop 12, by rw [List.length_drop, hash.2]; rfl⟩

def createAddress (keccak : Bytes → Bytes32) (caller : Address) (nonce : Uint64) : Address :=
  lastBytes (keccak (Rlp.encodeHeader ⟨true, 1 + kAddressLength + Rlp.lengthUint nonce⟩ ++
    (Rlp.encodeFixed caller ++ Rlp.encodeUint nonce)))

def create2Address (keccak : Bytes → Bytes32) (caller : Address) (salt codeHash : Bytes32) :
    Address :=
  lastBytes (keccak (0xff :: (caller.val ++ salt.val ++ codeHash.val)))

variable (evm : Config)

def numberOfPrecompiles : UInt8 :=
  if .istanbul ≤ evm.revision then 9
  else if .byzantium ≤ evm.revision then 8
  else 4

def isPrecompiled (contract : Address) : Bool :=
  if isZero contract then false
  else !decide (List.replicate 19 0 ++ [numberOfPrecompiles evm] < contract.val)

end Addresses

section Host

/-- The calls to the host apart from messages. -/
inductive HostCall where
  | accountExists (a : Address)
  | accessAccount (a : Address)
  | accessStorage (a : Address) (key : Bytes32)
  | getStorage (a : Address) (key : Bytes32)
  | setStorage (a : Address) (key value : Bytes32)
  | getBalance (a : Address)
  | getCodeSize (a : Address)
  | getCodeHash (a : Address)
  | copyCode (a : Address) (codeOffset bufferSize : ℕ)
  | selfdestruct (a beneficiary : Address)
  | emitLog (a : Address) (data : Bytes) (topics : List Bytes32)

/-- An access is answered by whether it is cold. -/
abbrev HostCall.Reply : HostCall → Type
  | .accountExists _ | .accessAccount _ | .accessStorage _ _ => Bool
  | .getStorage _ _ | .getCodeHash _ => Bytes32
  | .setStorage _ _ _ => StorageStatus
  | .getBalance _ => Uint256
  | .getCodeSize _ => ℕ
  | .copyCode _ _ _ => Bytes
  | .selfdestruct _ _ | .emitLog _ _ _ => Unit

variable {B : Type} [StateBuffer B] (evm : Config) (db : B)

def accountExists (a : Address) (s : IntraBlockState) : Bool × IntraBlockState :=
  if .spuriousDragon ≤ evm.revision then
    let (dead, s) := isDead db a s
    (!dead, s)
  else existsAccount db a s

def accessAccount (a : Address) (s : IntraBlockState) : Bool × IntraBlockState :=
  if isPrecompiled evm a then (false, s) else IntraBlockState.accessAccount a s

def sloadCost : Uint64 :=
  if .berlin ≤ evm.revision then Fee.kWarmStorageReadCost
  else if .istanbul ≤ evm.revision then Fee.kGSLoadIstanbul
  else Fee.kGSLoadTangerineWhistle

def sstoreResetGas : Uint64 :=
  if .berlin ≤ evm.revision then Fee.kGSReset - Fee.kColdSloadCost else Fee.kGSReset

def sstoreClearsRefund : Uint64 :=
  if .london ≤ evm.revision then sstoreResetGas evm + Fee.kAccessListStorageKeyCost
  else Fee.kRSClear

/-- Refunds and status of a write that changed the current value, from EIP-1283 on. -/
def setStorageEip1283 (originalVal currentVal newVal : Bytes32) (s : IntraBlockState) :
    StorageStatus × IntraBlockState :=
  if originalVal = currentVal then
    if isZero originalVal then (.added, s)
    else (.modified, if isZero newVal then addRefund (sstoreClearsRefund evm) s else s)
  else
    let s :=
      if isZero originalVal then s
      else
        let s := if isZero currentVal then subtractRefund (sstoreClearsRefund evm) s else s
        if isZero newVal then addRefund (sstoreClearsRefund evm) s else s
    let s :=
      if originalVal = newVal then
        if isZero originalVal then addRefund (Fee.kGSSet - sloadCost evm) s
        else addRefund (sstoreResetGas evm - sloadCost evm) s
      else s
    (.modifiedAgain, s)

def setStorage (a : Address) (key newVal : Bytes32) (s : IntraBlockState) :
    StorageStatus × IntraBlockState :=
  let (currentVal, s) := getCurrentStorage db a key s
  if currentVal = newVal then (.unchanged, s)
  else
    let s := IntraBlockState.setStorage db a key newVal s
    if .istanbul ≤ evm.revision ∨ evm.revision = .constantinople then
      let (originalVal, s) := getOriginalStorage db a key s
      setStorageEip1283 evm originalVal currentVal newVal s
    else if isZero currentVal then (.added, s)
    else if isZero newVal then (.deleted, addRefund Fee.kRSClear s)
    else (.modified, s)

def getCodeHash (a : Address) (s : IntraBlockState) : Bytes32 × IntraBlockState :=
  let (dead, s) := isDead db a s
  if dead then (default, s) else IntraBlockState.getCodeHash db a s

def copyCode (a : Address) (codeOffset bufferSize : ℕ) (s : IntraBlockState) :
    Bytes × IntraBlockState :=
  let (code, s) := getCode db a s
  ((code.drop codeOffset).take bufferSize, s)

def selfdestruct (a beneficiary : Address) (s : IntraBlockState) : IntraBlockState :=
  let s := recordSuicide a s
  let (balance, s) := getBalance db a s
  setBalance db a 0 (addToBalance db beneficiary balance s)

/-- Storage is only set for an account that exists; otherwise the behaviour is undefined. -/
def HostCall.perform (c : HostCall) (s : IntraBlockState) : Option (c.Reply × IntraBlockState) :=
  match c with
  | .accountExists a => some (Evm.accountExists evm db a s)
  | .accessAccount a => some (Evm.accessAccount evm a s)
  | .accessStorage a key => some (IntraBlockState.accessStorage a key s)
  | .getStorage a key => some (getCurrentStorage db a key s)
  | .setStorage a key value =>
    if (existsAccount db a s).1 then some (Evm.setStorage evm db a key value s) else none
  | .getBalance a => some (IntraBlockState.getBalance db a s)
  | .getCodeSize a => some ((getCode db a s).1.length, (getCode db a s).2)
  | .getCodeHash a => some (Evm.getCodeHash db a s)
  | .copyCode a codeOffset bufferSize => some (Evm.copyCode db a codeOffset bufferSize s)
  | .selfdestruct a beneficiary => some ((), Evm.selfdestruct db a beneficiary s)
  | .emitLog a data topics => some ((), addLog ⟨a, topics, data⟩ s)

end Host

section Frames

variable {B : Type} [StateBuffer B] (evm : Config) (db : B)

/-- An interpreter on its way through a frame. -/
abbrev Interpreter := Machine → Option (Result × Machine)

def execute (destination : Address) (interpreter : Interpreter) : Interpreter := fun m => do
  let (res, m) ← interpreter { m with addressStack := destination :: m.addressStack }
  some (res, { m with addressStack := m.addressStack.tail })

/-- The end of a frame: a failure is reverted and takes the gas, unless it is a `REVERT`. -/
def leave (snapshot : Snapshot) (res : Result) (m : Machine) : Result × Machine :=
  if res.statusCode = .success then (res, m)
  else
    ({ res with gasLeft := if res.statusCode = .revert then res.gasLeft else 0 },
      { m with state := revertToSnapshot snapshot m.state })

/-- The deposit of the code that a deployment returned. -/
def depositCode (contractAddr : Address) (res : Result) (m : Machine) : Result × Machine :=
  let codeDeployGas : Uint64 := BitVec.ofNat 64 res.outputData.length * Fee.kGCodeDeposit
  if res.statusCode ≠ .success then (res, m)
  else if .spuriousDragon ≤ evm.revision ∧ Param.kMaxCodeSize < res.outputData.length then
    ({ res with statusCode := .outOfGas }, m)
  else if 0 ≤ res.gasLeft ∧ codeDeployGas.toNat ≤ res.gasLeft then
    ({ res with gasLeft := res.gasLeft - codeDeployGas.toNat },
      { m with state := setCode db evm.keccak contractAddr res.outputData m.state })
  else if .homestead ≤ evm.revision then ({ res with statusCode := .outOfGas }, m)
  else (res, m)

/-- The address of a new contract; a message of another kind is not meant to get here. -/
def contractAddress (message : Message) (nonce : Uint64) : Address :=
  match message.kind with
  | .create => createAddress evm.keccak message.sender nonce
  | .create2 =>
    create2Address evm.keccak message.sender message.create2Salt (evm.keccak message.inputData)
  | _ => default

/-- The state in which the deployment code starts. -/
def enterCreation (message : Message) (contractAddr : Address) (s : IntraBlockState) :
    IntraBlockState :=
  let s := createContract db contractAddr s
  let s := if .spuriousDragon ≤ evm.revision then setNonce db contractAddr 1 s else s
  let s := subtractFromBalance db message.sender message.value s
  addToBalance db contractAddr message.value s

def create (message : Message) (interpreter : Interpreter) : Interpreter := fun m => do
  let res : Result := { statusCode := .success, gasLeft := message.gas }
  let (balance, s) := getBalance db message.sender m.state
  if balance < message.value then
    some ({ res with statusCode := .insufficientBalance }, { m with state := s })
  else
    let (nonce, s) := getNonce db message.sender s
    let s := setNonce db message.sender (nonce + 1) s
    let contractAddr := contractAddress evm message nonce
    let (_, s) := IntraBlockState.accessAccount contractAddr s
    let (contractNonce, s) := getNonce db contractAddr s
    let (codeHash, s) :=
      if contractNonce = 0 then IntraBlockState.getCodeHash db contractAddr s else (kEmptyHash, s)
    if contractNonce ≠ 0 ∨ codeHash ≠ kEmptyHash then
      some ({ res with statusCode := .invalidInstruction, gasLeft := 0 }, { m with state := s })
    else
      let snapshot := takeSnapshot s
      let s := enterCreation evm db message contractAddr s
      let (res, m) ← execute contractAddr interpreter { m with state := s }
      let (res, m) := depositCode evm db contractAddr res m
      let res := if res.statusCode = .success then { res with createAddress := contractAddr } else res
      some (leave snapshot res m)

/-- The balance of the sender is too low for a message that transfers value. -/
def lacksBalance (message : Message) (s : IntraBlockState) : Bool × IntraBlockState :=
  if message.kind = .delegateCall then (false, s)
  else
    let (balance, s) := getBalance db message.sender s
    (balance < message.value, s)

/-- There is nothing to call and nothing to transfer. -/
def lacksCallee (message : Message) (s : IntraBlockState) : Bool × IntraBlockState :=
  if message.value = 0 ∧ .spuriousDragon ≤ evm.revision then
    let (isThere, s) := existsAccount db message.destination s
    (!isThere && !isPrecompiled evm message.destination, s)
  else (false, s)

def transfer (message : Message) (s : IntraBlockState) : IntraBlockState :=
  if message.kind ≠ .call then s
  else if message.isStatic then touch message.destination s
  else
    addToBalance db message.destination message.value
      (subtractFromBalance db message.sender message.value s)

def callPrecompiled (message : Message) : Result :=
  let num := (message.destination.val.getLastD 0).toNat
  let gas := (evm.precompiledGas num message.inputData evm.revision).toInt
  if gas < 0 ∨ message.gas < gas then { statusCode := .outOfGas, gasLeft := message.gas }
  else match evm.precompiledRun num message.inputData with
    | some output => { statusCode := .success, gasLeft := message.gas - gas, outputData := output }
    | none => { statusCode := .precompileFailure, gasLeft := message.gas }

/-- The account whose storage the code works on. Only code delegates a call, and then the
address stack is not empty. -/
def callDestination (message : Message) (m : Machine) : Address :=
  match message.kind with
  | .callCode => message.sender
  | .delegateCall => m.addressStack.headD default
  | _ => message.destination

/-- The code hash, which is read here, only serves the cache of analyses. -/
def call (message : Message) (interpreter : Interpreter) : Interpreter := fun m => do
  let res : Result := { statusCode := .success, gasLeft := message.gas }
  let (insufficient, s) := lacksBalance db message m.state
  if insufficient then
    some ({ res with statusCode := .insufficientBalance }, { m with state := s })
  else
    let (absent, s) := lacksCallee evm db message s
    if absent then some (res, { m with state := s })
    else
      let snapshot := takeSnapshot s
      let s := transfer db message s
      if isPrecompiled evm message.destination then
        some (leave snapshot (callPrecompiled evm message) { m with state := s })
      else
        let (code, s) := getCode db message.destination s
        if code = [] then some (res, { m with state := s })
        else
          let (_, s) := IntraBlockState.getCodeHash db message.destination s
          let (res, m) ← execute (callDestination message m) interpreter { m with state := s }
          some (leave snapshot res m)

/-- A message from the interpreter. The output of a creation is returned for a `REVERT` only. -/
def hostCall (message : Message) (interpreter : Interpreter) : Interpreter := fun m =>
  if message.kind = .create ∨ message.kind = .create2 then do
    let (res, m) ← create evm db message interpreter m
    some (if res.statusCode = .revert then res else { res with outputData := [] }, m)
  else call evm db message interpreter m

/-- What an interpreter does in a frame: host calls and messages, each with what follows its
reply, and for a message also what happens in the frame that it opens. -/
inductive Behaviour where
  | done (statusCode : StatusCode) (gasLeft : ℤ) (outputData : Bytes)
  | host (c : HostCall) (next : c.Reply → Behaviour)
  | message (message : Message) (inner : Behaviour) (next : Result → Behaviour)

def Behaviour.run : Behaviour → Interpreter
  | .done statusCode gasLeft outputData => fun m => some ({ statusCode, gasLeft, outputData }, m)
  | .host c next => fun m => do
    let (reply, s) ← c.perform evm db m.state
    (next reply).run { m with state := s }
  | .message msg inner next => fun m => do
    let (res, m) ← hostCall evm db msg inner.run m
    (next res).run m

end Frames

end Evm
end Silkworm
