import Silkworm.EvmFrames

/-!
# What a failed message leaves behind

A failed call leaves nothing. A failed creation leaves the nonce of the sender increased and
the address of the contract accessed, unless the sender could not pay for it.
-/

namespace Silkworm.Evm
open StateBuffer IntraBlockState UndoLogs

variable {B : Type} [StateBuffer B] {evm : Config} {db : B} {s t : IntraBlockState}

/-- The state `t` differs from `s` in the nonce of the sender, which is one larger modulo
2^64, and in an accessed address. -/
structure NonceIncreased (db : B) (sender contractAddr : Address) (s t : IntraBlockState) : Prop where
  existsAccount : ∀ a, (existsAccount db a t).1 = (existsAccount db a s).1
  isDead : ∀ a, a ≠ sender → (isDead db a t).1 = (isDead db a s).1
  getBalance : ∀ a, (getBalance db a t).1 = (getBalance db a s).1
  getNonce : ∀ a, (getNonce db a t).1 = (getNonce db a s).1 + if a = sender then 1 else 0
  getCode : ∀ a, (getCode db a t).1 = (getCode db a s).1
  getCodeHash : ∀ a,
    (IntraBlockState.getCodeHash db a t).1 = (IntraBlockState.getCodeHash db a s).1
  getCurrentStorage : ∀ a key,
    (getCurrentStorage db a key t).1 = (getCurrentStorage db a key s).1
  getOriginalStorage : ∀ a key,
    (getOriginalStorage db a key t).1 = (getOriginalStorage db a key s).1
  selfDestructs : ∀ a, HashSet.contains t.selfDestructs a = HashSet.contains s.selfDestructs a
  touched : ∀ a, a ≠ kRipemdAddress → HashSet.contains t.touched a = HashSet.contains s.touched a
  accessedAddresses : ∀ a, HashSet.contains t.accessedAddresses a =
    (decide (a = contractAddr) || HashSet.contains s.accessedAddresses a)
  accessedStorageKeys : ∀ a key,
    hasAccessed t.accessedStorageKeys a key = hasAccessed s.accessedStorageKeys a key
  logs : t.logs = s.logs
  refund : t.refund = s.refund

section Announcement

/-- The setter of the nonce, for an account that exists. -/
theorem setNonce_of_exists {a : Address} {obj : Object} {account : Account}
    (ho : viewObject db s.objects a = some obj) (hc : obj.current = some account) (nonce : Uint64) :
    setNonce db a nonce s = { s with
      objects := (load db a s).set a { obj with current := some { account with nonce } }
      journal := .update a obj :: s.journal } := by
  rw [setNonce, updateObject, getOrCreateObject, getObject_eq, ho]
  simp only [hc, Option.isNone_some, Bool.false_eq_true, ↓reduceIte, Option.map_some]
  rfl

theorem viewObject_setNonce {a : Address} {obj : Object} {account : Account}
    (ho : viewObject db s.objects a = some obj) (hc : obj.current = some account) (nonce : Uint64)
    (a' : Address) :
    viewObject db (setNonce db a nonce s).objects a' =
      if a' = a then some { obj with current := some { account with nonce } }
      else viewObject db s.objects a' := by
  rw [setNonce_of_exists ho hc]
  dsimp only
  rw [viewObject_set, viewObject_load]

theorem viewStorage_setNonce {a : Address} {obj : Object} {account : Account}
    (ho : viewObject db s.objects a = some obj) (hc : obj.current = some account) (nonce : Uint64)
    (a' : Address) (key : Bytes32) (original : Bool) :
    viewStorage db (setNonce db a nonce s) a' key original = viewStorage db s a' key original := by
  apply viewStorage_congr
  · rw [setNonce_of_exists ho hc]
  · rw [viewObject_setNonce ho hc]
    split_ifs with h
    · rw [h, ho]
      have hinc : currentIncarnation (some { obj with current := some { account with nonce } }) =
          currentIncarnation (some obj) := by simp [currentIncarnation, hc]
      refine bufferedSlot_congr ?_ hinc a key
      rfl
    · rfl

theorem accessAccount_eq (a : Address) (s : IntraBlockState) :
    (IntraBlockState.accessAccount a s).2 = { s with
      accessedAddresses := HashSet.insert s.accessedAddresses a
      journal := if !HashSet.contains s.accessedAddresses a then .accountAccess a :: s.journal
        else s.journal } := by
  unfold IntraBlockState.accessAccount
  dsimp only
  split_ifs <;> rfl

/-- The state before the nonce is set, in which only caches have been filled. -/
theorem announce_cached (evm : Config) (db : B) (message : Message) (s : IntraBlockState) :
    ∃ s₁, Cached db evm.keccak s s₁ ∧ announce evm db message s =
      (IntraBlockState.accessAccount (contractAddress evm message (getNonce db message.sender s).1)
        (setNonce db message.sender ((getNonce db message.sender s).1 + 1) s₁)).2 := by
  have hnonce : (getNonce db message.sender (getBalance db message.sender s).2).1 =
      (getNonce db message.sender s).1 := by
    simp only [getNonce, getBalance, getObject_eq, viewObject_load]
  refine ⟨(getNonce db message.sender (getBalance db message.sender s).2).2, ?_, ?_⟩
  · simp only [getNonce, getBalance, getObject_eq]
    exact (cached_load db evm.keccak message.sender s).trans (cached_load db evm.keccak _ _)
  · rw [← hnonce]
    rfl

theorem getNonce_fst (a : Address) (s : IntraBlockState) :
    (getNonce db a s).1 = ((viewAccount db s a).map Account.nonce).getD 0 := by
  rw [getNonce, getObject_eq]
  rfl

theorem nonceIncreased_announce {message : Message} (hk : CodeKnown db evm.keccak s t)
    (hs : (existsAccount db message.sender s).1 = true)
    (ht : Cached db evm.keccak (announce evm db message s) t) :
    NonceIncreased db message.sender (contractAddress evm message (getNonce db message.sender s).1)
      s t := by
  obtain ⟨s₁, hs₁, heq⟩ := announce_cached evm db message s
  rw [heq, accessAccount_eq] at ht
  rw [existsAccount_fst] at hs
  obtain ⟨account, ha⟩ := Option.isSome_iff_exists.mp hs
  obtain ⟨obj, ho, hc⟩ := Option.bind_eq_some_iff.mp ha
  have hn : (getNonce db message.sender s).1 = account.nonce := by
    rw [getNonce_fst, ha]
    rfl
  have ho₁ : viewObject db s₁.objects message.sender = some obj := by
    rw [hs₁.restores.object, ho]
  rw [hn] at ht ⊢
  generalize contractAddress evm message account.nonce = contractAddr at ht ⊢
  have hobject (a : Address) : viewObject db t.objects a = if a = message.sender then
      some { obj with current := some { account with nonce := account.nonce + 1 } }
      else viewObject db s.objects a := by
    rw [ht.restores.object, viewObject_setNonce ho₁ hc, hs₁.restores.object]
  have haccount (a : Address) : viewAccount db t a = if a = message.sender then
      some { account with nonce := account.nonce + 1 } else viewAccount db s a := by
    rw [viewAccount, viewAccount, hobject]
    split_ifs <;> rfl
  have hstorage (a : Address) (key : Bytes32) (original : Bool) :
      viewStorage db t a key original = viewStorage db s a key original := by
    rw [ht.restores.storage, ← hs₁.restores.storage, ← viewStorage_setNonce ho₁ hc]
    rfl
  rw [setNonce_of_exists ho₁ hc] at ht
  have hcode (h : Bytes32) (hh : h ≠ kEmptyHash) (hkn : KnownHash db evm.keccak s t h) :
      viewCode db t h = viewCode db s h := by
    have hknown := hkn.resolve_left hh
    have hcached (c : (s.code.find h).isSome) : (s₁.code.find h).isSome := by
      obtain ⟨code, hcode⟩ := Option.isSome_iff_exists.mp c
      rw [hs₁.restores.code h code hcode]
      rfl
    have hlater (c : Bytes) (hc : Caches s₁ c) : Caches t c := by
      obtain ⟨k, hc⟩ := hc
      exact ⟨k, ht.restores.code k c hc⟩
    have hknown₁ := hknown.imp_right fun hk c hc => hk c (hlater c hc)
    rw [ht.restores.viewCode_eq (hknown.imp_left hcached), ← hs₁.restores.viewCode_eq hknown₁]
    rfl
  have hfield {α : Type} (f : Account → α) (hf : f { account with nonce := account.nonce + 1 } =
      f account) (a : Address) : (viewAccount db t a).map f = (viewAccount db s a).map f := by
    rw [haccount]
    split_ifs with h
    · rw [h, ha, Option.map_some, Option.map_some, hf]
    · rfl
  have hexists (a : Address) : (viewAccount db t a).isSome = (viewAccount db s a).isSome := by
    simpa using congrArg Option.isSome (hfield (fun _ => ()) rfl a)
  have hslot (a : Address) (key : Bytes32) (original : Bool) :
      (getStorage db a key original t).1 = (getStorage db a key original s).1 := by
    rw [(getStorage_spec db evm.keccak a key original t).1,
      (getStorage_spec db evm.keccak a key original s).1, hexists, hstorage]
  refine {
    existsAccount := fun a => by rw [existsAccount_fst, existsAccount_fst, hexists]
    isDead := fun a h => by simp only [isDead, getObject_eq, hobject, if_neg h]
    getBalance := fun a => ?_
    getNonce := fun a => ?_
    getCode := fun a => ?_
    getCodeHash := fun a => ?_
    getCurrentStorage := fun a key => hslot a key false
    getOriginalStorage := fun a key => hslot a key true
    selfDestructs := fun a => (ht.restores.selfDestructs a).trans (hs₁.restores.selfDestructs a)
    touched := fun a h => (ht.restores.touched a h).trans (hs₁.restores.touched a h)
    accessedAddresses := fun a => ?_
    accessedStorageKeys := fun a key =>
      (ht.restores.accessedStorageKeys a key).trans (hs₁.restores.accessedStorageKeys a key)
    logs := ht.logs.trans hs₁.logs
    refund := ht.refund.trans hs₁.refund }
  · rw [getBalance, getBalance, getObject_eq, getObject_eq]
    exact congrArg (Option.getD · 0) (hfield Account.balance rfl a)
  · rw [getNonce_fst, getNonce_fst, haccount]
    split_ifs with h
    · rw [h, ha]
      rfl
    · exact (BitVec.add_zero _).symm
  · rw [(getCode_spec db evm.keccak a t).1, (getCode_spec db evm.keccak a s).1]
    have hhash := hfield Account.codeHash rfl a
    cases hat : viewAccount db t a with
    | none =>
      rw [hat] at hhash
      rw [Option.map_eq_none_iff.mp hhash.symm]
    | some account' =>
      rw [hat] at hhash
      obtain ⟨account₀, has, he⟩ := Option.map_eq_some_iff.mp hhash.symm
      rw [has]
      dsimp only
      rw [he]
      split_ifs with hempty
      · rfl
      · exact hcode _ hempty (he ▸ hk a account₀ has)
  · rw [IntraBlockState.getCodeHash, IntraBlockState.getCodeHash, getObject_eq, getObject_eq]
    exact congrArg (Option.getD · kEmptyHash) (hfield Account.codeHash rfl a)
  · refine (ht.restores.accessedAddresses a).trans ?_
    change HashSet.contains (HashSet.insert s₁.accessedAddresses contractAddr) a = _
    rw [HashSet.contains_insert, hs₁.restores.accessedAddresses]

end Announcement

/-- Gas is only left by success, by a `REVERT` or to a sender that lacks the balance. -/
def GasTaken (res : Result) : Prop :=
  res.statusCode ≠ .success → res.statusCode ≠ .revert → res.statusCode ≠ .insufficientBalance →
    res.gasLeft = 0

/-- Messages that fail, for every behaviour of the interpreter in their frame. -/
theorem failed_messages (evm : Config) (b : Behaviour) (message : Message) {m m' : Machine}
    {res : Result} (hk : CodeKnown db evm.keccak m.state m'.state)
    (hs : (existsAccount db message.sender m.state).1 = true) :
    (call evm db message (b.run evm db) m = some (res, m') →
      (res.statusCode ≠ .success → SameObservables db m.state m'.state) ∧
        GasTaken res ∧ m'.addressStack = m.addressStack) ∧
    (create evm db message (b.run evm db) m = some (res, m') →
      (res.statusCode ≠ .success →
        if (getBalance db message.sender m.state).1 < message.value then
          res.statusCode = .insufficientBalance ∧ SameObservables db m.state m'.state
        else
          NonceIncreased db message.sender
            (contractAddress evm message (getNonce db message.sender m.state).1) m.state m'.state) ∧
        GasTaken res ∧ m'.addressStack = m.addressStack) := by
  constructor
  · intro h
    have hend := call_ended (b.keeps evm db) h
    exact ⟨fun hf => (hend.reverted hf).sameObservables hk, hend.gas, hend.stack⟩
  · intro h
    have hend := create_ended (b.keeps evm db) h
    split_ifs at hend ⊢ with hb
    · obtain ⟨hend, hstatus⟩ := hend
      exact ⟨fun hf => ⟨hstatus, (hend.reverted hf).sameObservables hk⟩, hend.gas, hend.stack⟩
    · exact ⟨fun hf => nonceIncreased_announce hk hs (hend.reverted hf), hend.gas, hend.stack⟩

section Examples

private def someConfig : Config where
  revision := .berlin
  keccak c := if c = [0] then default else kEmptyHash
  precompiledGas _ _ _ := 0
  precompiledRun _ _ := none

private def carol : Address := FixedBytes.replicate 20 3

private def dave : Address := FixedBytes.replicate 20 4

/-- Carol has ten wei. -/
private def funded : Machine where
  state := addToBalance ({} : MemoryBuffer) carol 10 {}

private def deployment : Message where
  kind := .create
  gas := 1000
  sender := carol
  value := 1

/-- The deployment code pays a wei to Dave, emits a log and reverts. -/
private def reverting : Behaviour :=
  .message { gas := 100, sender := contractAddress someConfig deployment 0, destination := dave,
             value := 1 } (.done .success 100 []) fun _ =>
    .host (.emitLog dave [] []) fun _ => .done .revert 5 []

private theorem codeKnown_funded (t : IntraBlockState) :
    CodeKnown ({} : MemoryBuffer) someConfig.keccak funded.state t := by
  have hr : Reachable ({} : MemoryBuffer) someConfig.keccak funded.state :=
    .action (.operation (.addToBalance carol 10)) .initial
  exact hr.codeKnown nofun

theorem failed_messages_deployment :
    ∃ res m', create someConfig ({} : MemoryBuffer) deployment
        (reverting.run someConfig ({} : MemoryBuffer)) funded = some (res, m') ∧
      res.statusCode = .revert ∧ res.gasLeft = 5 ∧
      NonceIncreased ({} : MemoryBuffer) carol (contractAddress someConfig deployment 0)
        funded.state m'.state := by
  have hrun : (create someConfig ({} : MemoryBuffer) deployment
      (reverting.run someConfig ({} : MemoryBuffer)) funded).map
        (fun x => (x.1.statusCode, x.1.gasLeft)) = some (.revert, 5) := by decide
  obtain ⟨⟨res, m'⟩, hx, hres⟩ := Option.map_eq_some_iff.mp hrun
  obtain ⟨hstatus, hgas⟩ := Prod.mk.inj hres
  have hfailed := (failed_messages someConfig reverting deployment (codeKnown_funded _) (by decide)).2 hx
  have hf : res.statusCode ≠ .success := by rw [hstatus]; decide
  have hinc := hfailed.1 hf
  rw [if_neg (by decide)] at hinc
  exact ⟨res, m', hx, hstatus, hgas, hinc⟩

/-- An account has the code hash of `[0]`, but the buffer does not have the code. -/
private def forgetful : MemoryBuffer where
  accounts := ((HashMap.set ∅ carol { balance := 10 }).set default { codeHash := default }).set dave
    { codeHash := FixedBytes.replicate 32 1 }
  code := HashMap.set ∅ (FixedBytes.replicate 32 1) [1]

/-- Two ways to see a failure: an interpreter that itself reports an insufficient balance does
not take back the nonce, and a code that was deployed stays where the buffer has no code. -/
theorem failed_messages_visible :
    (∃ res m', create someConfig ({} : MemoryBuffer) deployment
        ((Behaviour.done .insufficientBalance 0 []).run someConfig ({} : MemoryBuffer)) funded =
          some (res, m') ∧
      res.statusCode = .insufficientBalance ∧
      ¬SameObservables ({} : MemoryBuffer) funded.state m'.state) ∧
    ∃ res m', call someConfig forgetful { gas := 1000, sender := carol, destination := dave }
        ((Behaviour.message { kind := .create, gas := 500, sender := dave }
          (.done .success 500 [0]) fun _ => .done .revert 0 []).run someConfig forgetful) {} =
            some (res, m') ∧
      res.statusCode = .revert ∧ ¬SameObservables forgetful {} m'.state := by
  constructor
  · have hrun : (create someConfig ({} : MemoryBuffer) deployment
        ((Behaviour.done .insufficientBalance 0 []).run someConfig ({} : MemoryBuffer)) funded).map
          (fun x => (x.1.statusCode, (getNonce ({} : MemoryBuffer) carol x.2.state).1)) =
            some (.insufficientBalance, 1) := by decide
    obtain ⟨⟨res, m'⟩, hx, hres⟩ := Option.map_eq_some_iff.mp hrun
    obtain ⟨hstatus, hnonce⟩ := Prod.mk.inj hres
    refine ⟨res, m', hx, hstatus, fun h => ?_⟩
    have hsame := h.getNonce carol
    rw [hnonce] at hsame
    exact absurd hsame (by decide)
  · have hrun : (call someConfig forgetful { gas := 1000, sender := carol, destination := dave }
        ((Behaviour.message { kind := .create, gas := 500, sender := dave }
          (.done .success 500 [0]) fun _ => .done .revert 0 []).run someConfig forgetful) {}).map
            (fun x => (x.1.statusCode, (getCode forgetful default x.2.state).1)) =
              some (.revert, [0]) := by decide +kernel
    obtain ⟨⟨res, m'⟩, hx, hres⟩ := Option.map_eq_some_iff.mp hrun
    obtain ⟨hstatus, hcode⟩ := Prod.mk.inj hres
    refine ⟨res, m', hx, hstatus, fun h => ?_⟩
    have hsame := h.getCode default
    rw [hcode] at hsame
    exact absurd hsame (by decide)

end Examples

end Silkworm.Evm
