import Silkworm.Evm
import Silkworm.SnapshotReverts

/-!
# Frames that fail

Whatever an interpreter does, the journal only grows within its frame and the address stack is
as before. A frame that fails is therefore undone with all the frames inside it.
-/

namespace Silkworm.Evm
open StateBuffer IntraBlockState UndoLogs

variable {B : Type} [StateBuffer B] {evm : Config} {db : B}

section Host

variable {s t : IntraBlockState}

variable (evm db) in
theorem grows_operation (op : Operation) (he : op.Enabled db s) :
    Grows db evm.keccak s (op.run db evm.keccak s) := op.grows he

theorem grows_addRefund (n : Uint64) (h : Grows db evm.keccak s t) :
    Grows db evm.keccak s (addRefund n t) := h.trans (grows_operation evm db (.addRefund n) trivial)

theorem grows_subtractRefund (n : Uint64) (h : Grows db evm.keccak s t) :
    Grows db evm.keccak s (subtractRefund n t) :=
  h.trans (grows_operation evm db (.subtractRefund n) trivial)

theorem grows_setStorageEip1283 (originalVal currentVal newVal : Bytes32)
    (h : Grows db evm.keccak s t) :
    Grows db evm.keccak s (setStorageEip1283 evm originalVal currentVal newVal t).2 := by
  unfold setStorageEip1283
  dsimp only
  split_ifs
  all_goals
    repeat first
      | with_reducible exact h
      | with_reducible apply grows_addRefund
      | with_reducible apply grows_subtractRefund

theorem grows_setStorage {a : Address} (key newVal : Bytes32) (ha : (existsAccount db a s).1 = true) :
    Grows db evm.keccak s (setStorage evm db a key newVal s).2 := by
  have hget := (getStorage_spec db evm.keccak a key false s).2
  unfold setStorage getCurrentStorage
  generalize getStorage db a key false s = x at hget
  obtain ⟨currentVal, t⟩ := x
  dsimp only at hget ⊢
  have hexists : (existsAccount db a t).1 = true := by
    rw [existsAccount_fst, viewAccount] at ha ⊢
    rwa [hget.restores.object]
  have hset : Grows db evm.keccak s (IntraBlockState.setStorage db a key newVal t) :=
    hget.grows.trans (grows_operation evm db (.setStorage a key newVal) hexists)
  split_ifs
  · exact hget.grows
  · exact grows_setStorageEip1283 _ _ _
      (hset.trans (grows_operation evm db (.getOriginalStorage a key) trivial))
  · exact hset
  · exact grows_addRefund _ hset
  · exact hset

theorem grows_isDead (a : Address) (s : IntraBlockState) :
    Grows db evm.keccak s (isDead db a s).2 := grows_operation evm db (.isDead a) trivial

variable (evm db) in
theorem grows_selfdestruct (a beneficiary : Address) (s : IntraBlockState) :
    Grows db evm.keccak s (selfdestruct db a beneficiary s) := by
  have hrecord : Grows db evm.keccak s (recordSuicide a s) :=
    grows_operation evm db (.recordSuicide a) trivial
  have hbalance : Grows db evm.keccak s (getBalance db a (recordSuicide a s)).2 :=
    hrecord.trans (grows_operation evm db (.getBalance a) trivial)
  unfold selfdestruct
  dsimp only
  generalize getBalance db a (recordSuicide a s) = x at hbalance ⊢
  have hadd : Grows db evm.keccak s (addToBalance db beneficiary x.1 x.2) :=
    hbalance.trans (grows_operation evm db (.addToBalance beneficiary x.1) trivial)
  generalize addToBalance db beneficiary x.1 x.2 = t at hadd ⊢
  have hset : Grows db evm.keccak t (setBalance db a 0 t) :=
    grows_operation evm db (.setBalance a 0) trivial
  exact hadd.trans hset

/-- One host call. -/
theorem HostCall.grows {c : HostCall} {reply : c.Reply × IntraBlockState}
    (h : c.perform evm db s = some reply) : Grows db evm.keccak s reply.2 := by
  cases c with
  | accountExists a =>
    cases h
    unfold Evm.accountExists
    split_ifs
    · exact grows_isDead a s
    · exact grows_operation evm db (.existsAccount a) trivial
  | accessAccount a =>
    cases h
    unfold Evm.accessAccount
    split_ifs
    · exact .refl s
    · exact grows_operation evm db (.accessAccount a) trivial
  | accessStorage a key =>
    cases h
    exact grows_operation evm db (.accessStorage a key) trivial
  | getStorage a key =>
    cases h
    exact grows_operation evm db (.getCurrentStorage a key) trivial
  | setStorage a key value =>
    rw [HostCall.perform] at h
    split_ifs at h with ha
    cases h
    exact grows_setStorage key value ha
  | getBalance a =>
    cases h
    exact grows_operation evm db (.getBalance a) trivial
  | getCodeSize a =>
    cases h
    exact grows_operation evm db (.getCode a) trivial
  | getCodeHash a =>
    cases h
    have hdead : Grows db evm.keccak s (isDead db a s).2 := grows_isDead a s
    unfold Evm.getCodeHash
    generalize isDead db a s = x at hdead
    dsimp only
    split_ifs
    · exact hdead
    · exact hdead.trans (grows_operation evm db (.getCodeHash a) trivial)
  | copyCode a codeOffset bufferSize =>
    cases h
    exact grows_operation evm db (.getCode a) trivial
  | selfdestruct a beneficiary =>
    simp only [HostCall.perform, Option.some.injEq] at h
    subst h
    dsimp only
    exact grows_selfdestruct evm db a beneficiary s
  | emitLog a data topics =>
    cases h
    exact grows_operation evm db (.addLog ⟨a, topics, data⟩) trivial

end Host

section Frames

variable {m m' : Machine} {message : Message} {res : Result} {interpreter : Interpreter}

variable (evm db) in
/-- The journal only grows and the address stack is the same afterwards. -/
def Keeps (interpreter : Interpreter) : Prop :=
  ∀ m res m', interpreter m = some (res, m') →
    Grows db evm.keccak m.state m'.state ∧ m'.addressStack = m.addressStack

theorem Keeps.execute (h : Keeps evm db interpreter) (destination : Address) :
    Keeps evm db (execute destination interpreter) := by
  intro m res m' hm
  obtain ⟨⟨res₁, m₁⟩, hrun, heq⟩ := Option.bind_eq_some_iff.mp hm
  cases heq
  obtain ⟨hg, hs⟩ := h _ _ _ hrun
  exact ⟨hg, by rw [hs]; rfl⟩

/-- How a frame that was entered at `s` ends. -/
structure Ended (evm : Config) (db : B) (s : IntraBlockState) (stack : List Address) (res : Result)
    (m' : Machine) : Prop where
  grows : Grows db evm.keccak s m'.state
  reverted : res.statusCode ≠ .success → Cached db evm.keccak s m'.state
  stack : m'.addressStack = stack
  gas : res.statusCode ≠ .success → res.statusCode ≠ .revert →
    res.statusCode ≠ .insufficientBalance → res.gasLeft = 0

/-- The caches that were filled before the frame do not count. -/
theorem Ended.of_cached {s t : IntraBlockState} {stack : List Address}
    (h : Ended evm db t stack res m') (hs : Cached db evm.keccak s t) :
    Ended evm db s stack res m' :=
  ⟨hs.grows.trans h.grows, fun hf => hs.trans (h.reverted hf), h.stack, h.gas⟩

/-- A frame that ends before anything but caches changed. -/
theorem Ended.of_caches {s : IntraBlockState} (h : Cached db evm.keccak s m.state)
    (hr : res.statusCode = .success ∨ res.statusCode = .insufficientBalance) :
    Ended evm db s m.addressStack res m := by
  refine ⟨h.grows, fun _ => h, rfl, fun hs _ hi => ?_⟩
  rcases hr with hr | hr
  · exact absurd hr hs
  · exact absurd hr hi

theorem leave_ended {s : IntraBlockState} {res₁ : Result} (hm : Grows db evm.keccak s m.state)
    (h : leave (takeSnapshot s) res₁ m = (res, m')) : Ended evm db s m.addressStack res m' := by
  have hrevert := hm.cached_revertToSnapshot
  unfold leave at h
  split_ifs at h with hs hr
  · cases h
    exact ⟨hm, fun h => absurd hs h, rfl, fun h => absurd hs h⟩
  · cases h
    exact ⟨hrevert.grows, fun _ => hrevert, rfl, fun _ h => absurd hr h⟩
  · cases h
    exact ⟨hrevert.grows, fun _ => hrevert, rfl, fun _ _ _ => rfl⟩

variable (evm db) in
theorem lacksBalance_cached (message : Message) (s : IntraBlockState) :
    Cached db evm.keccak s (lacksBalance db message s).2 := by
  unfold lacksBalance
  split_ifs
  · exact ⟨.refl s, rfl, rfl, rfl⟩
  · dsimp only
    rw [getBalance, getObject_eq]
    exact cached_load db evm.keccak message.sender s

variable (evm db) in
theorem lacksCallee_cached (message : Message) (s : IntraBlockState) :
    Cached db evm.keccak s (lacksCallee evm db message s).2 := by
  unfold lacksCallee
  split_ifs
  · dsimp only
    rw [existsAccount, getObject_eq]
    exact cached_load db evm.keccak message.destination s
  · exact ⟨.refl s, rfl, rfl, rfl⟩

variable (evm db) in
theorem transfer_grows (message : Message) (s : IntraBlockState) :
    Grows db evm.keccak s (transfer db message s) := by
  unfold transfer
  split_ifs
  · exact .refl s
  · exact grows_operation evm db (.touch message.destination) trivial
  · have hsub : Grows db evm.keccak s
        (subtractFromBalance db message.sender message.value s) :=
      grows_operation evm db (.subtractFromBalance message.sender message.value) trivial
    generalize subtractFromBalance db message.sender message.value s = t at hsub ⊢
    have hadd : Grows db evm.keccak t (addToBalance db message.destination message.value t) :=
      grows_operation evm db (.addToBalance message.destination message.value) trivial
    exact hsub.trans hadd

theorem call_ended (hi : Keeps evm db interpreter)
    (h : call evm db message interpreter m = some (res, m')) :
    Ended evm db m.state m.addressStack res m' := by
  have hbalance := lacksBalance_cached evm db message m.state
  unfold call at h
  generalize lacksBalance db message m.state = x at hbalance h
  obtain ⟨insufficient, s₁⟩ := x
  dsimp only at hbalance h
  by_cases hb : insufficient = true
  · rw [if_pos hb] at h
    cases h
    exact Ended.of_caches (m := { m with state := s₁ }) hbalance (.inr rfl)
  rw [if_neg hb] at h
  have hcallee := lacksCallee_cached evm db message s₁
  generalize lacksCallee evm db message s₁ = x at hcallee h
  obtain ⟨absent, s₂⟩ := x
  dsimp only at hcallee h
  have hcached := hbalance.trans hcallee
  by_cases ha : absent = true
  · rw [if_pos ha] at h
    cases h
    exact Ended.of_caches (m := { m with state := s₂ }) hcached (.inl rfl)
  rw [if_neg ha] at h
  have htransfer := transfer_grows evm db message s₂
  generalize transfer db message s₂ = s₃ at htransfer h
  by_cases hp : isPrecompiled evm message.destination = true
  · rw [if_pos hp] at h
    exact (leave_ended htransfer (Option.some.inj h)).of_cached hcached
  rw [if_neg hp] at h
  have hcode : Grows db evm.keccak s₂ (getCode db message.destination s₃).2 :=
    htransfer.trans (getCode_spec db evm.keccak _ _).2.grows
  generalize getCode db message.destination s₃ = y at hcode h
  obtain ⟨code, s₄⟩ := y
  dsimp only at hcode h
  by_cases hc : code = []
  · rw [if_pos hc] at h
    cases h
    exact ⟨hcached.grows.trans hcode, fun hf => absurd rfl hf, rfl, fun hf => absurd rfl hf⟩
  rw [if_neg hc] at h
  have hhash : Grows db evm.keccak s₄ (IntraBlockState.getCodeHash db message.destination s₄).2 :=
    grows_operation evm db (.getCodeHash message.destination) trivial
  generalize IntraBlockState.getCodeHash db message.destination s₄ = z at hhash h
  obtain ⟨⟨res₁, m₁⟩, hrun, heq⟩ := Option.bind_eq_some_iff.mp h
  obtain ⟨hg, hs⟩ := (hi.execute _) _ _ _ hrun
  have hend := leave_ended ((hcode.trans hhash).trans hg) (Option.some.inj heq)
  rw [hs] at hend
  exact hend.of_cached hcached

variable (evm db) in
theorem enterCreation_grows (message : Message) (contractAddr : Address) (s : IntraBlockState) :
    Grows db evm.keccak s (enterCreation evm db message contractAddr s) := by
  have hcreate : Grows db evm.keccak s (createContract db contractAddr s) :=
    grows_operation evm db (.createContract contractAddr) trivial
  unfold enterCreation
  dsimp only
  generalize createContract db contractAddr s = s₁ at hcreate ⊢
  have hnonce : Grows db evm.keccak s₁
      (if .spuriousDragon ≤ evm.revision then setNonce db contractAddr 1 s₁ else s₁) := by
    split_ifs
    · exact grows_operation evm db (.setNonce contractAddr 1) trivial
    · exact .refl s₁
  generalize (if .spuriousDragon ≤ evm.revision then setNonce db contractAddr 1 s₁ else s₁) = s₂
    at hnonce ⊢
  have hsub : Grows db evm.keccak s₂ (subtractFromBalance db message.sender message.value s₂) :=
    grows_operation evm db (.subtractFromBalance message.sender message.value) trivial
  generalize subtractFromBalance db message.sender message.value s₂ = s₃ at hsub ⊢
  have hadd : Grows db evm.keccak s₃ (addToBalance db contractAddr message.value s₃) :=
    grows_operation evm db (.addToBalance contractAddr message.value) trivial
  exact ((hcreate.trans hnonce).trans hsub).trans hadd

variable (evm db) in
theorem depositCode_grows (contractAddr : Address) (res : Result) (m : Machine) :
    Grows db evm.keccak m.state (depositCode evm db contractAddr res m).2.state ∧
      (depositCode evm db contractAddr res m).2.addressStack = m.addressStack := by
  unfold depositCode
  dsimp only
  split_ifs
  · exact ⟨.refl _, rfl⟩
  · exact ⟨.refl _, rfl⟩
  · exact ⟨grows_operation evm db (.setCode contractAddr res.outputData) trivial, rfl⟩
  · exact ⟨.refl _, rfl⟩
  · exact ⟨.refl _, rfl⟩

variable (evm db) in
/-- What a creation changes before its frame: the nonce of the sender and the accesses. -/
def announce (message : Message) (s : IntraBlockState) : IntraBlockState :=
  let (_, s) := getBalance db message.sender s
  let (nonce, s) := getNonce db message.sender s
  let s := setNonce db message.sender (nonce + 1) s
  (IntraBlockState.accessAccount (contractAddress evm message nonce) s).2

theorem create_ended (hi : Keeps evm db interpreter)
    (h : create evm db message interpreter m = some (res, m')) :
    if (getBalance db message.sender m.state).1 < message.value then
      Ended evm db m.state m.addressStack res m' ∧ res.statusCode = .insufficientBalance
    else Ended evm db (announce evm db message m.state) m.addressStack res m' := by
  unfold create at h
  unfold announce
  dsimp only at h ⊢
  have hbalance : Cached db evm.keccak m.state (getBalance db message.sender m.state).2 := by
    rw [getBalance, getObject_eq]
    exact cached_load db evm.keccak message.sender m.state
  generalize getBalance db message.sender m.state = x at hbalance h ⊢
  split_ifs with hb
  · rw [if_pos hb] at h
    cases h
    exact ⟨Ended.of_caches (m := { m with state := x.2 }) hbalance (.inr rfl), rfl⟩
  rw [if_neg hb] at h
  generalize getNonce db message.sender x.2 = y at h ⊢
  generalize contractAddress evm message y.1 = contractAddr at h ⊢
  generalize (IntraBlockState.accessAccount contractAddr (setNonce db message.sender (y.1 + 1) y.2)).2 = s
    at h ⊢
  have hnonce : Cached db evm.keccak s (getNonce db contractAddr s).2 := by
    rw [getNonce, getObject_eq]
    exact cached_load db evm.keccak contractAddr s
  generalize getNonce db contractAddr s = z at hnonce h
  have hhash : Cached db evm.keccak z.2 (if z.1 = 0 then
      IntraBlockState.getCodeHash db contractAddr z.2 else (kEmptyHash, z.2)).2 := by
    split_ifs
    · rw [IntraBlockState.getCodeHash, getObject_eq]
      exact cached_load db evm.keccak contractAddr z.2
    · exact ⟨.refl _, rfl, rfl, rfl⟩
  generalize (if z.1 = 0 then IntraBlockState.getCodeHash db contractAddr z.2
    else (kEmptyHash, z.2)) = w at hhash h
  have hcached := hnonce.trans hhash
  by_cases hcollision : z.1 ≠ 0 ∨ w.1 ≠ kEmptyHash
  · rw [if_pos hcollision] at h
    cases h
    exact ⟨hcached.grows, fun _ => hcached, rfl, fun _ _ _ => rfl⟩
  rw [if_neg hcollision] at h
  obtain ⟨⟨res₁, m₁⟩, hrun, heq⟩ := Option.bind_eq_some_iff.mp h
  obtain ⟨hg, hs⟩ := (hi.execute _) _ _ _ hrun
  have hdeposit := depositCode_grows evm db contractAddr res₁ m₁
  dsimp only at heq
  generalize depositCode evm db contractAddr res₁ m₁ = v at hdeposit heq
  have hcreation := enterCreation_grows evm db message contractAddr w.2
  generalize enterCreation evm db message contractAddr w.2 = s₁ at hcreation hg hs
  have hend := leave_ended (hcreation.trans (hg.trans hdeposit.1)) (Option.some.inj heq)
  rw [hdeposit.2, hs] at hend
  exact hend.of_cached hcached

variable (evm db) in
theorem announce_grows (message : Message) (s : IntraBlockState) :
    Grows db evm.keccak s (announce evm db message s) := by
  have hbalance : Grows db evm.keccak s (getBalance db message.sender s).2 :=
    grows_operation evm db (.getBalance message.sender) trivial
  unfold announce
  dsimp only
  generalize (getBalance db message.sender s).2 = s₁ at hbalance ⊢
  have hnonce : Grows db evm.keccak s₁ (getNonce db message.sender s₁).2 :=
    grows_operation evm db (.getNonce message.sender) trivial
  generalize getNonce db message.sender s₁ = y at hnonce ⊢
  have hset : Grows db evm.keccak y.2 (setNonce db message.sender (y.1 + 1) y.2) :=
    grows_operation evm db (.setNonce message.sender (y.1 + 1)) trivial
  generalize setNonce db message.sender (y.1 + 1) y.2 = s₂ at hset ⊢
  have haccess : Grows db evm.keccak s₂
      (IntraBlockState.accessAccount (contractAddress evm message y.1) s₂).2 :=
    grows_operation evm db (.accessAccount (contractAddress evm message y.1)) trivial
  exact ((hbalance.trans hnonce).trans hset).trans haccess

theorem Keeps.hostCall (hi : Keeps evm db interpreter) (message : Message) :
    Keeps evm db (hostCall evm db message interpreter) := by
  intro m res m' h
  unfold Evm.hostCall at h
  split_ifs at h with hk
  · obtain ⟨⟨res₁, m₁⟩, hrun, heq⟩ := Option.bind_eq_some_iff.mp h
    cases heq
    have hend := create_ended hi hrun
    split_ifs at hend
    · exact ⟨hend.1.grows, hend.1.stack⟩
    · exact ⟨(announce_grows evm db message m.state).trans hend.grows, hend.stack⟩
  · have hend := call_ended hi h
    exact ⟨hend.grows, hend.stack⟩

variable (evm db) in
/-- Every run of an interpreter, by induction over the tree of its calls. -/
theorem Behaviour.keeps (b : Behaviour) : Keeps evm db (b.run evm db) := by
  induction b with
  | done statusCode gasLeft outputData =>
    intro m res m' h
    cases h
    exact ⟨.refl _, rfl⟩
  | host c next ih =>
    intro m res m' h
    obtain ⟨⟨reply, s⟩, hc, hnext⟩ := Option.bind_eq_some_iff.mp h
    obtain ⟨hg, hs⟩ := ih reply _ _ _ hnext
    exact ⟨(HostCall.grows hc).trans hg, hs⟩
  | message msg inner next ihi ihn =>
    intro m res m' h
    obtain ⟨⟨res₁, m₁⟩, hc, hnext⟩ := Option.bind_eq_some_iff.mp h
    obtain ⟨hg₁, hs₁⟩ := ihi.hostCall msg _ _ _ hc
    obtain ⟨hg₂, hs₂⟩ := ihn res₁ _ _ _ hnext
    exact ⟨hg₁.trans hg₂, hs₂.trans hs₁⟩

end Frames

end Silkworm.Evm
