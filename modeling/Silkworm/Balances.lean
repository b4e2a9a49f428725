import Silkworm.AccountViews
import Silkworm.Ledgers
import Silkworm.Refunds
import Silkworm.WatchedExecution

/-!
# Balances

The arithmetic on balances is unchecked. As long as the balances do not sum up to more than a
balance can hold, a transfer wraps nothing around and keeps the sum, and frames that are reverted
give back what they moved. Only an account that destructs itself in its own favour loses its
balance.
-/

namespace Silkworm

noncomputable instance : Fintype Address := Fintype.ofFinite Address

namespace IntraBlockState
open StateBuffer Ledgers

variable {B : Type} [StateBuffer B]

section Views

variable (db : B)

def balanceOf (s : IntraBlockState) (a : Address) : Uint256 :=
  ((viewAccount db s a).map Account.balance).getD 0

noncomputable def supply (s : IntraBlockState) : ℕ := total fun a => (balanceOf db s a).toNat

/-- The same balances and the same accounts to be destructed. -/
structure SameFunds (s t : IntraBlockState) : Prop where
  balance : ∀ a, balanceOf db t a = balanceOf db s a
  selfDestructs : ∀ a, HashSet.contains t.selfDestructs a = HashSet.contains s.selfDestructs a

/-- The sum does not grow, and if no account is to be destructed in the end it is the same. -/
structure Conserved (s t : IntraBlockState) : Prop where
  le : supply db t ≤ supply db s
  eq : supply db t = supply db s ∨ ∃ a, HashSet.contains t.selfDestructs a = true
  selfDestructs : ∀ a, HashSet.contains s.selfDestructs a = true →
    HashSet.contains t.selfDestructs a = true

end Views

variable {db : B} {s t u : IntraBlockState} {a : Address} {v : Uint256}

theorem SameFunds.refl (s : IntraBlockState) : SameFunds db s s := ⟨fun _ => rfl, fun _ => rfl⟩

theorem SameFunds.of_eq (ho : t.objects = s.objects) (hd : t.selfDestructs = s.selfDestructs) :
    SameFunds db s t := by
  constructor
  · intro a
    rw [balanceOf, balanceOf, viewAccount, viewAccount, ho]
  · intro a
    rw [hd]

theorem SameFunds.trans (h : SameFunds db s t) (h' : SameFunds db t u) : SameFunds db s u :=
  ⟨fun a => (h'.balance a).trans (h.balance a),
    fun a => (h'.selfDestructs a).trans (h.selfDestructs a)⟩

theorem SameFunds.supply (h : SameFunds db s t) : supply db t = supply db s :=
  total_congr fun a => congrArg BitVec.toNat (h.balance a)

theorem SameFunds.conserved (h : SameFunds db s t) : Conserved db s t :=
  ⟨h.supply.le, .inl h.supply, fun a ha => (h.selfDestructs a).trans ha⟩

theorem Conserved.trans (h : Conserved db s t) (h' : Conserved db t u) : Conserved db s u where
  le := h'.le.trans h.le
  eq := by
    rcases h'.eq with heq' | hsome
    · rcases h.eq with heq | ⟨a, ha⟩
      · exact .inl (heq'.trans heq)
      · exact .inr ⟨a, h'.selfDestructs a ha⟩
    · exact .inr hsome
  selfDestructs a ha := h'.selfDestructs a (h.selfDestructs a ha)

theorem SameAccounts.sameFunds (h : SameAccounts db s t) : SameFunds db s t where
  balance a := by
    rw [balanceOf, balanceOf, h.account]
  selfDestructs := h.selfDestructs

theorem Cached.sameFunds {keccak : Bytes → Bytes32} (h : Cached db keccak s t) :
    SameFunds db s t := h.sameAccounts.sameFunds

section Setters

variable (db)

theorem getBalance_eq_balanceOf (a : Address) (s : IntraBlockState) :
    (getBalance db a s).1 = balanceOf db s a := by
  rw [getBalance, getObject_eq]
  rfl

theorem balanceOf_updateObject (a : Address) (f : Account → Account) (s : IntraBlockState)
    (a' : Address) : balanceOf db (updateObject db a f s) a' =
      if a' = a then (f ((viewAccount db s a).getD {})).balance else balanceOf db s a' := by
  rw [balanceOf, viewAccount_updateObject]
  split_ifs <;> rfl

theorem balance_getD (s : IntraBlockState) (a : Address) :
    ((viewAccount db s a).getD {}).balance = balanceOf db s a := by
  rw [balanceOf]
  cases viewAccount db s a <;> rfl

theorem sameFunds_touch (a : Address) (s : IntraBlockState) : SameFunds db s (touch a s) :=
  (sameAccounts_touch db a s).sameFunds

theorem sameFunds_updateObject {f : Account → Account}
    (hf : ∀ account, (f account).balance = account.balance) (a : Address) (s : IntraBlockState) :
    SameFunds db s (updateObject db a f s) := by
  constructor
  · intro a'
    rw [balanceOf_updateObject, hf, balance_getD]
    split_ifs with h
    · rw [h]
    · rfl
  · intro a'
    rw [updateObject_eq]

theorem sameFunds_setNonce (a : Address) (nonce : Uint64) (s : IntraBlockState) :
    SameFunds db s (setNonce db a nonce s) :=
  sameFunds_updateObject (f := fun account => { account with nonce }) db (fun _ => rfl) a s

theorem sameFunds_setCode (keccak : Bytes → Bytes32) (a : Address) (code : Bytes)
    (s : IntraBlockState) : SameFunds db s (setCode db keccak a code s) := by
  have hupdate := sameFunds_updateObject
    (f := fun account => { account with codeHash := keccak code }) db (fun _ => rfl) a s
  exact hupdate.trans (.of_eq rfl rfl)

theorem sameFunds_createContract (a : Address) (s : IntraBlockState) :
    SameFunds db s (createContract db a s) := by
  constructor
  · intro a'
    rw [balanceOf, balanceOf, viewAccount, viewAccount, viewObject_createContract]
    split_ifs with h
    · rw [h]
      rfl
    · rfl
  · intro a'
    unfold createContract
    rw [getObject_eq]
    dsimp only [record]
    split <;> rfl

theorem sameFunds_getBalance (a : Address) (s : IntraBlockState) :
    SameFunds db s (getBalance db a s).2 := (sameAccounts_getBalance db a s).sameFunds

theorem sameFunds_getNonce (a : Address) (s : IntraBlockState) :
    SameFunds db s (getNonce db a s).2 := (sameAccounts_getNonce db a s).sameFunds

theorem sameFunds_accessAccount (a : Address) (s : IntraBlockState) :
    SameFunds db s (accessAccount a s).2 := (sameAccounts_accessAccount db a s).sameFunds

theorem balanceOf_setBalance (a : Address) (v : Uint256) (s : IntraBlockState) (a' : Address) :
    balanceOf db (setBalance db a v s) a' = if a' = a then v else balanceOf db s a' := by
  rw [setBalance, (sameFunds_touch db a _).balance, balanceOf_updateObject]

theorem balanceOf_addToBalance (a : Address) (v : Uint256) (s : IntraBlockState) (a' : Address) :
    balanceOf db (addToBalance db a v s) a' =
      if a' = a then balanceOf db s a + v else balanceOf db s a' := by
  rw [addToBalance, (sameFunds_touch db a _).balance, balanceOf_updateObject, balance_getD]

theorem balanceOf_subtractFromBalance (a : Address) (v : Uint256) (s : IntraBlockState)
    (a' : Address) : balanceOf db (subtractFromBalance db a v s) a' =
      if a' = a then balanceOf db s a - v else balanceOf db s a' := by
  rw [subtractFromBalance, (sameFunds_touch db a _).balance, balanceOf_updateObject, balance_getD]

theorem selfDestructs_updateAndTouch (a : Address) (f : Account → Account) (s : IntraBlockState) :
    (touch a (updateObject db a f s)).selfDestructs = s.selfDestructs := by
  rw [touch_eq, updateObject_eq]

/-- The balances after a setter. -/
theorem supply_updateBalance (h : ∀ a', balanceOf db t a' = if a' = a then v else balanceOf db s a') :
    supply db t + (balanceOf db s a).toNat = supply db s + v.toNat := by
  refine total_set (f := fun a => (balanceOf db s a).toNat) fun a' => ?_
  rw [h]
  split_ifs <;> rfl

variable {db}

theorem supply_setBalance (a : Address) (v : Uint256) (s : IntraBlockState) :
    supply db (setBalance db a v s) + (balanceOf db s a).toNat = supply db s + v.toNat :=
  supply_updateBalance db (balanceOf_setBalance db a v s)

theorem supply_addToBalance (h : (balanceOf db s a).toNat + v.toNat < 2 ^ 256) :
    supply db (addToBalance db a v s) = supply db s + v.toNat := by
  have hset := supply_updateBalance db (balanceOf_addToBalance db a v s)
  have hadd : (balanceOf db s a + v).toNat = (balanceOf db s a).toNat + v.toNat := by
    rw [BitVec.toNat_add, Nat.mod_eq_of_lt h]
  omega

theorem supply_subtractFromBalance (h : v.toNat ≤ (balanceOf db s a).toNat) :
    supply db (subtractFromBalance db a v s) + v.toNat = supply db s := by
  have hset := supply_updateBalance db (balanceOf_subtractFromBalance db a v s)
  have hsub : (balanceOf db s a - v).toNat = (balanceOf db s a).toNat - v.toNat :=
    BitVec.toNat_sub_of_le h
  omega

variable (db) in
theorem balanceOf_le_supply (s : IntraBlockState) (a : Address) :
    (balanceOf db s a).toNat ≤ supply db s := le_total (fun a => (balanceOf db s a).toNat) a

variable (db) in
theorem balanceOf_add_le_supply (s : IntraBlockState) {a b : Address} (h : a ≠ b) :
    (balanceOf db s a).toNat + (balanceOf db s b).toNat ≤ supply db s :=
  add_le_total (fun a => (balanceOf db s a).toNat) h

end Setters

end IntraBlockState

namespace Evm
open IntraBlockState

variable {B : Type} [StateBuffer B] {evm : Config} {db : B} {s t : IntraBlockState}

/-- Sums, differences and products are checked, except for the balance that an account leaves to
itself, which is overwritten at once. -/
def Hooks.checked (db : B) : Hooks where
  multiply gas gasPrice :=
    if gas.toNat * gasPrice.toNat < 2 ^ 256 then some (ExecutionProcessor.gasCost gas gasPrice)
    else none
  add a addend s :=
    if (balanceOf db s a).toNat + addend.toNat < 2 ^ 256 then some (addToBalance db a addend s)
    else none
  addOwn a addend s := some (addToBalance db a addend s)
  subtract a subtrahend s :=
    if subtrahend.toNat ≤ (balanceOf db s a).toNat then some (subtractFromBalance db a subtrahend s)
    else none
  admits _ _ := true

/-- The balance that an account leaves to itself is checked, too. -/
def Hooks.strict (db : B) : Hooks := { Hooks.checked db with addOwn := (Hooks.checked db).add }

theorem checked_add {a : Address} {v : Uint256}
    (h : (balanceOf db s a).toNat + v.toNat < 2 ^ 256) :
    (Hooks.checked db).add a v s = some (addToBalance db a v s) := if_pos h

theorem checked_subtract {a : Address} {v : Uint256} (h : v.toNat ≤ (balanceOf db s a).toNat) :
    (Hooks.checked db).subtract a v s = some (subtractFromBalance db a v s) := if_pos h

section Host

variable (db) in
/-- A destruction, in terms of the state in which the balance of the account is read. -/
theorem exists_destructing (a beneficiary : Address) (s : IntraBlockState) :
    ∃ t, (∀ a', balanceOf db t a' = balanceOf db s a') ∧
      t.selfDestructs = HashSet.insert s.selfDestructs a ∧
      selfdestruct db a beneficiary s =
        setBalance db a 0 (addToBalance db beneficiary (balanceOf db s a) t) ∧
      ∀ hooks : Hooks, selfdestructWith hooks db a beneficiary s =
        (if beneficiary = a then hooks.addOwn beneficiary (balanceOf db s a) t
          else hooks.add beneficiary (balanceOf db s a) t).bind
            fun s => some (setBalance db a 0 s) := by
  have hrecord (a' : Address) : balanceOf db (recordSuicide a s) a' = balanceOf db s a' := by
    unfold recordSuicide
    dsimp only
    split_ifs <;> rfl
  have hread : getBalance db a (recordSuicide a s) =
      (balanceOf db s a, { recordSuicide a s with objects := load db a (recordSuicide a s) }) := by
    apply Prod.ext
    · rw [getBalance_eq_balanceOf, hrecord]
    · rw [getBalance, getObject_eq]
  have hload := (cached_load db (fun _ => default) a (recordSuicide a s)).sameFunds
  refine ⟨_, fun a' => (hload.balance a').trans (hrecord a'), ?_, ?_, fun hooks => ?_⟩
  · unfold recordSuicide
    dsimp only
    split_ifs <;> rfl
  · unfold selfdestruct
    dsimp only
    rw [hread]
  · unfold selfdestructWith
    dsimp only
    rw [hread]
    split_ifs <;> rfl

theorem selfdestructWith_checked (hs : supply db s < 2 ^ 256) (a beneficiary : Address) :
    selfdestructWith (.checked db) db a beneficiary s = some (selfdestruct db a beneficiary s) ∧
      Conserved db s (selfdestruct db a beneficiary s) := by
  obtain ⟨t, hbalance, hset, heq, hwith⟩ := exists_destructing db a beneficiary s
  have hsupply : supply db t = supply db s :=
    Ledgers.total_congr fun a' => congrArg BitVec.toNat (hbalance a')
  have hdestructs : (selfdestruct db a beneficiary s).selfDestructs =
      HashSet.insert s.selfDestructs a := by
    rw [heq, setBalance, selfDestructs_updateAndTouch, addToBalance, selfDestructs_updateAndTouch,
      hset]
  have hle : selfdestructWith (.checked db) db a beneficiary s =
      some (selfdestruct db a beneficiary s) ∧
        supply db (selfdestruct db a beneficiary s) ≤ supply db s := by
    rw [hwith, heq]
    by_cases ha : beneficiary = a
    · -- the balance of the account is overwritten, whatever it has become
      subst ha
      rw [if_pos rfl]
      refine ⟨rfl, ?_⟩
      have hzero : supply db (setBalance db beneficiary 0 (addToBalance db beneficiary
          (balanceOf db s beneficiary) t)) + (balanceOf db t beneficiary).toNat =
          supply db t + 0 := by
        apply supply_updateBalance (v := 0)
        intro a'
        rw [balanceOf_setBalance, balanceOf_addToBalance]
        split_ifs <;> rfl
      omega
    · have hfits := balanceOf_add_le_supply db t ha
      rw [hbalance a] at hfits
      rw [if_neg ha]
      have hlt : (balanceOf db t beneficiary).toNat + (balanceOf db s a).toNat < 2 ^ 256 := by omega
      refine ⟨?_, ?_⟩
      · rw [checked_add hlt]
        rfl
      · have hadd := supply_addToBalance hlt
        have hzero : _ + (balanceOf db (addToBalance db beneficiary (balanceOf db s a) t) a).toNat =
          _ + 0 := supply_setBalance a 0 _
        rw [balanceOf_addToBalance, if_neg (Ne.symm ha), hbalance] at hzero
        omega
  refine ⟨hle.1, hle.2, .inr ⟨a, ?_⟩, fun a' ha' => ?_⟩
  · rw [hdestructs, HashSet.contains_insert]
    simp
  · rw [hdestructs, HashSet.contains_insert, ha', Bool.or_true]

variable (evm) in
/-- One host call. -/
theorem HostCall.performWith_checked (c : HostCall) (hs : supply db s < 2 ^ 256) :
    c.performWith (.checked db) evm db s = c.perform evm db s ∧
      ∀ reply, c.perform evm db s = some reply → Conserved db s reply.2 := by
  by_cases hc : ∀ a beneficiary, c ≠ .selfdestruct a beneficiary
  · refine ⟨?_, fun reply h => (HostCall.sameAccounts h hc).sameFunds.conserved⟩
    cases c <;> first | rfl | exact absurd rfl (hc _ _)
  · simp only [not_forall, not_not] at hc
    obtain ⟨a, beneficiary, rfl⟩ := hc
    obtain ⟨hwith, hconserved⟩ := selfdestructWith_checked hs a beneficiary
    refine ⟨?_, fun reply h => ?_⟩
    · change (do let s ← selfdestructWith (.checked db) db a beneficiary s; some ((), s)) =
        some ((), Evm.selfdestruct db a beneficiary s)
      rw [hwith, Option.bind_eq_bind, Option.bind_some]
    · simp only [HostCall.perform, Option.some.injEq] at h
      subst h
      dsimp only
      exact hconserved

end Host

section Frames

variable {m : Machine} {message : Message} {interpreter checked : Interpreter}

variable (db) in
/-- An interpreter that moves funds without wrapping a balance around, and the same one with
checks. -/
def Conserves (interpreter checked : Interpreter) : Prop :=
  ∀ m, supply db m.state < 2 ^ 256 → checked m = interpreter m ∧
    ∀ x, interpreter m = some x → Conserved db m.state x.2.state

theorem Conserves.execute (h : Conserves db interpreter checked) (destination : Address) :
    Conserves db (execute destination interpreter) (execute destination checked) := by
  intro m hm
  obtain ⟨heq, hconserved⟩ := h { m with addressStack := destination :: m.addressStack } hm
  refine ⟨?_, fun x hx => ?_⟩
  · unfold Evm.execute
    rw [heq]
  · obtain ⟨y, hy, heq⟩ := Option.bind_eq_some_iff.mp hx
    cases heq
    exact hconserved y hy

/-- A frame that fails gives everything back. -/
theorem conserved_leave (hg : Grows db evm.keccak s m.state) (h : Conserved db s m.state)
    (res : Result) : Conserved db s (leave (takeSnapshot s) res m).2.state := by
  have hreverted := hg.cached_revertToSnapshot.sameFunds.conserved
  unfold leave
  split_ifs
  · exact h
  · exact hreverted
  · exact hreverted

/-- A value that an account has is moved to another account. -/
theorem move_conserved (hs : supply db s < 2 ^ 256) {a : Address} {v : Uint256}
    (hv : v.toNat ≤ (balanceOf db s a).toNat) (b : Address) :
    (do
      let s ← (Hooks.checked db).subtract a v s
      (Hooks.checked db).add b v s) = some (addToBalance db b v (subtractFromBalance db a v s)) ∧
      Conserved db s (addToBalance db b v (subtractFromBalance db a v s)) := by
  have hsub := supply_subtractFromBalance hv
  have hle := balanceOf_le_supply db (subtractFromBalance db a v s) b
  have hfits : (balanceOf db (subtractFromBalance db a v s) b).toNat + v.toNat < 2 ^ 256 := by omega
  have hadd := supply_addToBalance hfits
  have hset : (addToBalance db b v (subtractFromBalance db a v s)).selfDestructs =
      s.selfDestructs := by
    rw [addToBalance, selfDestructs_updateAndTouch, subtractFromBalance,
      selfDestructs_updateAndTouch]
  refine ⟨?_, by omega, .inl (by omega), fun a' ha' => by rwa [hset]⟩
  rw [checked_subtract hv]
  exact checked_add hfits

variable (message) in
/-- The sender has what is transferred. -/
theorem transfer_conserved (hs : supply db s < 2 ^ 256)
    (hv : message.kind = .call → message.value.toNat ≤ (balanceOf db s message.sender).toNat) :
    transferWith (.checked db) message s = some (transfer db message s) ∧
      Conserved db s (transfer db message s) := by
  unfold transferWith transfer
  split_ifs with hk hstatic
  · exact ⟨rfl, (SameFunds.refl s).conserved⟩
  · exact ⟨rfl, (sameFunds_touch db message.destination s).conserved⟩
  · exact move_conserved hs (hv (not_not.mp hk)) message.destination

variable (evm message) in
theorem enterCreation_conserved (hs : supply db s < 2 ^ 256) (contractAddr : Address)
    (hv : message.value.toNat ≤ (balanceOf db s message.sender).toNat) :
    enterCreationWith (.checked db) evm db message contractAddr s =
        some (enterCreation evm db message contractAddr s) ∧
      Conserved db s (enterCreation evm db message contractAddr s) := by
  have hcreate := sameFunds_createContract db contractAddr s
  unfold enterCreationWith enterCreation
  dsimp only
  have hnonce : SameFunds db s (if .spuriousDragon ≤ evm.revision then
      setNonce db contractAddr 1 (createContract db contractAddr s)
      else createContract db contractAddr s) := by
    split_ifs
    · exact hcreate.trans (sameFunds_setNonce db contractAddr 1 _)
    · exact hcreate
  generalize (if .spuriousDragon ≤ evm.revision then
    setNonce db contractAddr 1 (createContract db contractAddr s)
    else createContract db contractAddr s) = t at hnonce ⊢
  rw [← hnonce.supply] at hs
  rw [← hnonce.balance] at hv
  obtain ⟨heq, hmoved⟩ := move_conserved hs hv contractAddr
  exact ⟨heq, hnonce.conserved.trans hmoved⟩

/-- The balance is read before a call. -/
theorem value_le_of_not_lacksBalance (h : ¬(lacksBalance db message s).1 = true)
    (hk : message.kind = .call) : message.value.toNat ≤ (balanceOf db s message.sender).toNat := by
  rw [← getBalance_eq_balanceOf]
  unfold lacksBalance at h
  rw [hk, if_neg (by decide)] at h
  simp only [decide_eq_true_eq] at h
  exact Nat.not_lt.mp h

variable (evm db) in
theorem sameFunds_callState (message : Message) (s : IntraBlockState) :
    SameFunds db s (callState evm db message s) := (cached_callState evm db message s).sameFunds

theorem Conserves.call (h : Conserves db interpreter checked)
    (hk : Keeps evm db interpreter) (message : Message) :
    Conserves db (call evm db message interpreter)
      (callWith (.checked db) evm db message checked) := by
  intro m hm
  have hstate := sameFunds_callState evm db message m.state
  have hlt : supply db (callState evm db message m.state) < 2 ^ 256 := hstate.supply.trans_lt hm
  have htransfer (hb : ¬(lacksBalance db message m.state).1 = true) :=
    transfer_conserved message hlt fun hk =>
      (value_le_of_not_lacksBalance hb hk).trans_eq (congrArg _ (hstate.balance message.sender).symm)
  have hread (s : IntraBlockState) := (cached_codeRead evm db message s).sameFunds.conserved
  rw [← callWith_plain]
  constructor
  · apply callWith_congr
    · intro hb
      rw [(htransfer hb).1, transferWith_plain]
    · intro s hb hs
      rw [transferWith_plain] at hs
      cases hs
      refine ((h.execute _) _ ?_).1
      exact ((htransfer hb).2.trans (hread _)).le.trans_lt hlt
  · intro x hx
    cases called_of_callWith hx with
    | insufficient hb => exact (lacksBalance_cached evm db message m.state).sameFunds.conserved
    | absent hb => exact hstate.conserved
    | precompiled hb ht =>
      rw [transferWith_plain] at ht
      cases ht
      exact hstate.conserved.trans (conserved_leave (m := ⟨_, m.addressStack⟩)
        (transfer_grows evm db message _) (htransfer hb).2 _)
    | codeless hb ht =>
      rw [transferWith_plain] at ht
      cases ht
      exact hstate.conserved.trans ((htransfer hb).2.trans
        (getCode_spec db evm.keccak _ _).2.sameFunds.conserved)
    | executed hb ht hc hr =>
      rw [transferWith_plain] at ht
      cases ht
      have hentered := (htransfer hb).2.trans (hread (transfer db message _))
      have hfits := hentered.le.trans_lt hlt
      have hrun := ((h.execute (callDestination message m)) { m with state := _ } hfits).2 _ hr
      have hgrows := ((transfer_grows evm db message _).trans
        (cached_codeRead evm db message _).grows).trans ((hk.execute _) _ _ _ hr).1
      exact hstate.conserved.trans (conserved_leave hgrows (hentered.trans hrun) _)

variable (evm db) in
theorem sameFunds_announce (message : Message) (s : IntraBlockState) :
    SameFunds db s (announce evm db message s) := by
  have hbalance := sameFunds_getBalance db message.sender s
  unfold announce
  dsimp only
  generalize (getBalance db message.sender s).2 = s₁ at hbalance ⊢
  have hnonce := sameFunds_getNonce db message.sender s₁
  generalize getNonce db message.sender s₁ = y at hnonce ⊢
  have hset := sameFunds_setNonce db message.sender (y.1 + 1) y.2
  have haccess := sameFunds_accessAccount db (contractAddress evm message y.1)
    (setNonce db message.sender (y.1 + 1) y.2)
  exact ((hbalance.trans hnonce).trans hset).trans haccess

variable (evm db) in
theorem sameFunds_createState (message : Message) (s : IntraBlockState) :
    SameFunds db s (createState evm db message s) :=
  (sameFunds_announce evm db message s).trans (cached_createState evm db message s).sameFunds

variable (evm db) in
theorem sameFunds_deployed (contractAddr : Address) (x : Result × Machine) :
    SameFunds db x.2.state (deployed evm db contractAddr x).2.state := by
  have hcode := sameFunds_setCode db evm.keccak contractAddr x.1.outputData x.2.state
  unfold deployed depositCode
  dsimp only
  split_ifs
  all_goals first | exact .refl _ | exact hcode

theorem Conserves.create (h : Conserves db interpreter checked)
    (hk : Keeps evm db interpreter) (message : Message) :
    Conserves db (create evm db message interpreter)
      (createWith (.checked db) evm db message checked) := by
  intro m hm
  have hstate := sameFunds_createState evm db message m.state
  have hlt : supply db (createState evm db message m.state) < 2 ^ 256 :=
    hstate.supply.trans_lt hm
  have henter (hb : ¬(getBalance db message.sender m.state).1 < message.value) :=
    enterCreation_conserved evm message hlt
      (newAddress evm db message m.state) (by
        rw [hstate.balance, ← getBalance_eq_balanceOf]
        exact Nat.not_lt.mp hb)
  rw [← createWith_plain]
  constructor
  · apply createWith_congr
    · intro hb
      rw [(henter hb).1, enterCreationWith_plain]
    · intro s hb hs
      rw [enterCreationWith_plain] at hs
      have hentered := (henter hb).2
      rw [Option.some.inj hs] at hentered
      exact ((h.execute _) { m with state := s } (hentered.le.trans_lt hlt)).1
  · intro x hx
    cases created_of_createWith hx with
    | insufficient hb =>
      exact (sameFunds_getBalance db message.sender m.state).conserved
    | collision hb => exact hstate.conserved
    | executed hb he hr =>
      rename_i s y
      rw [enterCreationWith_plain] at he
      have hentered := (henter hb).2
      have hgrows := enterCreation_grows evm db message (newAddress evm db message m.state)
        (createState evm db message m.state)
      rw [Option.some.inj he] at hentered hgrows
      have hrun := ((h.execute _) { m with state := _ } (hentered.le.trans_lt hlt)).2 _ hr
      have hdeployed := (sameFunds_deployed evm db (newAddress evm db message m.state) y).conserved
      have hframe := hgrows.trans (((hk.execute _) _ _ _ hr).1.trans
        (depositCode_grows evm db (newAddress evm db message m.state) y.1 y.2).1)
      exact hstate.conserved.trans
        (conserved_leave hframe (hentered.trans (hrun.trans hdeployed)) _)

theorem Conserves.hostCall (h : Conserves db interpreter checked)
    (hk : Keeps evm db interpreter) (message : Message) :
    Conserves db (hostCall evm db message interpreter)
      (hostCallWith (.checked db) evm db message checked) := by
  intro m hm
  unfold Evm.hostCall hostCallWith
  have hadmits : ¬¬(Hooks.checked db).admits message m = true := not_not.mpr rfl
  rw [if_neg hadmits]
  split_ifs
  · obtain ⟨heq, hconserved⟩ := h.create hk message m hm
    rw [heq]
    refine ⟨rfl, fun x hx => ?_⟩
    obtain ⟨y, hy, hx⟩ := Option.bind_eq_some_iff.mp hx
    cases hx
    exact hconserved y hy
  · exact h.call hk message m hm

variable (evm db) in
/-- Every run of an interpreter, by induction over the tree of its calls. -/
theorem Behaviour.conserves (b : Behaviour) :
    Conserves db (b.run evm db) (b.runWith (.checked db) evm db) := by
  induction b with
  | done statusCode gasLeft outputData =>
    intro m hm
    refine ⟨rfl, fun x hx => ?_⟩
    cases hx
    exact (SameFunds.refl m.state).conserved
  | host c next ih =>
    intro m hm
    obtain ⟨heq, hconserved⟩ := HostCall.performWith_checked evm c hm
    unfold run runWith
    rw [heq]
    cases hc : c.perform evm db m.state with
    | none => exact ⟨rfl, fun x hx => by cases hx⟩
    | some reply =>
      have hstep := hconserved reply hc
      obtain ⟨hnext, hrun⟩ := ih reply.1 { m with state := reply.2 } (hstep.le.trans_lt hm)
      exact ⟨hnext, fun x hx => hstep.trans (hrun x hx)⟩
  | message msg inner next ihi ihn =>
    intro m hm
    obtain ⟨heq, hconserved⟩ := ihi.hostCall (inner.keeps evm db) msg m hm
    unfold run runWith
    rw [heq]
    cases hc : Evm.hostCall evm db msg (inner.run evm db) m with
    | none => exact ⟨rfl, fun x hx => by cases hx⟩
    | some y =>
      have hstep := hconserved y hc
      obtain ⟨hnext, hrun⟩ := ihn y.1 y.2 (hstep.le.trans_lt hm)
      exact ⟨hnext, fun x hx => hstep.trans (hrun x hx)⟩

end Frames

end Evm
end Silkworm
