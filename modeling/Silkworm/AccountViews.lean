import Silkworm.EvmFrames
import Silkworm.ExecutionProcessor
import Silkworm.OperationViews

/-!
# Operations that leave the accounts alone

Reads fill caches, and accesses, refunds, logs and the storage are kept apart from the accounts. The
calls to the host other than destructions do no more.
-/

namespace Silkworm

/-- No nonce, no balance and no code. -/
def Account.IsEmpty (account : Account) : Prop :=
  account.nonce = 0 ∧ account.balance = 0 ∧ account.codeHash = kEmptyHash

namespace IntraBlockState
open StateBuffer

variable {B : Type} [StateBuffer B]

/-- What an account was at the beginning of the block. -/
def viewInitial (db : B) (s : IntraBlockState) (a : Address) : Option Account :=
  (viewObject db s.objects a).bind Object.initial

/-- The same accounts, to be destructed or not. None that was touched is not touched any more. -/
structure SameAccounts (db : B) (s t : IntraBlockState) : Prop where
  account : ∀ a, viewAccount db t a = viewAccount db s a
  initial : ∀ a, viewInitial db t a = viewInitial db s a
  selfDestructs : ∀ a, HashSet.contains t.selfDestructs a = HashSet.contains s.selfDestructs a
  touched : ∀ a, HashSet.contains s.touched a = true → HashSet.contains t.touched a = true

variable {db : B} {s t u : IntraBlockState}

theorem SameAccounts.refl (s : IntraBlockState) : SameAccounts db s s :=
  ⟨fun _ => rfl, fun _ => rfl, fun _ => rfl, fun _ h => h⟩

theorem SameAccounts.trans (h : SameAccounts db s t) (h' : SameAccounts db t u) :
    SameAccounts db s u :=
  ⟨fun a => (h'.account a).trans (h.account a), fun a => (h'.initial a).trans (h.initial a),
    fun a => (h'.selfDestructs a).trans (h.selfDestructs a), fun a ha => h'.touched a (h.touched a ha)⟩

theorem SameAccounts.of_eq (ho : t.objects = s.objects) (hd : t.selfDestructs = s.selfDestructs)
    (ht : t.touched = s.touched) : SameAccounts db s t := by
  refine ⟨fun a => ?_, fun a => ?_, fun a => ?_, fun a ha => ?_⟩
  · rw [viewAccount, viewAccount, ho]
  · rw [viewInitial, viewInitial, ho]
  · rw [hd]
  · rw [ht]
    exact ha

/-- An account that has been touched by a frame which failed may stay touched. -/
theorem Cached.sameAccounts {keccak : Bytes → Bytes32} (h : Cached db keccak s t) :
    SameAccounts db s t where
  account a := by rw [viewAccount, viewAccount, h.restores.object]
  initial a := by rw [viewInitial, viewInitial, h.restores.object]
  selfDestructs := h.restores.selfDestructs
  touched a ha := by
    by_cases hr : a = kRipemdAddress
    · subst hr
      exact h.restores.ripemd ha
    · rw [h.restores.touched a hr]
      exact ha

theorem SameAccounts.addRefund (h : SameAccounts db s t) (n : Uint64) :
    SameAccounts db s (addRefund n t) := h.trans (.of_eq rfl rfl rfl)

theorem SameAccounts.subtractRefund (h : SameAccounts db s t) (n : Uint64) :
    SameAccounts db s (subtractRefund n t) := h.trans (.of_eq rfl rfl rfl)

variable (db)

theorem sameAccounts_load (a : Address) (s : IntraBlockState) :
    SameAccounts db s { s with objects := load db a s } :=
  (cached_load db (fun _ => default) a s).sameAccounts

theorem sameAccounts_touch (a : Address) (s : IntraBlockState) : SameAccounts db s (touch a s) := by
  rw [touch_eq]
  refine ⟨fun _ => rfl, fun _ => rfl, fun _ => rfl, fun a' ha => ?_⟩
  rw [HashSet.contains_insert, ha, Bool.or_true]

theorem sameAccounts_getBalance (a : Address) (s : IntraBlockState) :
    SameAccounts db s (getBalance db a s).2 := by
  rw [getBalance, getObject_eq]
  exact sameAccounts_load db a s

theorem sameAccounts_getNonce (a : Address) (s : IntraBlockState) :
    SameAccounts db s (getNonce db a s).2 := by
  rw [getNonce, getObject_eq]
  exact sameAccounts_load db a s

theorem sameAccounts_accessAccount (a : Address) (s : IntraBlockState) :
    SameAccounts db s (accessAccount a s).2 := by
  unfold accessAccount
  dsimp only
  split_ifs <;> exact .of_eq rfl rfl rfl

theorem sameAccounts_accessStorage (a : Address) (key : Bytes32) (s : IntraBlockState) :
    SameAccounts db s (accessStorage a key s).2 := by
  unfold accessStorage
  dsimp only
  split_ifs <;> exact .of_eq rfl rfl rfl

theorem sameAccounts_getStorage (a : Address) (key : Bytes32) (original : Bool)
    (s : IntraBlockState) : SameAccounts db s (getStorage db a key original s).2 :=
  (getStorage_spec db (fun _ => default) a key original s).2.sameAccounts

theorem sameAccounts_getCode (a : Address) (s : IntraBlockState) :
    SameAccounts db s (getCode db a s).2 :=
  (getCode_spec db (fun _ => default) a s).2.sameAccounts

theorem sameAccounts_setStorage (a : Address) (key value : Bytes32) (s : IntraBlockState) :
    SameAccounts db s (setStorage db a key value s) := by
  have hread := sameAccounts_getStorage db a key false s
  unfold setStorage getCurrentStorage
  dsimp only
  split_ifs
  · exact hread
  · exact hread.trans (.of_eq rfl rfl rfl)

theorem sameAccounts_isDead (a : Address) (s : IntraBlockState) :
    SameAccounts db s (isDead db a s).2 := by
  rw [isDead, getObject_eq]
  exact sameAccounts_load db a s

theorem isDead_fst (a : Address) (s : IntraBlockState) : (isDead db a s).1 = true ↔
    ∀ account, viewAccount db s a = some account → account.IsEmpty := by
  rw [isDead, getObject_eq, viewAccount]
  dsimp only
  cases (viewObject db s.objects a).bind Object.current with
  | none => simp
  | some account =>
    simp only [decide_eq_true_eq, Option.some.injEq, forall_eq']
    rw [Account.IsEmpty, and_comm, and_assoc]

theorem viewAccount_destruct (a : Address) (s : IntraBlockState) (a' : Address) :
    viewAccount db (destruct db a s) a' = if a' = a then none else viewAccount db s a' := by
  rw [viewAccount, viewObject_destruct]
  split_ifs
  · cases viewObject db s.objects a <;> rfl
  · rfl

theorem sameAccounts_accessEntries (accessList : List AccessListEntry) (s : IntraBlockState) :
    SameAccounts db s (ExecutionProcessor.accessEntries accessList s) := by
  unfold ExecutionProcessor.accessEntries
  induction accessList generalizing s with
  | nil => exact .refl s
  | cons ae accessList ih =>
    refine SameAccounts.trans ?_ (ih _)
    have hkeys (keys : List Bytes32) (s : IntraBlockState) :
        SameAccounts db s (keys.foldl (fun s key => (accessStorage ae.account key s).2) s) := by
      induction keys generalizing s with
      | nil => exact .refl s
      | cons key keys ihk => exact (sameAccounts_accessStorage db ae.account key s).trans (ihk _)
    exact (sameAccounts_accessAccount db ae.account s).trans (hkeys ae.storageKeys _)

end IntraBlockState

namespace Evm
open IntraBlockState

variable {B : Type} [StateBuffer B] {evm : Config} {db : B} {s t : IntraBlockState}

theorem sameAccounts_setStorageEip1283 (h : SameAccounts db s t)
    (originalVal currentVal newVal : Bytes32) :
    SameAccounts db s (setStorageEip1283 evm originalVal currentVal newVal t).2 := by
  unfold setStorageEip1283
  dsimp only
  split_ifs
  all_goals
    repeat first
      | with_reducible exact h
      | with_reducible apply SameAccounts.addRefund
      | with_reducible apply SameAccounts.subtractRefund

/-- The calls to the host other than destructions leave the accounts alone. -/
theorem HostCall.sameAccounts {c : HostCall} {reply : c.Reply × IntraBlockState}
    (h : c.perform evm db s = some reply) (hc : ∀ a beneficiary, c ≠ .selfdestruct a beneficiary) :
    SameAccounts db s reply.2 := by
  cases c with
  | accountExists a =>
    cases h
    unfold Evm.accountExists
    split_ifs
    · exact sameAccounts_isDead db a s
    · rw [existsAccount, getObject_eq]
      exact sameAccounts_load db a s
  | accessAccount a =>
    cases h
    unfold Evm.accessAccount
    split_ifs
    · exact .refl s
    · exact sameAccounts_accessAccount db a s
  | accessStorage a key =>
    cases h
    exact sameAccounts_accessStorage db a key s
  | getStorage a key =>
    cases h
    exact sameAccounts_getStorage db a key false s
  | setStorage a key value =>
    rw [HostCall.perform] at h
    split_ifs at h with ha
    cases h
    have hread := sameAccounts_getStorage db a key false s
    have hset := hread.trans (sameAccounts_setStorage db a key value _)
    have horiginal := hset.trans (sameAccounts_getStorage db a key true _)
    unfold Evm.setStorage getCurrentStorage getOriginalStorage
    dsimp only
    split_ifs
    · exact hread
    · exact sameAccounts_setStorageEip1283 horiginal ..
    · exact hset
    · exact hset.addRefund _
    · exact hset
  | getBalance a =>
    cases h
    exact sameAccounts_getBalance db a s
  | getCodeSize a =>
    cases h
    exact sameAccounts_getCode db a s
  | getCodeHash a =>
    cases h
    have hread := sameAccounts_isDead db a s
    unfold Evm.getCodeHash
    dsimp only
    split_ifs
    · exact hread
    · rw [IntraBlockState.getCodeHash, getObject_eq]
      exact hread.trans (sameAccounts_load db a _)
  | copyCode a codeOffset bufferSize =>
    cases h
    exact sameAccounts_getCode db a s
  | selfdestruct a beneficiary => exact absurd rfl (hc a beneficiary)
  | emitLog a data topics =>
    cases h
    exact .of_eq rfl rfl rfl

end Evm
end Silkworm
