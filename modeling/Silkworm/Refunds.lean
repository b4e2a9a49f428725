import Silkworm.EvmFrames
import Silkworm.OperationViews
import Mathlib.Data.FinEnum
import Mathlib.Data.Set.Card
import Mathlib.Data.Set.Finite.List

/-!
# The refund counter

A slot that a transaction clears has earned the refund for it, and only such a slot gives the
refund back. Hence the counter covers the cleared slots at any time and never wraps around.
Reversals restore the counter and the slots together, and a new contract has no cleared slots.
-/

namespace Silkworm

instance (n : ℕ) : Finite (FixedBytes n) := (List.finite_length_eq UInt8 n).to_subtype

namespace Evm
open StateBuffer IntraBlockState

variable {B : Type} [StateBuffer B]

section Checks

variable (evm : Config) (db : B)

/-- The counter is only decreased by what it has. -/
def subtractRefundChecked (subtrahend : Uint64) (s : IntraBlockState) : Option IntraBlockState :=
  if subtrahend ≤ s.refund then some (subtractRefund subtrahend s) else none

variable (subtract : Uint64 → IntraBlockState → Option IntraBlockState)

/-- `setStorageEip1283` with another subtraction. -/
def setStorageEip1283With (originalVal currentVal newVal : Bytes32) (s : IntraBlockState) :
    Option (StorageStatus × IntraBlockState) :=
  if originalVal = currentVal then
    if isZero originalVal then some (.added, s)
    else some (.modified, if isZero newVal then addRefund (sstoreClearsRefund evm) s else s)
  else do
    let s ←
      if isZero originalVal then some s
      else do
        let s ← if isZero currentVal then subtract (sstoreClearsRefund evm) s else some s
        some (if isZero newVal then addRefund (sstoreClearsRefund evm) s else s)
    let s :=
      if originalVal = newVal then
        if isZero originalVal then addRefund (Fee.kGSSet - sloadCost evm) s
        else addRefund (sstoreResetGas evm - sloadCost evm) s
      else s
    some (.modifiedAgain, s)

/-- `setStorage` with another subtraction. -/
def setStorageWith (a : Address) (key newVal : Bytes32) (s : IntraBlockState) :
    Option (StorageStatus × IntraBlockState) :=
  let (currentVal, s) := getCurrentStorage db a key s
  if currentVal = newVal then some (.unchanged, s)
  else
    let s := IntraBlockState.setStorage db a key newVal s
    if .istanbul ≤ evm.revision ∨ evm.revision = .constantinople then
      let (originalVal, s) := getOriginalStorage db a key s
      setStorageEip1283With evm subtract originalVal currentVal newVal s
    else if isZero currentVal then some (.added, s)
    else if isZero newVal then some (.deleted, addRefund Fee.kRSClear s)
    else some (.modified, s)

theorem setStorageEip1283With_subtractRefund (originalVal currentVal newVal : Bytes32)
    (s : IntraBlockState) :
    setStorageEip1283With evm (fun n s => some (subtractRefund n s)) originalVal currentVal newVal s =
      some (setStorageEip1283 evm originalVal currentVal newVal s) := by
  unfold setStorageEip1283With setStorageEip1283
  split_ifs <;> rfl

/-- With the subtraction of the code it is the write of the code. -/
theorem setStorageWith_subtractRefund (a : Address) (key newVal : Bytes32) (s : IntraBlockState) :
    setStorageWith evm db (fun n s => some (subtractRefund n s)) a key newVal s =
      some (setStorage evm db a key newVal s) := by
  unfold setStorageWith setStorage
  dsimp only
  rw [setStorageEip1283With_subtractRefund]
  split_ifs <;> rfl

end Checks

section Steps

variable (evm : Config) (db : B)

/-- Refunds are counted by writes to storage only. -/
def CountsNoRefund : Operation → Prop
  | .setStorage _ _ _ | .addRefund _ | .subtractRefund _ => False
  | _ => True

/-- What happens within a transaction, in a number of steps: writes to storage of accounts that
exist, the creation of contracts and whatever else frames do, and reversals of nested frames. -/
inductive Steps : ℕ → IntraBlockState → IntraBlockState → Prop
  | refl (s : IntraBlockState) : Steps 0 s s
  | setStorage {n : ℕ} {s t : IntraBlockState} (a : Address) (key newVal : Bytes32)
      (h : Steps n s t) (he : (existsAccount db a t).1 = true) :
      Steps (n + 1) s (Evm.setStorage evm db a key newVal t).2
  | operation {n : ℕ} {s t : IntraBlockState} (op : Operation) (h : Steps n s t)
      (ho : CountsNoRefund op) : Steps (n + 1) s (op.run db evm.keccak t)
  | revert {n n' : ℕ} {s t u : IntraBlockState} (h : Steps n s t) (h' : Steps n' t u) :
      Steps (n + n' + 1) s (revertToSnapshot (takeSnapshot t) u)

/-- Nothing has been written yet and nothing refunded. -/
structure StartsTransaction (s : IntraBlockState) : Prop where
  refund : s.refund = 0
  storage : ∀ a, (s.storage.findD a {}).current = ∅

/-- The slots whose original value is nonzero and whose current value is zero. -/
def clearedSlots (s : IntraBlockState) : Set (Address × Bytes32) :=
  {x | isZero (getOriginalStorage db x.1 x.2 s).1 = false ∧
    isZero (getCurrentStorage db x.1 x.2 s).1 = true}

end Steps

section Slots

variable {evm : Config} {db : B} {s t : IntraBlockState}

variable (db) in
/-- The cleared slots as the views have them. -/
def viewedClearedSlots (s : IntraBlockState) : Set (Address × Bytes32) :=
  {x | isZero (viewStorage db s x.1 x.2 true) = false ∧
    isZero (viewStorage db s x.1 x.2 false) = true}

variable (db) in
theorem clearedSlots_subset (s : IntraBlockState) : clearedSlots db s ⊆ viewedClearedSlots db s := by
  intro x hx
  obtain ⟨horiginal, hcurrent⟩ := hx
  rw [getOriginalStorage, (getStorage_spec db (fun _ => default) x.1 x.2 true s).1] at horiginal
  rw [getCurrentStorage, (getStorage_spec db (fun _ => default) x.1 x.2 false s).1] at hcurrent
  by_cases ha : (viewAccount db s x.1).isSome
  · rw [if_pos ha] at horiginal hcurrent
    exact ⟨horiginal, hcurrent⟩
  · rw [if_neg ha] at horiginal
    exact absurd horiginal (by decide)

variable (db) in
/-- No slot is cleared between the states, and the counter is the same. -/
structure Uncleared (s t : IntraBlockState) : Prop where
  slots : viewedClearedSlots db t ⊆ viewedClearedSlots db s
  refund : t.refund = s.refund

theorem Uncleared.of_views (h : ∀ a key original,
    viewStorage db t a key original = viewStorage db s a key original)
    (hr : t.refund = s.refund) : Uncleared db s t := by
  refine ⟨fun x hx => ?_, hr⟩
  obtain ⟨horiginal, hcurrent⟩ := hx
  rw [h] at horiginal hcurrent
  exact ⟨horiginal, hcurrent⟩

theorem Uncleared.of_cached (h : Cached db evm.keccak s t) : Uncleared db s t :=
  .of_views h.restores.storage h.refund

theorem uncleared_updateObject (a : Address) (f : Account → Account)
    (hf : ∀ account, (f account).incarnation = account.incarnation) (s : IntraBlockState) :
    Uncleared db s (updateObject db a f s) := by
  refine .of_views (viewStorage_updateObject hf a s) ?_
  rw [updateObject_eq]

theorem uncleared_touch (a : Address) (h : Uncleared db s t) : Uncleared db s (touch a t) := by
  refine ⟨fun x hx => h.slots ?_, ?_⟩
  · obtain ⟨horiginal, hcurrent⟩ := hx
    rw [viewStorage_touch] at horiginal hcurrent
    exact ⟨horiginal, hcurrent⟩
  · rw [touch_eq]
    exact h.refund

/-- A new contract has no cleared slots. -/
theorem uncleared_createContract (a : Address) (s : IntraBlockState) :
    Uncleared db s (createContract db a s) := by
  constructor
  · intro x hx
    obtain ⟨horiginal, hcurrent⟩ := hx
    by_cases ha : x.1 = a
    · subst ha
      rw [viewStorage_createContract_self, horiginal] at hcurrent
      cases hcurrent
    · rw [viewStorage_createContract_ne ha] at horiginal hcurrent
      exact ⟨horiginal, hcurrent⟩
  · unfold createContract
    rw [getObject_eq]
    dsimp only [record]
    split <;> rfl

theorem uncleared_operation {op : Operation} (ho : CountsNoRefund op) (s : IntraBlockState) :
    Uncleared db s (op.run db evm.keccak s) := by
  have hload (a : Address) : Uncleared db s { s with objects := load db a s } :=
    .of_cached (cached_load db evm.keccak a s)
  cases op with
  | createContract a => exact uncleared_createContract a s
  | touch a => exact uncleared_touch a (.of_views (fun _ _ _ => rfl) rfl)
  | recordSuicide a =>
    dsimp only [Operation.run, IntraBlockState.recordSuicide]
    split_ifs <;> exact .of_views (fun _ _ _ => rfl) rfl
  | setBalance a value => exact uncleared_touch a (uncleared_updateObject a _ (fun _ => by rfl) s)
  | addToBalance a addend => exact uncleared_touch a (uncleared_updateObject a _ (fun _ => by rfl) s)
  | subtractFromBalance a subtrahend =>
    exact uncleared_touch a (uncleared_updateObject a _ (fun _ => by rfl) s)
  | setNonce a nonce => exact uncleared_updateObject a _ (fun _ => by rfl) s
  | setCode a code =>
    have hset : Uncleared db s (updateObject db a
        (fun account => { account with codeHash := evm.keccak code }) s) :=
      uncleared_updateObject a _ (fun _ => by rfl) s
    exact ⟨hset.slots, hset.refund⟩
  | accessAccount a =>
    dsimp only [Operation.run, IntraBlockState.accessAccount]
    split_ifs <;> exact .of_views (fun _ _ _ => rfl) rfl
  | accessStorage a key =>
    dsimp only [Operation.run, IntraBlockState.accessStorage]
    split_ifs <;> exact .of_views (fun _ _ _ => rfl) rfl
  | setStorage a key value => cases ho
  | addLog log => exact .of_views (fun _ _ _ => rfl) rfl
  | addRefund addend => cases ho
  | subtractRefund subtrahend => cases ho
  | existsAccount a =>
    rw [Operation.run, IntraBlockState.existsAccount, getObject_eq]
    exact hload a
  | isDead a =>
    rw [Operation.run, IntraBlockState.isDead, getObject_eq]
    exact hload a
  | getBalance a =>
    rw [Operation.run, IntraBlockState.getBalance, getObject_eq]
    exact hload a
  | getNonce a =>
    rw [Operation.run, IntraBlockState.getNonce, getObject_eq]
    exact hload a
  | getCode a => exact .of_cached (getCode_spec db evm.keccak a s).2
  | getCodeHash a =>
    rw [Operation.run, IntraBlockState.getCodeHash, getObject_eq]
    exact hload a
  | getCurrentStorage a key => exact .of_cached (getStorage_spec db evm.keccak a key false s).2
  | getOriginalStorage a key => exact .of_cached (getStorage_spec db evm.keccak a key true s).2

variable (evm) in
/-- What a slot with these values adds to what the counter has to cover. -/
def potential (originalVal currentVal : Bytes32) : ℕ :=
  if isZero originalVal = false ∧ isZero currentVal = true then (sstoreClearsRefund evm).toNat else 0

variable (evm) in
theorem sstoreClearsRefund_le : (sstoreClearsRefund evm).toNat ≤ 15000 := by
  unfold sstoreClearsRefund sstoreResetGas
  split_ifs <;> decide

variable (evm) in
theorem sloadRefunds_le : (Fee.kGSSet - sloadCost evm).toNat ≤ 20000 ∧
    (sstoreResetGas evm - sloadCost evm).toNat ≤ 5000 := by
  unfold sstoreResetGas sloadCost
  split_ifs <;> decide

/-- A change of a slot leaves the counter large enough and takes nothing from it that it does
not have. -/
structure Counted (evm : Config) (originalVal currentVal newVal : Bytes32) (s t : IntraBlockState) :
    Prop where
  only : t = { s with refund := t.refund }
  covers : s.refund.toNat + potential evm originalVal newVal ≤
    t.refund.toNat + potential evm originalVal currentVal
  bound : t.refund.toNat ≤ s.refund.toNat + 20000

theorem toNat_addRefund {n : Uint64} {s : IntraBlockState}
    (h : s.refund.toNat + n.toNat < 2 ^ 64) :
    (addRefund n s).refund.toNat = s.refund.toNat + n.toNat := by
  change (s.refund + n).toNat = _
  rw [BitVec.toNat_add, Nat.mod_eq_of_lt h]

theorem toNat_subtractRefund {n : Uint64} {s : IntraBlockState} (h : n.toNat ≤ s.refund.toNat) :
    (subtractRefund n s).refund.toNat = s.refund.toNat - n.toNat := by
  change (s.refund - n).toNat = _
  exact BitVec.toNat_sub_of_le h

theorem Counted.of_add {originalVal currentVal newVal : Bytes32} {n : Uint64}
    (hn : n.toNat ≤ 20000) (hroom : s.refund.toNat + 20000 < 2 ^ 64)
    (h : potential evm originalVal newVal ≤ n.toNat + potential evm originalVal currentVal) :
    Counted evm originalVal currentVal newVal s (addRefund n s) := by
  have hadd : (addRefund n s).refund.toNat = s.refund.toNat + n.toNat := toNat_addRefund (by omega)
  exact ⟨rfl, by omega, by omega⟩

theorem potential_of_isZero {originalVal : Bytes32} (h : isZero originalVal = true)
    (currentVal : Bytes32) : potential evm originalVal currentVal = 0 := by
  rw [potential, if_neg fun hp => by rw [h] at hp; cases hp.1]

theorem potential_of_not_isZero {currentVal : Bytes32} (h : ¬isZero currentVal = true)
    (originalVal : Bytes32) : potential evm originalVal currentVal = 0 := by
  rw [potential, if_neg fun hp => h hp.2]

theorem potential_le (originalVal currentVal : Bytes32) :
    potential evm originalVal currentVal ≤ (sstoreClearsRefund evm).toNat := by
  unfold potential
  split_ifs
  · exact le_rfl
  · exact Nat.zero_le _

theorem Counted.of_eq {originalVal currentVal newVal : Bytes32}
    (h : potential evm originalVal newVal ≤ potential evm originalVal currentVal) :
    Counted evm originalVal currentVal newVal s s := ⟨rfl, by omega, by omega⟩

/-- The refund of a cleared slot is taken back. -/
theorem Counted.of_subtract {originalVal currentVal newVal : Bytes32}
    (hp : potential evm originalVal currentVal = (sstoreClearsRefund evm).toNat)
    (hcovered : (sstoreClearsRefund evm).toNat ≤ s.refund.toNat)
    (hn : potential evm originalVal newVal = 0) :
    Counted evm originalVal currentVal newVal s (subtractRefund (sstoreClearsRefund evm) s) := by
  have hsub := toNat_subtractRefund hcovered
  exact ⟨rfl, by omega, by omega⟩

theorem setStorageEip1283_counted {originalVal currentVal newVal : Bytes32}
    (hne : currentVal ≠ newVal) (hroom : s.refund.toNat + 20000 < 2 ^ 64)
    (hcovered : potential evm originalVal currentVal ≤ s.refund.toNat) :
    Counted evm originalVal currentVal newVal s
        (setStorageEip1283 evm originalVal currentVal newVal s).2 ∧
      setStorageEip1283With evm subtractRefundChecked originalVal currentVal newVal s =
        some (setStorageEip1283 evm originalVal currentVal newVal s) := by
  have hclears := sstoreClearsRefund_le evm
  obtain ⟨hset, hreset⟩ := sloadRefunds_le evm
  have hpotential : potential evm originalVal newVal ≤ (sstoreClearsRefund evm).toNat :=
    potential_le originalVal newVal
  unfold setStorageEip1283 setStorageEip1283With
  by_cases hoc : originalVal = currentVal
  · rw [if_pos hoc, if_pos hoc]
    by_cases ho : isZero originalVal = true
    · rw [if_pos ho, if_pos ho]
      exact ⟨.of_eq (by rw [potential_of_isZero ho]; omega), rfl⟩
    · rw [if_neg ho, if_neg ho]
      refine ⟨?_, rfl⟩
      dsimp only
      split_ifs with hn
      · exact .of_add (by omega) hroom (by omega)
      · exact .of_eq (by rw [potential_of_not_isZero hn]; omega)
  rw [if_neg hoc, if_neg hoc]
  by_cases ho : isZero originalVal = true
  · simp only [ho, ↓reduceIte]
    refine ⟨?_, rfl⟩
    split_ifs with hon
    · exact .of_add hset hroom (by rw [potential_of_isZero ho]; omega)
    · exact .of_eq (by rw [potential_of_isZero ho]; omega)
  simp only [ho, Bool.false_eq_true, ↓reduceIte]
  by_cases hc : isZero currentVal = true
  · -- The slot was cleared before, and it is not cleared again.
    have hn : ¬isZero newVal = true := fun hn =>
      hne ((of_decide_eq_true hc).trans (of_decide_eq_true hn).symm)
    have hp : potential evm originalVal currentVal = (sstoreClearsRefund evm).toNat := by
      rw [potential, if_pos ⟨by simpa using ho, hc⟩]
    have hn0 : potential evm originalVal newVal = 0 := potential_of_not_isZero hn originalVal
    have hle : (sstoreClearsRefund evm).toNat ≤ s.refund.toNat := hp ▸ hcovered
    have hcheck : subtractRefundChecked (sstoreClearsRefund evm) s =
        some (subtractRefund (sstoreClearsRefund evm) s) := if_pos hle
    have hsub : Counted evm originalVal currentVal newVal s
        (subtractRefund (sstoreClearsRefund evm) s) := .of_subtract hp hle hn0
    have hroom' := toNat_subtractRefund hle
    simp only [hc, hn, Bool.false_eq_true, ↓reduceIte, hcheck]
    refine ⟨?_, rfl⟩
    split_ifs with hon
    · have hadd : (addRefund (sstoreResetGas evm - sloadCost evm)
          (subtractRefund (sstoreClearsRefund evm) s)).refund.toNat =
            (subtractRefund (sstoreClearsRefund evm) s).refund.toNat +
              (sstoreResetGas evm - sloadCost evm).toNat := toNat_addRefund (by omega)
      exact ⟨rfl, by omega, by omega⟩
    · exact hsub
  simp only [hc, Bool.false_eq_true, ↓reduceIte]
  refine ⟨?_, rfl⟩
  by_cases hn : isZero newVal = true
  · have hon : ¬originalVal = newVal := fun h => ho (h ▸ hn)
    simp only [hn, hon, ↓reduceIte]
    exact .of_add (by omega) hroom (by omega)
  · simp only [hn, Bool.false_eq_true, ↓reduceIte]
    have hn0 : potential evm originalVal newVal = 0 := potential_of_not_isZero hn originalVal
    split_ifs with hon
    · exact .of_add (by omega) hroom (by omega)
    · exact .of_eq (by omega)

theorem refund_setStorage (a : Address) (key value : Bytes32) (s : IntraBlockState) :
    (IntraBlockState.setStorage db a key value s).refund = s.refund := by
  have hget := (getStorage_spec db (fun _ => default) a key false s).2.refund
  unfold IntraBlockState.setStorage getCurrentStorage
  dsimp only
  split_ifs
  · exact hget
  · exact hget

/-- A write to storage, with the values of its slot. -/
structure Written (evm : Config) (db : B) (a : Address) (key newVal : Bytes32)
    (s t : IntraBlockState) : Prop where
  views : ∀ a' key' original, viewStorage db t a' key' original =
    if a' = a ∧ key' = key ∧ original = false then newVal else viewStorage db s a' key' original
  covers : s.refund.toNat + potential evm (viewStorage db s a key true) newVal ≤
    t.refund.toNat + potential evm (viewStorage db s a key true) (viewStorage db s a key false)
  bound : t.refund.toNat ≤ s.refund.toNat + 20000

theorem Written.of_counted {a : Address} {key newVal : Bytes32} {u : IntraBlockState}
    (hviews : ∀ a' key' original, viewStorage db u a' key' original =
      if a' = a ∧ key' = key ∧ original = false then newVal else viewStorage db s a' key' original)
    (hrefund : u.refund = s.refund)
    (hc : Counted evm (viewStorage db s a key true) (viewStorage db s a key false) newVal u t) :
    Written evm db a key newVal s t := by
  refine ⟨fun a' key' original => ?_, hrefund ▸ hc.covers, hrefund ▸ hc.bound⟩
  rw [← hviews, hc.only]
  rfl

theorem setStorage_written {a : Address} (key newVal : Bytes32)
    (ha : (existsAccount db a s).1 = true) (hroom : s.refund.toNat + 20000 < 2 ^ 64)
    (hcovered : potential evm (viewStorage db s a key true) (viewStorage db s a key false) ≤
      s.refund.toNat) :
    Written evm db a key newVal s (setStorage evm db a key newVal s).2 ∧
      setStorageWith evm db subtractRefundChecked a key newVal s =
        some (setStorage evm db a key newVal s) := by
  rw [existsAccount_fst] at ha
  obtain ⟨hcurrent, hget⟩ := getStorage_spec db evm.keccak a key false s
  rw [if_pos ha] at hcurrent
  unfold setStorage setStorageWith getCurrentStorage
  generalize getStorage db a key false s = x at hcurrent hget ⊢
  obtain ⟨currentVal, s₁⟩ := x
  dsimp only at hcurrent hget ⊢
  by_cases hne : currentVal = newVal
  · -- The value is the same, and the state has only cached it.
    rw [if_pos hne, if_pos hne]
    refine ⟨⟨fun a' key' original => ?_, ?_, ?_⟩, rfl⟩
    · rw [hget.restores.storage]
      split_ifs with h
      · rw [h.1, h.2.1, h.2.2, ← hcurrent, hne]
      · rfl
    · rw [hget.refund, ← hcurrent, hne]
    · rw [hget.refund]
      omega
  rw [if_neg hne, if_neg hne]
  have ha₁ : (viewAccount db s₁ a).isSome := by rwa [viewAccount, hget.restores.object]
  have hviews := viewStorage_setStorage key newVal ha₁
  have hrefund : (IntraBlockState.setStorage db a key newVal s₁).refund = s.refund :=
    (refund_setStorage a key newVal s₁).trans hget.refund
  have haccount : (viewAccount db (IntraBlockState.setStorage db a key newVal s₁) a).isSome := by
    rwa [viewAccount, viewObject_setStorage]
  generalize IntraBlockState.setStorage db a key newVal s₁ = s₂ at hviews hrefund haccount ⊢
  simp only [hget.restores.storage] at hviews
  rw [← hcurrent] at hcovered
  have hkeep (h : potential evm (viewStorage db s a key true) newVal = 0) :
      Counted evm (viewStorage db s a key true) currentVal newVal s₂ s₂ := .of_eq (by omega)
  by_cases hrev : .istanbul ≤ evm.revision ∨ evm.revision = .constantinople
  · rw [if_pos hrev, if_pos hrev]
    obtain ⟨horiginal, hget₂⟩ := getStorage_spec db evm.keccak a key true s₂
    rw [if_pos haccount, hviews, if_neg (by simp)] at horiginal
    unfold getOriginalStorage
    generalize getStorage db a key true s₂ = y at horiginal hget₂ ⊢
    obtain ⟨originalVal, s₃⟩ := y
    dsimp only at horiginal hget₂ ⊢
    have hrefund₃ : s₃.refund = s.refund := hget₂.refund.trans hrefund
    rw [← horiginal] at hcovered
    obtain ⟨hcounted, hchecked⟩ := setStorageEip1283_counted hne (hrefund₃ ▸ hroom)
      (hrefund₃ ▸ hcovered)
    refine ⟨.of_counted (u := s₃) (fun a' key' original => ?_) hrefund₃ ?_, hchecked⟩
    · rw [hget₂.restores.storage, hviews]
    · rwa [← hcurrent, ← horiginal]
  rw [if_neg hrev, if_neg hrev]
  by_cases hc : isZero currentVal = true
  · have hn : ¬isZero newVal = true := fun hn =>
      hne ((of_decide_eq_true hc).trans (of_decide_eq_true hn).symm)
    simp only [hc, ↓reduceIte]
    refine ⟨.of_counted hviews hrefund ?_, trivial⟩
    rw [← hcurrent]
    exact hkeep (potential_of_not_isZero hn _)
  simp only [hc, Bool.false_eq_true, ↓reduceIte]
  by_cases hn : isZero newVal = true
  · have hpotential : potential evm (viewStorage db s a key true) newVal ≤ 15000 :=
      (potential_le _ _).trans (sstoreClearsRefund_le evm)
    simp only [hn, ↓reduceIte]
    refine ⟨.of_counted hviews hrefund ?_, trivial⟩
    rw [← hcurrent]
    refine .of_add (by decide) (hrefund ▸ hroom) ?_
    exact hpotential.trans (Nat.le_add_right _ _)
  · simp only [hn, Bool.false_eq_true, ↓reduceIte]
    refine ⟨.of_counted hviews hrefund ?_, trivial⟩
    rw [← hcurrent]
    exact hkeep (potential_of_not_isZero hn _)

end Slots

section Runs

variable {evm : Config} {db : B} {s t : IntraBlockState} {n : ℕ}

/-- The counter covers the cleared slots and has not grown by more than a constant a step. -/
structure Covered (evm : Config) (db : B) (n : ℕ) (s : IntraBlockState) : Prop where
  covers : (sstoreClearsRefund evm).toNat * (viewedClearedSlots db s).ncard ≤ s.refund.toNat
  bound : s.refund.toNat ≤ n * 20000

theorem Covered.uncleared (h : Covered evm db n s) (hst : Uncleared db s t) {m : ℕ} (hm : n ≤ m) :
    Covered evm db m t := by
  have hcard := Set.ncard_le_ncard hst.slots
  have hmul := Nat.mul_le_mul_left (sstoreClearsRefund evm).toNat hcard
  refine ⟨?_, ?_⟩
  · rw [hst.refund]
    exact hmul.trans h.covers
  · rw [hst.refund]
    exact h.bound.trans (Nat.mul_le_mul_right _ hm)

/-- The slots other than the written one, and the written one. -/
theorem mul_ncard_viewedClearedSlots (a : Address) (key : Bytes32) (s : IntraBlockState) :
    (sstoreClearsRefund evm).toNat * (viewedClearedSlots db s).ncard =
      (sstoreClearsRefund evm).toNat * (viewedClearedSlots db s \ {(a, key)}).ncard +
        potential evm (viewStorage db s a key true) (viewStorage db s a key false) := by
  by_cases h : (a, key) ∈ viewedClearedSlots db s
  · have hp : potential evm (viewStorage db s a key true) (viewStorage db s a key false) =
        (sstoreClearsRefund evm).toNat := if_pos h
    rw [← Set.ncard_sdiff_singleton_add_one h, Nat.mul_add, Nat.mul_one, hp]
  · have hp : potential evm (viewStorage db s a key true) (viewStorage db s a key false) = 0 :=
      if_neg h
    rw [Set.sdiff_singleton_eq_self h, hp, Nat.add_zero]

theorem Covered.potential_le (h : Covered evm db n s) (a : Address) (key : Bytes32) :
    potential evm (viewStorage db s a key true) (viewStorage db s a key false) ≤ s.refund.toNat := by
  have hcovers := h.covers
  rw [mul_ncard_viewedClearedSlots a key] at hcovers
  exact (Nat.le_add_left _ _).trans hcovers

theorem Covered.room (h : Covered evm db n s) (hn : n < 2 ^ 40) :
    s.refund.toNat + 20000 < 2 ^ 64 := by
  have := h.bound
  omega

theorem Covered.written (h : Covered evm db n s) {a : Address} {key newVal : Bytes32}
    (hw : Written evm db a key newVal s t) : Covered evm db (n + 1) t := by
  have hrest : viewedClearedSlots db t \ {(a, key)} = viewedClearedSlots db s \ {(a, key)} := by
    ext x
    simp only [Set.mem_sdiff, Set.mem_singleton_iff, viewedClearedSlots, Set.mem_ofPred_eq]
    refine and_congr_left fun hx => ?_
    have hslot (original : Bool) : ¬(x.1 = a ∧ x.2 = key ∧ original = false) :=
      fun h => hx (Prod.ext h.1 h.2.1)
    rw [hw.views, hw.views, if_neg (hslot true), if_neg (hslot false)]
  have hcovers := h.covers
  rw [mul_ncard_viewedClearedSlots a key] at hcovers
  refine ⟨?_, ?_⟩
  · have horiginal : viewStorage db t a key true = viewStorage db s a key true := by
      rw [hw.views, if_neg (by simp)]
    have hcurrent : viewStorage db t a key false = newVal := by
      rw [hw.views, if_pos ⟨rfl, rfl, rfl⟩]
    rw [mul_ncard_viewedClearedSlots a key, hrest, horiginal, hcurrent]
    have := hw.covers
    omega
  · have := hw.bound
    have := h.bound
    omega

/-- What happens in a frame also happens in the transaction. -/
theorem Steps.trans {n' : ℕ} {u : IntraBlockState} (h : Steps evm db n s t)
    (h' : Steps evm db n' t u) : Steps evm db (n + n') s u := by
  induction h' with
  | refl t => exact h
  | setStorage a key newVal _ he ih => exact .setStorage a key newVal (ih h) he
  | operation op _ ho ih => exact .operation op (ih h) ho
  | @revert k k' _ _ _ _ h'' ih _ =>
    have hrevert := Steps.revert (ih h) h''
    rwa [Nat.add_assoc n, Nat.add_assoc n] at hrevert

theorem Steps.grows (h : Steps evm db n s t) : Grows db evm.keccak s t := by
  induction h with
  | refl s => exact .refl s
  | setStorage a key newVal _ he ih => exact ih.trans (grows_setStorage key newVal he)
  | operation op _ ho ih =>
    refine ih.trans (grows_operation evm db op ?_)
    cases op with
    | setStorage a key value => cases ho
    | _ => trivial
  | revert _ _ ih ih' => exact ih.trans ih'.cached_revertToSnapshot.grows

theorem startsTransaction_initial : StartsTransaction {} := ⟨rfl, fun _ => rfl⟩

theorem covered_of_startsTransaction (h : StartsTransaction s) : Covered evm db 0 s := by
  have hempty : viewedClearedSlots db s = ∅ := by
    refine Set.eq_empty_iff_forall_notMem.mpr fun x hx => ?_
    obtain ⟨horiginal, hcurrent⟩ := hx
    have hsame : viewStorage db s x.1 x.2 false = viewStorage db s x.1 x.2 true := by
      rw [viewStorage, viewStorage, slot, slot, h.storage]
      rfl
    rw [hsame, horiginal] at hcurrent
    cases hcurrent
  refine ⟨?_, ?_⟩
  · rw [hempty, Set.ncard_empty]
    exact Nat.zero_le _
  · rw [h.refund]
    rfl

/-- The counter covers the cleared slots after every step. -/
theorem Steps.covered (h : Steps evm db n s t) (hs : Covered evm db 0 s) (hn : n < 2 ^ 40) :
    Covered evm db n t := by
  induction h with
  | refl s => exact hs
  | setStorage a key newVal _ he ih =>
    have ih := ih hs (by omega)
    obtain ⟨hw, -⟩ := setStorage_written key newVal he (ih.room (by omega)) (ih.potential_le a key)
    exact ih.written hw
  | operation op _ ho ih => exact (ih hs (by omega)).uncleared (uncleared_operation ho _) (by omega)
  | revert _ h' ih _ =>
    have hrevert := h'.grows.cached_revertToSnapshot
    exact (ih hs (by omega)).uncleared (.of_cached hrevert) (by omega)

/-- No write takes more from the counter than it has, because the counter covers the cleared
slots at any time. -/
theorem refund_covers (hs : StartsTransaction s) (h : Steps evm db n s t) (hn : n < 2 ^ 40) :
    (∀ a key newVal, (existsAccount db a t).1 = true →
      setStorageWith evm db subtractRefundChecked a key newVal t =
        some (setStorage evm db a key newVal t)) ∧
    (sstoreClearsRefund evm).toNat * (clearedSlots db t).ncard ≤ t.refund.toNat := by
  have hcovered := h.covered (covered_of_startsTransaction hs) hn
  constructor
  · intro a key newVal ha
    exact (setStorage_written key newVal ha (hcovered.room hn) (hcovered.potential_le a key)).2
  · have hcard := Set.ncard_le_ncard (clearedSlots_subset db t)
    exact (Nat.mul_le_mul_left _ hcard).trans hcovered.covers

section Examples

private def config : Config where
  revision := .istanbul
  keccak _ := default
  precompiledGas _ _ _ := 0
  precompiledRun _ _ := none

private def one : Bytes32 := FixedBytes.ofByte 31 1

private def owner : Address := FixedBytes.replicate 20 5

/-- A contract with one slot. -/
private def slotted : MemoryBuffer where
  accounts := HashMap.set ∅ owner { incarnation := 1, codeHash := default }
  storage := StorageMap.set ∅ owner 1 default one

/-- The slot is cleared, and a frame that fills it again is reverted. -/
theorem refund_covers_clearedAgain :
    let s₁ := (setStorage config slotted owner default default {}).2
    let s₂ := (setStorage config slotted owner default one s₁).2
    let t := revertToSnapshot (takeSnapshot s₁) s₂
    t.refund = 15000 ∧
    (∀ a key newVal, (existsAccount slotted a t).1 = true →
      setStorageWith config slotted subtractRefundChecked a key newVal t =
        some (setStorage config slotted a key newVal t)) ∧
    (sstoreClearsRefund config).toNat * (clearedSlots slotted t).ncard ≤ t.refund.toNat := by
  intro s₁ s₂ t
  have h₁ : Steps config slotted 1 {} s₁ := .setStorage owner default default (.refl _) (by decide)
  have h₂ : Steps config slotted 1 s₁ s₂ := .setStorage owner default one (.refl _) (by decide)
  exact ⟨rfl, refund_covers startsTransaction_initial (.revert h₁ h₂) (by decide)⟩

end Examples

end Runs

end Evm
end Silkworm
