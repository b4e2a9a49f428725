import Silkworm.TouchedAccounts

/-!
# Interpreters that are stopped

An interpreter that is stopped at times otherwise does the same. So does the machine with it, and so
does the processor.
-/

namespace Silkworm.Evm
open IntraBlockState

variable {B : Type} [StateBuffer B] {evm : Config} {db : B} {message : Message}
  {i j : Interpreter} {m : Machine} {x : Result × Machine}

/-- What the one returns, the other returns as well. -/
def Refines (i j : Interpreter) : Prop := ∀ m x, i m = some x → j m = some x

theorem Refines.execute (h : Refines i j) (destination : Address) :
    Refines (execute destination i) (execute destination j) := by
  intro m x hx
  obtain ⟨y, hy, hx⟩ := Option.bind_eq_some_iff.mp hx
  exact Option.bind_eq_some_iff.mpr ⟨y, h _ _ hy, hx⟩

variable (evm db message) in
theorem Refines.call (h : Refines i j) :
    Refines (call evm db message i) (call evm db message j) := by
  rw [← callWith_plain, ← callWith_plain]
  intro m x hx
  unfold callWith at hx ⊢
  dsimp only at hx ⊢
  by_cases hb : (lacksBalance db message m.state).1 = true
  · rw [if_pos hb] at hx ⊢
    exact hx
  rw [if_neg hb] at hx ⊢
  by_cases ha : (lacksCallee evm db message (lacksBalance db message m.state).2).1 = true
  · rw [if_pos ha] at hx ⊢
    exact hx
  rw [if_neg ha] at hx ⊢
  obtain ⟨s, hs, hx⟩ := Option.bind_eq_some_iff.mp hx
  refine Option.bind_eq_some_iff.mpr ⟨s, hs, ?_⟩
  split_ifs at hx ⊢
  · exact hx
  · exact hx
  · obtain ⟨y, hy, hx⟩ := Option.bind_eq_some_iff.mp hx
    exact Option.bind_eq_some_iff.mpr ⟨y, h.execute _ _ _ hy, hx⟩

variable (evm db message) in
theorem Refines.create (h : Refines i j) :
    Refines (create evm db message i) (create evm db message j) := by
  rw [← createWith_plain, ← createWith_plain]
  intro m x hx
  unfold createWith at hx ⊢
  dsimp only at hx ⊢
  split_ifs at hx ⊢
  · exact hx
  · exact hx
  · obtain ⟨s, hs, hx⟩ := Option.bind_eq_some_iff.mp hx
    obtain ⟨y, hy, hx⟩ := Option.bind_eq_some_iff.mp hx
    refine Option.bind_eq_some_iff.mpr ⟨s, hs, ?_⟩
    exact Option.bind_eq_some_iff.mpr ⟨y, h.execute _ _ _ hy, hx⟩

variable (evm db message) in
theorem Refines.hostCall (h : Refines i j) :
    Refines (hostCall evm db message i) (hostCall evm db message j) := by
  intro m x hx
  unfold Evm.hostCall at hx ⊢
  split_ifs at hx ⊢
  · obtain ⟨y, hy, hx⟩ := Option.bind_eq_some_iff.mp hx
    exact Option.bind_eq_some_iff.mpr ⟨y, h.create evm db message _ _ hy, hx⟩
  · exact h.call evm db message _ _ hx

variable (evm db) in
/-- Messages with other senders aside, a behaviour is run as it is. -/
theorem Behaviour.runWith_own_refines (b : Behaviour) :
    Refines (b.runWith (.own db) evm db) (b.run evm db) := by
  induction b with
  | done statusCode gasLeft outputData => exact fun _ _ hx => hx
  | host c next ih =>
    intro m x hx
    obtain ⟨⟨reply, s⟩, hc, hx⟩ := Option.bind_eq_some_iff.mp hx
    rw [HostCall.performWith_own] at hc
    exact Option.bind_eq_some_iff.mpr ⟨⟨reply, s⟩, hc, ih reply _ _ hx⟩
  | message msg inner next ihi ihn =>
    intro m x hx
    obtain ⟨⟨res, m₁⟩, hc, hx⟩ := Option.bind_eq_some_iff.mp hx
    have hcall := ihi.hostCall evm db msg _ _ (hostCall_of_hostCallWith_own hc).2
    exact Option.bind_eq_some_iff.mpr ⟨⟨res, m₁⟩, hcall, ihn res _ _ hx⟩

variable (evm db) in
theorem Refines.executeTransaction (h : Refines i j) {txn : Transaction} {sender : Address}
    {gas : Uint64} {r : CallResult × Machine}
    (hr : executeTransaction evm db txn sender gas i m = some r) :
    executeTransaction evm db txn sender gas j m = some r := by
  unfold Evm.executeTransaction at hr ⊢
  dsimp only at hr ⊢
  split_ifs at hr ⊢
  · obtain ⟨y, hy, hr⟩ := Option.bind_eq_some_iff.mp hr
    exact Option.bind_eq_some_iff.mpr ⟨y, h.create evm db _ _ _ hy, hr⟩
  · obtain ⟨y, hy, hr⟩ := Option.bind_eq_some_iff.mp hr
    exact Option.bind_eq_some_iff.mpr ⟨y, h.call evm db _ _ _ hy, hr⟩

end Silkworm.Evm

namespace Silkworm.ExecutionProcessor
open Evm

variable {B : Type} [StateBuffer B] {x : ExecutionContext} {db : B}

theorem executeTransaction_refines {i j : Interpreter} (h : Refines i j) {txn : Transaction}
    {p : ExecutionProcessor} {r : Receipt × ExecutionProcessor}
    (hr : executeTransaction x db txn i p = some r) : executeTransaction x db txn j p = some r := by
  obtain ⟨sender, hsender, hr⟩ := Option.bind_eq_some_iff.mp hr
  obtain ⟨y, hy, hr⟩ := Option.bind_eq_some_iff.mp hr
  refine Option.bind_eq_some_iff.mpr ⟨sender, hsender, ?_⟩
  exact Option.bind_eq_some_iff.mpr ⟨y, h.executeTransaction x.evm db hy, hr⟩

theorem executeTransactions_refines {is js : ℕ → Interpreter} (h : ∀ n, Refines (is n) (js n))
    {txns : List Transaction} {n : ℕ} {receipts : List Receipt} {p : ExecutionProcessor}
    {r : (List Receipt × ValidationResult) × ExecutionProcessor}
    (hr : executeTransactions x db is txns n receipts p = some r) :
    executeTransactions x db js txns n receipts p = some r := by
  induction txns generalizing n receipts p with
  | nil => exact hr
  | cons txn txns ih =>
    rw [executeTransactions] at hr ⊢
    dsimp only at hr ⊢
    split_ifs at hr ⊢
    · exact hr
    · obtain ⟨y, hy, hr⟩ := Option.bind_eq_some_iff.mp hr
      exact Option.bind_eq_some_iff.mpr ⟨y, executeTransaction_refines (h n) hy, ih hr⟩

theorem executeBlock_refines {is js : ℕ → Interpreter} (h : ∀ n, Refines (is n) (js n))
    {p : ExecutionProcessor} {r : (List Receipt × ValidationResult) × ExecutionProcessor}
    (hr : executeBlock x db is p = some r) : executeBlock x db js p = some r := by
  obtain ⟨y, hy, hr⟩ := Option.bind_eq_some_iff.mp hr
  exact Option.bind_eq_some_iff.mpr ⟨y, executeTransactions_refines h hy, hr⟩

end Silkworm.ExecutionProcessor
