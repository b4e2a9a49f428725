import Silkworm.JournaledOperations

/-!
# Snapshots

The public operations between a snapshot and its reversal, with further such pairs nested in
them, leave no trace that a getter could see. Code is the one exception to be excluded: a
code that was set stays cached, and from then on it hides what the buffer has for its hash.
-/

namespace Silkworm.IntraBlockState
open StateBuffer UndoLogs

variable {B : Type} [StateBuffer B]

/-- The journaled public operations. -/
inductive Operation where
  | createContract (a : Address)
  | touch (a : Address)
  | recordSuicide (a : Address)
  | setBalance (a : Address) (value : Uint256)
  | addToBalance (a : Address) (addend : Uint256)
  | subtractFromBalance (a : Address) (subtrahend : Uint256)
  | setNonce (a : Address) (nonce : Uint64)
  | setCode (a : Address) (code : Bytes)
  | accessAccount (a : Address)
  | accessStorage (a : Address) (key : Bytes32)
  | setStorage (a : Address) (key value : Bytes32)
  | addLog (log : Log)
  | addRefund (addend : Uint64)
  | subtractRefund (subtrahend : Uint64)
  | existsAccount (a : Address)
  | isDead (a : Address)
  | getBalance (a : Address)
  | getNonce (a : Address)
  | getCode (a : Address)
  | getCodeHash (a : Address)
  | getCurrentStorage (a : Address) (key : Bytes32)
  | getOriginalStorage (a : Address) (key : Bytes32)

/-- The state after an operation; what a getter returns is dropped. -/
def Operation.run (db : B) (keccak : Bytes → Bytes32) (op : Operation) (s : IntraBlockState) :
    IntraBlockState :=
  match op with
  | .createContract a => IntraBlockState.createContract db a s
  | .touch a => IntraBlockState.touch a s
  | .recordSuicide a => IntraBlockState.recordSuicide a s
  | .setBalance a value => IntraBlockState.setBalance db a value s
  | .addToBalance a addend => IntraBlockState.addToBalance db a addend s
  | .subtractFromBalance a subtrahend => IntraBlockState.subtractFromBalance db a subtrahend s
  | .setNonce a nonce => IntraBlockState.setNonce db a nonce s
  | .setCode a code => IntraBlockState.setCode db keccak a code s
  | .accessAccount a => (IntraBlockState.accessAccount a s).2
  | .accessStorage a key => (IntraBlockState.accessStorage a key s).2
  | .setStorage a key value => IntraBlockState.setStorage db a key value s
  | .addLog log => IntraBlockState.addLog log s
  | .addRefund addend => IntraBlockState.addRefund addend s
  | .subtractRefund subtrahend => IntraBlockState.subtractRefund subtrahend s
  | .existsAccount a => (IntraBlockState.existsAccount db a s).2
  | .isDead a => (IntraBlockState.isDead db a s).2
  | .getBalance a => (IntraBlockState.getBalance db a s).2
  | .getNonce a => (IntraBlockState.getNonce db a s).2
  | .getCode a => (IntraBlockState.getCode db a s).2
  | .getCodeHash a => (IntraBlockState.getCodeHash db a s).2
  | .getCurrentStorage a key => (IntraBlockState.getCurrentStorage db a key s).2
  | .getOriginalStorage a key => (IntraBlockState.getOriginalStorage db a key s).2

/-- Storage is only written to an account that exists. -/
def Operation.Enabled (db : B) (op : Operation) (s : IntraBlockState) : Prop :=
  match op with
  | .setStorage a _ _ => (IntraBlockState.existsAccount db a s).1 = true
  | _ => True

/-- Operations in sequence and properly nested snapshots. -/
inductive Journaled (db : B) (keccak : Bytes → Bytes32) :
    IntraBlockState → IntraBlockState → Prop
  | refl (s : IntraBlockState) : Journaled db keccak s s
  | operation {s t : IntraBlockState} (op : Operation) (h : Journaled db keccak s t)
      (he : op.Enabled db t) : Journaled db keccak s (op.run db keccak t)
  | revert {s t u : IntraBlockState} (h : Journaled db keccak s t) (h' : Journaled db keccak t u) :
      Journaled db keccak s (revertToSnapshot (takeSnapshot t) u)

/-- Everything that can be observed of `s`, up to the ripemd address, is the same in `y`. -/
structure SameObservables (db : B) (s y : IntraBlockState) : Prop where
  existsAccount : ∀ a, (existsAccount db a y).1 = (existsAccount db a s).1
  isDead : ∀ a, (isDead db a y).1 = (isDead db a s).1
  getBalance : ∀ a, (getBalance db a y).1 = (getBalance db a s).1
  getNonce : ∀ a, (getNonce db a y).1 = (getNonce db a s).1
  getCode : ∀ a, (getCode db a y).1 = (getCode db a s).1
  getCodeHash : ∀ a, (getCodeHash db a y).1 = (getCodeHash db a s).1
  getCurrentStorage : ∀ a key,
    (getCurrentStorage db a key y).1 = (getCurrentStorage db a key s).1
  getOriginalStorage : ∀ a key,
    (getOriginalStorage db a key y).1 = (getOriginalStorage db a key s).1
  selfDestructs : ∀ a, HashSet.contains y.selfDestructs a = HashSet.contains s.selfDestructs a
  touched : ∀ a, a ≠ kRipemdAddress → HashSet.contains y.touched a = HashSet.contains s.touched a
  accessedAddresses : ∀ a,
    HashSet.contains y.accessedAddresses a = HashSet.contains s.accessedAddresses a
  accessedStorageKeys : ∀ a key,
    hasAccessed y.accessedStorageKeys a key = hasAccessed s.accessedStorageKeys a key
  logs : y.logs = s.logs
  refund : y.refund = s.refund

section Growth

variable {db : B} {keccak : Bytes → Bytes32} {s t u : IntraBlockState}

/-- The journal and the logs of `t` continue those of `s`. -/
structure Grows (db : B) (keccak : Bytes → Bytes32) (s t : IntraBlockState) : Prop where
  logged : (undoLog db keccak).Logged s t
  logs : s.logs <+: t.logs

theorem Grows.refl (s : IntraBlockState) : Grows db keccak s s := ⟨.refl s, List.prefix_rfl⟩

theorem Grows.trans (h : Grows db keccak s t) (h' : Grows db keccak t u) : Grows db keccak s u :=
  ⟨h.logged.trans h'.logged, h.logs.trans h'.logs⟩

theorem Cached.grows (h : Cached db keccak s t) : Grows db keccak s t :=
  ⟨h.logged, h.logs ▸ List.prefix_rfl⟩

theorem Grows.of_logs_eq (h : (undoLog db keccak).Logged s t) (hl : t.logs = s.logs) :
    Grows db keccak s t := ⟨h, hl ▸ List.prefix_rfl⟩

@[simp] theorem logs_touch (a : Address) (s : IntraBlockState) : (touch a s).logs = s.logs := by
  unfold touch
  dsimp only
  split_ifs <;> rfl

@[simp] theorem logs_updateObject (a : Address) (f : Account → Account) (s : IntraBlockState) :
    (updateObject db a f s).logs = s.logs :=
  (getOrCreateObject_spec db (fun _ => default) a s).2.logs

/-- The setters that touch the account. -/
theorem grows_touch_updateObject (a : Address) (f : Account → Account)
    (hf : ∀ account, (f account).incarnation = account.incarnation) (s : IntraBlockState) :
    Grows db keccak s (touch a (updateObject db a f s)) :=
  .of_logs_eq ((logged_updateObject a f hf s).trans (logged_touch a _)) (by simp)

theorem logs_createContract (a : Address) (s : IntraBlockState) :
    (createContract db a s).logs = s.logs := by
  unfold createContract
  rw [getObject_eq]
  dsimp only [record]
  split <;> rfl

theorem logs_setStorage (a : Address) (key value : Bytes32) (s : IntraBlockState) :
    (setStorage db a key value s).logs = s.logs := by
  have h := (getStorage_spec db (fun _ => default) a key false s).2.logs
  unfold setStorage getCurrentStorage
  dsimp only
  split_ifs
  · exact h
  · exact h

theorem existsAccount_fst (a : Address) (s : IntraBlockState) :
    (existsAccount db a s).1 = (viewAccount db s a).isSome := by
  rw [existsAccount, getObject_eq]
  rfl

/-- One operation. -/
theorem Operation.grows (op : Operation) (he : op.Enabled db s) :
    Grows db keccak s (op.run db keccak s) := by
  have hobject (a : Address) : Grows db keccak s { s with objects := load db a s } :=
    (cached_load db keccak a s).grows
  cases op with
  | createContract a => exact .of_logs_eq (logged_createContract a s) (logs_createContract a s)
  | touch a => exact .of_logs_eq (logged_touch a s) (logs_touch a s)
  | recordSuicide a =>
    refine .of_logs_eq (logged_recordSuicide a s) ?_
    dsimp only [Operation.run, IntraBlockState.recordSuicide]
    split_ifs <;> rfl
  | setBalance a value => exact grows_touch_updateObject a _ (fun _ => by rfl) s
  | addToBalance a addend => exact grows_touch_updateObject a _ (fun _ => by rfl) s
  | subtractFromBalance a subtrahend => exact grows_touch_updateObject a _ (fun _ => by rfl) s
  | setNonce a nonce =>
    exact .of_logs_eq (logged_updateObject a _ (fun _ => by rfl) s) (logs_updateObject a _ s)
  | setCode a code =>
    refine .of_logs_eq (logged_setCode a code s) ?_
    simp [Operation.run, IntraBlockState.setCode]
  | accessAccount a =>
    refine .of_logs_eq (logged_accessAccount a s) ?_
    dsimp only [Operation.run, IntraBlockState.accessAccount]
    split_ifs <;> rfl
  | accessStorage a key =>
    refine .of_logs_eq (logged_accessStorage a key s) ?_
    dsimp only [Operation.run, IntraBlockState.accessStorage]
    split_ifs <;> rfl
  | setStorage a key value =>
    have hs : (viewAccount db s a).isSome := by rw [← existsAccount_fst]; exact he
    exact .of_logs_eq (logged_setStorage a key value hs) (logs_setStorage a key value s)
  | addLog log => exact ⟨.of_restores rfl { Restores.refl s with }, List.prefix_append _ _⟩
  | addRefund addend => exact ⟨.of_restores rfl { Restores.refl s with }, List.prefix_rfl⟩
  | subtractRefund subtrahend => exact ⟨.of_restores rfl { Restores.refl s with }, List.prefix_rfl⟩
  | existsAccount a =>
    rw [Operation.run, IntraBlockState.existsAccount, getObject_eq]
    exact hobject a
  | isDead a =>
    rw [Operation.run, IntraBlockState.isDead, getObject_eq]
    exact hobject a
  | getBalance a =>
    rw [Operation.run, IntraBlockState.getBalance, getObject_eq]
    exact hobject a
  | getNonce a =>
    rw [Operation.run, IntraBlockState.getNonce, getObject_eq]
    exact hobject a
  | getCode a => exact (getCode_spec db keccak a s).2.grows
  | getCodeHash a =>
    rw [Operation.run, IntraBlockState.getCodeHash, getObject_eq]
    exact hobject a
  | getCurrentStorage a key => exact (getStorage_spec db keccak a key false s).2.grows
  | getOriginalStorage a key => exact (getStorage_spec db keccak a key true s).2.grows

theorem undo_logs (d : Delta) (s : IntraBlockState) : (undo d s).logs = s.logs := by
  cases d <;> rfl

theorem undo_journal (d : Delta) (s : IntraBlockState) : (undo d s).journal = s.journal := by
  cases d <;> rfl

variable (db keccak) in
/-- Reverting is undoing with the journal, the logs and the refund put back. -/
theorem revertToSnapshot_eq (s t : IntraBlockState) :
    revertToSnapshot (takeSnapshot s) t =
      { (undoLog db keccak).undoAll ((undoLog db keccak).since s.journal.length t) t with
        journal := t.journal.drop (t.journal.length - s.journal.length)
        logs := t.logs.take s.logs.length
        refund := s.refund } := by
  have h (ds : List Delta) : ∀ y : IntraBlockState,
      (ds.foldl (fun s d => undo d s) y).journal = y.journal ∧
        (ds.foldl (fun s d => undo d s) y).logs = y.logs := by
    induction ds with
    | nil => exact fun y => ⟨rfl, rfl⟩
    | cons d ds ih =>
      intro y
      rw [List.foldl_cons, (ih _).1, (ih _).2, undo_journal, undo_logs]
      exact ⟨rfl, rfl⟩
  obtain ⟨hj, hl⟩ := h (t.journal.take (t.journal.length - s.journal.length)) t
  rw [revertToSnapshot, takeSnapshot, hj, hl]
  rfl

/-- A reverted state differs from that of the snapshot in its caches only. -/
theorem Grows.cached_revertToSnapshot (h : Grows db keccak s t) :
    Cached db keccak s (revertToSnapshot (takeSnapshot s) t) := by
  have hr := h.logged.undoAll_since
  have hj : t.journal = _ ++ s.journal := h.logged.since_eq
  rw [revertToSnapshot_eq db keccak]
  refine ⟨{ hr with }, ?_, ?_, rfl⟩
  · change t.journal.drop (t.journal.length - s.journal.length) = s.journal
    rw [hj, List.length_append, Nat.add_sub_cancel, List.drop_left]
  · exact (List.prefix_iff_eq_take.mp h.logs).symm

theorem Journaled.grows (h : Journaled db keccak s t) : Grows db keccak s t := by
  induction h with
  | refl s => exact .refl s
  | operation op _ he ih => exact ih.trans (op.grows he)
  | revert _ _ ih ih' => exact ih.trans ih'.cached_revertToSnapshot.grows

/-- The ripemd address stays touched. -/
theorem Grows.touched_ripemd (h : Grows db keccak s t) :
    HashSet.contains (revertToSnapshot (takeSnapshot s) t).touched kRipemdAddress =
      HashSet.contains t.touched kRipemdAddress := by
  have hundo (ds : List Delta) (hd : ∀ d ∈ ds, d ≠ .touch kRipemdAddress) :
      ∀ y : IntraBlockState,
        HashSet.contains (ds.foldl (fun s d => undo d s) y).touched kRipemdAddress =
          HashSet.contains y.touched kRipemdAddress := by
    induction ds with
    | nil => exact fun y => rfl
    | cons d ds ih =>
      intro y
      rw [List.foldl_cons, ih fun e he => hd e (List.mem_cons_of_mem d he)]
      cases d with
      | touch a =>
        have ha : kRipemdAddress ≠ a := fun ha => hd _ List.mem_cons_self (by rw [ha])
        rw [undo, HashSet.contains_remove]
        simp [ha]
      | _ => rfl
  rw [revertToSnapshot_eq db keccak]
  exact hundo _ h.logged.allowed t

end Growth

end Silkworm.IntraBlockState
