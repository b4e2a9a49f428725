import Silkworm.Snapshots

/-!
# Where objects come from

An action can only change objects in a few ways. They are listed once, for the objects in the
map and for those in the journal, to which a reversal returns.
-/

namespace Silkworm.IntraBlockState
open StateBuffer UndoLogs

variable {B : Type} [StateBuffer B]

/-- Whatever happens to the state within a block. -/
inductive Action where
  | operation (op : Operation)
  | revertToSnapshot (snapshot : Snapshot)
  | destruct (a : Address)
  | destructSuicides
  | destructTouchedDead
  | finalizeTransaction
  | clearJournalAndSubstate

def Action.run (db : B) (keccak : Bytes → Bytes32) (x : Action) (s : IntraBlockState) :
    IntraBlockState :=
  match x with
  | .operation op => op.run db keccak s
  | .revertToSnapshot snapshot => IntraBlockState.revertToSnapshot snapshot s
  | .destruct a => IntraBlockState.destruct db a s
  | .destructSuicides => IntraBlockState.destructSuicides db s
  | .destructTouchedDead => IntraBlockState.destructTouchedDead db s
  | .finalizeTransaction => IntraBlockState.finalizeTransaction s
  | .clearJournalAndSubstate => IntraBlockState.clearJournalAndSubstate s

/-- The address at which an action creates a contract. -/
def Action.created : Action → Option Address
  | .operation (.createContract a) => some a
  | _ => none

/-- The contract that an action creates, with the object it replaces. -/
def Action.Creates (db : B) (s : IntraBlockState) (x : Action) (a : Address)
    (prev : Option Object) : Prop :=
  x.created = some a ∧ prev = viewObject db s.objects a

/-- An object of the later state `t`, given which contracts are created. -/
inductive ObjectOf (db : B) (creates : Address → Option Object → Prop) (s t : IntraBlockState) :
    Address → Object → Prop
  | buffer {a : Address} {account : Account} (h : readAccount db a = some account) :
      ObjectOf db creates s t a ⟨some account, some account⟩
  | object {a : Address} {obj : Object} (h : s.objects.find a = some obj) :
      ObjectOf db creates s t a obj
  | journal {a : Address} {obj : Object} (h : .update a obj ∈ s.journal) :
      ObjectOf db creates s t a obj
  | create {a : Address} (h : readAccount db a = none) : ObjectOf db creates s t a ⟨none, some {}⟩
  | recreate {a : Address} {obj : Object} (h : ObjectOf db creates s t a obj)
      (hc : obj.current = none) : ObjectOf db creates s t a { obj with current := some {} }
  | update {a : Address} {obj : Object} {account account' : Account}
      (h : ObjectOf db creates s t a obj) (hc : obj.current = some account)
      (hi : account'.incarnation = account.incarnation)
      (hh : account'.codeHash = account.codeHash ∨ (t.code.find account'.codeHash).isSome) :
      ObjectOf db creates s t a { obj with current := some account' }
  | contract {a : Address} {prev : Option Object} (hc : creates a prev)
      (h : ∀ obj, prev = some obj → ObjectOf db creates s t a obj)
      (hn : prev = none → readAccount db a = none) :
      ObjectOf db creates s t a (createdObject db a prev)
  | destruct {a : Address} {obj : Object} (h : ObjectOf db creates s t a obj) :
      ObjectOf db creates s t a { obj with current := none }

/-- Code stays cached, and the objects of `t` come from those of `s`. -/
structure Descends (db : B) (creates : Address → Option Object → Prop) (s t : IntraBlockState) :
    Prop where
  code : ∀ h, (s.code.find h).isSome → (t.code.find h).isSome
  objects : ∀ a obj, t.objects.find a = some obj → ObjectOf db creates s t a obj
  journal : ∀ a obj, .update a obj ∈ t.journal → ObjectOf db creates s t a obj

variable {db : B} {keccak : Bytes → Bytes32} {creates : Address → Option Object → Prop}
  {s t u : IntraBlockState}

theorem objectOf_viewObject {a : Address} {obj : Object}
    (h : viewObject db s.objects a = some obj) : ObjectOf db creates s t a obj := by
  unfold viewObject at h
  cases hf : s.objects.find a with
  | some o =>
    rw [hf] at h
    cases h
    exact .object hf
  | none =>
    rw [hf] at h
    obtain ⟨account, hb, rfl⟩ := Option.map_eq_some_iff.mp h
    exact .buffer hb

theorem Descends.refl (s : IntraBlockState) : Descends db creates s s :=
  ⟨fun _ h => h, fun _ _ h => .object h, fun _ _ h => .journal h⟩

/-- An object of `t` that comes from `s` is an object of any later state, too. -/
theorem ObjectOf.later {a : Address} {obj : Object} (h : ObjectOf db creates s t a obj)
    (hc : ∀ h, (t.code.find h).isSome → (u.code.find h).isSome) :
    ObjectOf db creates s u a obj := by
  induction h with
  | buffer h => exact .buffer h
  | object h => exact .object h
  | journal h => exact .journal h
  | create h => exact .create h
  | recreate _ hn ih => exact .recreate ih hn
  | update _ hn hi hh ih => exact .update ih hn hi (hh.imp_right (hc _))
  | contract hcr _ hn ih => exact .contract hcr ih hn
  | destruct _ ih => exact .destruct ih

theorem ObjectOf.trans {a : Address} {obj : Object} (hst : Descends db creates s t)
    (hc : ∀ h, (t.code.find h).isSome → (u.code.find h).isSome)
    (h : ObjectOf db creates t u a obj) : ObjectOf db creates s u a obj := by
  induction h with
  | buffer h => exact .buffer h
  | object h => exact (hst.objects _ _ h).later hc
  | journal h => exact (hst.journal _ _ h).later hc
  | create h => exact .create h
  | recreate _ hn ih => exact .recreate ih hn
  | update _ hn hi hh ih => exact .update ih hn hi hh
  | contract hcr _ hn ih => exact .contract hcr ih hn
  | destruct _ ih => exact .destruct ih

theorem Descends.trans (h : Descends db creates s t) (h' : Descends db creates t u) :
    Descends db creates s u :=
  ⟨fun k hk => h'.code k (h.code k hk), fun _ _ ho => (h'.objects _ _ ho).trans h h'.code,
    fun _ _ ho => (h'.journal _ _ ho).trans h h'.code⟩

/-- Neither the objects nor the code change, and no object goes to the journal. -/
theorem Descends.of_objects_eq (ho : t.objects = s.objects) (hc : t.code = s.code)
    (hj : ∀ a obj, .update a obj ∈ t.journal → .update a obj ∈ s.journal) :
    Descends db creates s t :=
  ⟨fun _ h => hc ▸ h, fun _ _ h => .object (ho ▸ h), fun _ _ h => .journal (hj _ _ h)⟩

/-- One object changes, and its previous value may go to the journal. -/
theorem Descends.of_set {a : Address} {obj : Object} (ho : t.objects = s.objects.set a obj)
    (hc : ∀ h, (s.code.find h).isSome → (t.code.find h).isSome)
    (hobj : ObjectOf db creates s t a obj)
    (hj : ∀ b o, .update b o ∈ t.journal →
      viewObject db s.objects b = some o ∨ .update b o ∈ s.journal) : Descends db creates s t := by
  refine ⟨hc, fun b o h => ?_, fun b o h => ?_⟩
  · rw [ho, HashMap.find_set] at h
    split_ifs at h with hb
    · cases h
      exact hb ▸ hobj
    · exact .object h
  · rcases hj b o h with h | h
    · exact objectOf_viewObject h
    · exact .journal h

section Operations

variable (db creates) in
theorem descends_load (a : Address) (s : IntraBlockState) :
    Descends db creates s { s with objects := load db a s } := by
  unfold load
  cases s.objects.find a with
  | some obj => exact .refl s
  | none =>
    cases hr : readAccount db a with
    | none => exact .refl s
    | some account => exact .of_set rfl (fun _ h => h) (.buffer hr) fun _ _ h => .inr h

theorem mem_record {d e : Delta} (h : e ∈ (record d s).journal) : e = d ∨ e ∈ s.journal :=
  List.mem_cons.mp h

variable (db creates) in
theorem descends_getOrCreateObject (a : Address) (s : IntraBlockState) :
    Descends db creates s (getOrCreateObject db a s).2 := by
  have hload := descends_load db creates a s
  have hview := viewObject_load db a a s
  unfold getOrCreateObject
  rw [getObject_eq]
  cases hv : viewObject db s.objects a with
  | none =>
    have hr := readAccount_of_viewObject_eq_none hv
    refine hload.trans (.of_set rfl (fun _ h => h) (.create hr) fun b o hj => ?_)
    exact .inr ((mem_record hj).resolve_left (by simp))
  | some obj =>
    dsimp only
    split_ifs with hc
    · have hn : obj.current = none := Option.isNone_iff_eq_none.mp hc
      refine hload.trans (.of_set rfl (fun _ h => h) ?_ fun b o hj => ?_)
      · exact .recreate (objectOf_viewObject (hview.trans hv)) hn
      · refine (mem_record hj).imp_left fun h => ?_
        cases h
        exact hview.trans hv
    · exact hload

/-- The setters, with the code that one of them puts into the cache. -/
theorem descends_updateObject (a : Address) (f : Account → Account) (s : IntraBlockState)
    (hc : ∀ h, ((updateObject db a f s).code.find h).isSome → (t.code.find h).isSome)
    (ht : t = { updateObject db a f s with code := t.code })
    (hf : ∀ account, (f account).incarnation = account.incarnation ∧
      ((f account).codeHash = account.codeHash ∨ (t.code.find (f account).codeHash).isSome)) :
    Descends db creates s t := by
  have hcreate := descends_getOrCreateObject db creates a s
  have hspec := (getOrCreateObject_spec db (fun _ => default) a s).2
  obtain ⟨hobj, hcur, -⟩ := hspec
  unfold updateObject at hc ht
  generalize getOrCreateObject db a s = x at hcreate hobj hcur hc ht
  obtain ⟨account, ha⟩ := Option.isSome_iff_exists.mp hcur
  refine hcreate.trans (.of_set (congrArg objects ht) hc ?_ fun b o hj => ?_)
  · rw [ha]
    exact .update (objectOf_viewObject hobj) ha (hf account).1 (hf account).2
  · rw [ht] at hj
    refine (mem_record hj).imp_left fun h => ?_
    cases h
    exact hobj

theorem descends_touch (a : Address) (s : IntraBlockState) : Descends db creates s (touch a s) := by
  unfold touch
  dsimp only
  split_ifs
  · exact .of_objects_eq rfl rfl fun b o h => (mem_record h).resolve_left (by simp)
  · exact .of_objects_eq rfl rfl fun _ _ h => h

theorem descends_createContract {a : Address} (h : creates a (viewObject db s.objects a)) :
    Descends db creates s (createContract db a s) := by
  refine (descends_load db creates a s).trans ?_
  have hcreated (t : IntraBlockState) : ObjectOf db creates { s with objects := load db a s } t a
      (createdObject db a (viewObject db s.objects a)) := by
    refine .contract h (fun obj ho => objectOf_viewObject ?_) readAccount_of_viewObject_eq_none
    exact (viewObject_load db a a s).trans ho
  have hjournal (b : Address) (o : Object)
      (h : .update b o = objectDelta a (viewObject db s.objects a) ∨ .update b o ∈ s.journal) :
      viewObject db (load db a s) b = some o ∨ .update b o ∈ s.journal := by
    refine h.imp_left fun h => ?_
    cases hv : viewObject db s.objects a with
    | none =>
      rw [hv] at h
      cases h
    | some obj =>
      rw [hv] at h
      cases h
      exact (viewObject_load db a a s).trans hv
  unfold createContract
  rw [getObject_eq]
  dsimp only [record]
  split
  · refine .of_set rfl (fun _ h => h) (hcreated _) fun b o h => ?_
    exact hjournal b o (List.mem_cons.mp ((List.mem_cons.mp h).resolve_left (by simp)))
  · refine .of_set rfl (fun _ h => h) (hcreated _) fun b o h => ?_
    exact hjournal b o (List.mem_cons.mp ((List.mem_cons.mp h).resolve_left (by simp)))

/-- A getter that loads the object and otherwise fills caches only. -/
theorem Cached.descends {a : Address} (h : Cached db keccak s t) (ho : t.objects = load db a s) :
    Descends db creates s t := by
  refine (descends_load db creates a s).trans ⟨fun k hk => ?_, fun _ _ h => .object (ho ▸ h),
    fun _ _ hj => .journal (h.journal ▸ hj)⟩
  obtain ⟨c, hc⟩ := Option.isSome_iff_exists.mp hk
  rw [h.restores.code k c hc]
  rfl

theorem objects_getStorage (a : Address) (key : Bytes32) (original : Bool) (s : IntraBlockState) :
    (getStorage db a key original s).2.objects = load db a s := by
  unfold getStorage
  rw [getObject_eq]
  dsimp only
  repeat' split
  all_goals rfl

theorem objects_getCode (a : Address) (s : IntraBlockState) :
    (getCode db a s).2.objects = load db a s := by
  unfold getCode
  rw [getObject_eq]
  dsimp only
  repeat' split
  all_goals rfl

theorem descends_getStorage (a : Address) (key : Bytes32) (original : Bool) (s : IntraBlockState) :
    Descends db creates s (getStorage db a key original s).2 :=
  (getStorage_spec db (fun _ => default) a key original s).2.descends
    (objects_getStorage a key original s)

theorem find_tryEmplace_isSome {m : HashMap Bytes32 Bytes} {h h' : Bytes32} {code : Bytes} :
    ((m.tryEmplace h code).find h').isSome ↔ h' = h ∨ (m.find h').isSome := by
  unfold HashMap.tryEmplace
  split_ifs with hm
  · exact ⟨.inr, fun hh => hh.elim (fun e => e ▸ hm) id⟩
  · rw [HashMap.find_set]
    split_ifs with he <;> simp [he]

variable (db keccak) in
theorem Operation.descends (op : Operation) (s : IntraBlockState) :
    Descends db ((Action.operation op).Creates db s) s (op.run db keccak s) := by
  have hsetter (a : Address) (f : Account → Account) (hi : ∀ account,
      (f account).incarnation = account.incarnation ∧ (f account).codeHash = account.codeHash) :
      Descends db ((Action.operation op).Creates db s) s (updateObject db a f s) :=
    descends_updateObject a f s (fun _ h => h) rfl fun account => (hi account).imp_right .inl
  cases op with
  | createContract a => exact descends_createContract ⟨rfl, rfl⟩
  | touch a => exact descends_touch a s
  | recordSuicide a =>
    dsimp only [Operation.run, IntraBlockState.recordSuicide]
    split_ifs
    · exact .of_objects_eq rfl rfl fun b o h => (mem_record h).resolve_left (by simp)
    · exact .of_objects_eq rfl rfl fun _ _ h => h
  | setBalance a value => exact (hsetter a _ fun _ => ⟨by rfl, by rfl⟩).trans (descends_touch a _)
  | addToBalance a addend => exact (hsetter a _ fun _ => ⟨by rfl, by rfl⟩).trans (descends_touch a _)
  | subtractFromBalance a subtrahend =>
    exact (hsetter a _ fun _ => ⟨by rfl, by rfl⟩).trans (descends_touch a _)
  | setNonce a nonce => exact hsetter a _ fun _ => ⟨by rfl, by rfl⟩
  | setCode a code =>
    refine descends_updateObject a _ s (fun h hh => find_tryEmplace_isSome.mpr (.inr hh)) rfl
      fun _ => ⟨rfl, .inr (find_tryEmplace_isSome.mpr (.inl rfl))⟩
  | accessAccount a =>
    dsimp only [Operation.run, IntraBlockState.accessAccount]
    split_ifs
    · exact .of_objects_eq rfl rfl fun b o h => (mem_record h).resolve_left (by simp)
    · exact .of_objects_eq rfl rfl fun _ _ h => h
  | accessStorage a key =>
    dsimp only [Operation.run, IntraBlockState.accessStorage]
    split_ifs
    · exact .of_objects_eq rfl rfl fun b o h => (mem_record h).resolve_left (by simp)
    · exact .of_objects_eq rfl rfl fun _ _ h => h
  | setStorage a key value =>
    have hget : Descends db ((Action.operation (.setStorage a key value)).Creates db s) s
      (getStorage db a key false s).2 := descends_getStorage a key false s
    rw [Operation.run, IntraBlockState.setStorage, IntraBlockState.getCurrentStorage]
    generalize getStorage db a key false s = x at hget
    dsimp only
    split_ifs
    · exact hget
    · refine hget.trans (.of_objects_eq rfl rfl fun b o h => ?_)
      exact (mem_record h).resolve_left (by simp)
  | addLog log => exact .of_objects_eq rfl rfl fun _ _ h => h
  | addRefund addend => exact .of_objects_eq rfl rfl fun _ _ h => h
  | subtractRefund subtrahend => exact .of_objects_eq rfl rfl fun _ _ h => h
  | existsAccount a =>
    rw [Operation.run, IntraBlockState.existsAccount, getObject_eq]
    exact descends_load db _ a s
  | isDead a =>
    rw [Operation.run, IntraBlockState.isDead, getObject_eq]
    exact descends_load db _ a s
  | getBalance a =>
    rw [Operation.run, IntraBlockState.getBalance, getObject_eq]
    exact descends_load db _ a s
  | getNonce a =>
    rw [Operation.run, IntraBlockState.getNonce, getObject_eq]
    exact descends_load db _ a s
  | getCode a => exact (getCode_spec db keccak a s).2.descends (objects_getCode a s)
  | getCodeHash a =>
    rw [Operation.run, IntraBlockState.getCodeHash, getObject_eq]
    exact descends_load db _ a s
  | getCurrentStorage a key => exact descends_getStorage a key false s
  | getOriginalStorage a key => exact descends_getStorage a key true s

end Operations

section Actions

theorem descends_undo {d : Delta} (hd : d ∈ s.journal) : Descends db creates s (undo d s) := by
  cases d with
  | create a =>
    refine ⟨fun _ h => h, fun b obj h => ?_, fun _ _ h => .journal h⟩
    change (s.objects.remove a).find b = some obj at h
    rw [HashMap.find_remove] at h
    split_ifs at h
    exact .object h
  | update a obj => exact .of_set rfl (fun _ h => h) (.journal hd) fun _ _ h => .inr h
  | _ => exact .of_objects_eq rfl rfl fun _ _ h => h

/-- What each undoing of a journalled delta keeps, undoing several of them keeps. -/
theorem undone_journal {P : IntraBlockState → Prop}
    (hundo : ∀ y d, P y → d ∈ y.journal → P (undo d y)) {ds : List Delta} (hs : P s)
    (hd : ds ⊆ s.journal) : P (ds.foldl (fun s d => undo d s) s) := by
  induction ds generalizing s with
  | nil => exact hs
  | cons d ds ih =>
    rw [List.cons_subset] at hd
    apply ih (hundo s d hs hd.1)
    rw [undo_journal]
    exact hd.2

theorem descends_revertToSnapshot (snapshot : Snapshot) (s : IntraBlockState) :
    Descends db creates s (revertToSnapshot snapshot s) := by
  have hundone := undone_journal (P := Descends db creates s) (fun y d hy hd => hy.trans (descends_undo hd))
    (.refl s) (List.take_subset (s.journal.length - snapshot.journalSize) _)
  exact hundone.trans (.of_objects_eq rfl rfl fun _ _ h => List.drop_subset _ _ h)

theorem descends_destruct (a : Address) (s : IntraBlockState) :
    Descends db creates s (destruct db a s) := by
  have hs : Descends db creates s { s with storage := s.storage.remove a } :=
    .of_objects_eq rfl rfl fun _ _ h => h
  refine hs.trans ((descends_load db creates a _).trans ?_)
  rw [destruct, getObject_eq]
  cases hv : viewObject db s.objects a with
  | none => exact .refl _
  | some obj =>
    refine .of_set rfl (fun _ h => h) (.destruct (objectOf_viewObject ?_)) fun _ _ h => .inr h
    exact (viewObject_load db a a _).trans hv

theorem descends_foldl {α : Type} {f : IntraBlockState → α → IntraBlockState}
    (h : ∀ s x, Descends db creates s (f s x)) (xs : List α) (s : IntraBlockState) :
    Descends db creates s (xs.foldl f s) := by
  induction xs generalizing s with
  | nil => exact .refl s
  | cons x xs ih => exact (h s x).trans (ih _)

theorem descends_destructTouchedDead (s : IntraBlockState) :
    Descends db creates s (destructTouchedDead db s) := by
  refine descends_foldl (fun s a => ?_) _ s
  have hdead : Descends db creates s (isDead db a s).2 := by
    rw [isDead, getObject_eq]
    exact descends_load db _ a s
  generalize isDead db a s = x at hdead
  dsimp only
  split_ifs
  · exact hdead.trans (descends_destruct a _)
  · exact hdead

variable (db keccak) in
/-- What one action can do to the objects. -/
theorem Action.descends (x : Action) (s : IntraBlockState) :
    Descends db (x.Creates db s) s (x.run db keccak s) := by
  cases x with
  | operation op => exact op.descends db keccak s
  | revertToSnapshot snapshot => exact descends_revertToSnapshot snapshot s
  | destruct a => exact descends_destruct a s
  | destructSuicides => exact descends_foldl (fun s a => descends_destruct a s) _ s
  | destructTouchedDead => exact descends_destructTouchedDead s
  | finalizeTransaction => exact .of_objects_eq rfl rfl fun _ _ h => h
  | clearJournalAndSubstate => exact .of_objects_eq rfl rfl nofun

end Actions

end Silkworm.IntraBlockState
