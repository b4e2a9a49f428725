import Silkworm.CoherentStates
import Silkworm.MemoryBuffer

/-!
# Original storage

The original value of a slot is the one at the beginning of the transaction. Reads fill the
committed values in any order, writes and reversals change the current ones, and neither is
visible in the original value of an account that is there all the time.
-/

namespace Silkworm.IntraBlockState
open StateBuffer

variable {B : Type} [StateBuffer B] (db : B) (keccak : Bytes → Bytes32)

section Transactions

/-- What may happen within a transaction in which no contract is created at the address. -/
def Undisturbed (a : Address) : Action → Prop
  | .operation (.createContract b) => b ≠ a
  | .finalizeTransaction => False
  | _ => True

/-- The account is there before, between and after the actions, none of which disturbs it. -/
def ExistsThroughout (a : Address) : List Action → IntraBlockState → Prop
  | [], s => (existsAccount db a s).1 = true
  | x :: xs, s => (existsAccount db a s).1 = true ∧ Undisturbed a x ∧
      ExistsThroughout a xs (x.run db keccak s)

end Transactions

section Stability

variable (a : Address) (initial : Option Account) (incarnation : Uint64)

/-- The object belongs to the given initial account and has the given incarnation. -/
def KeepsIncarnation (obj : Object) : Prop :=
  obj.initial = initial ∧ obj.current.map Account.incarnation = some incarnation

/-- Undoing the delta keeps the incarnation of the account and its committed storage. -/
def StableDelta : Delta → Prop
  | .create b | .storageWipe b _ | .storageCreate b => b ≠ a
  | .update b previous => b = a → KeepsIncarnation initial incarnation previous
  | _ => True

/-- The original storage of the account is the given one, and remains so after reversals. -/
structure Stable (original : Bytes32 → Bytes32) (s : IntraBlockState) : Prop where
  object : ∃ obj, viewObject db s.objects a = some obj ∧ KeepsIncarnation initial incarnation obj
  storage : ∀ key, viewStorage db s a key true = original key
  journal : ∀ d ∈ s.journal, StableDelta a initial incarnation d

variable {db keccak a initial incarnation} {original : Bytes32 → Bytes32} {s t : IntraBlockState}

theorem Stable.of_views (h : Stable db a initial incarnation original s)
    (ho : viewObject db t.objects a = viewObject db s.objects a)
    (hs : ∀ key, viewStorage db t a key true = viewStorage db s a key true)
    (hj : ∀ d ∈ t.journal, d ∈ s.journal ∨ StableDelta a initial incarnation d) :
    Stable db a initial incarnation original t := by
  refine ⟨by rw [ho]; exact h.object, fun key => (hs key).trans (h.storage key), fun d hd => ?_⟩
  rcases hj d hd with hd | hd
  · exact h.journal d hd
  · exact hd

theorem Stable.of_cached (h : Stable db a initial incarnation original s)
    (hc : Cached db keccak s t) : Stable db a initial incarnation original t := by
  refine h.of_views (hc.restores.object a) (fun key => hc.restores.storage a key true) ?_
  rw [hc.journal]
  exact fun d hd => .inl hd

theorem Stable.load (h : Stable db a initial incarnation original s) (b : Address) :
    Stable db a initial incarnation original { s with objects := load db b s } :=
  h.of_cached (cached_load db (fun _ => default) b s)

/-- The buffered value of a slot depends on what is kept only. -/
theorem bufferedSlot_of_keeps {obj obj' : Object} (h : KeepsIncarnation initial incarnation obj)
    (h' : KeepsIncarnation initial incarnation obj') (b : Address) (key : Bytes32) :
    bufferedSlot db (some obj) b key = bufferedSlot db (some obj') b key := by
  apply bufferedSlot_congr
  · exact h.1.trans h'.1.symm
  · simp only [currentIncarnation, Option.bind_some, h.2, h'.2]

/-- An object of the account may change as long as its incarnation is kept. -/
theorem Stable.setObject (h : Stable db a initial incarnation original s) {b : Address}
    {obj : Object} (hobj : b = a → KeepsIncarnation initial incarnation obj) :
    Stable db a initial incarnation original { s with objects := s.objects.set b obj } := by
  by_cases hb : b = a
  · subst hb
    obtain ⟨prev, hview, hprev⟩ := h.object
    have hset : viewObject db (s.objects.set b obj) b = some obj := by
      rw [viewObject_set, if_pos rfl]
    refine ⟨⟨obj, hset, hobj rfl⟩, fun key => ?_, h.journal⟩
    rw [← h.storage key]
    apply viewStorage_congr
    · rfl
    · dsimp only
      rw [hset, hview]
      exact bufferedSlot_of_keeps (hobj rfl) hprev b key
  · have hset : viewObject db (s.objects.set b obj) a = viewObject db s.objects a := by
      rw [viewObject_set, if_neg (Ne.symm hb)]
    refine h.of_views hset (fun key => ?_) fun d hd => .inl hd
    apply viewStorage_congr
    · rfl
    · exact congrArg (bufferedSlot db · a key) hset

theorem Stable.removeObject (h : Stable db a initial incarnation original s) {b : Address}
    (hb : b ≠ a) :
    Stable db a initial incarnation original { s with objects := s.objects.remove b } := by
  have hfind : viewObject db (s.objects.remove b) a = viewObject db s.objects a :=
    viewObject_congr (HashMap.find_remove_ne (Ne.symm hb))
  refine h.of_views hfind (fun key => ?_) fun d hd => .inl hd
  apply viewStorage_congr
  · rfl
  · exact congrArg (bufferedSlot db · a key) hfind

/-- The current values of the account may change, the storage of others altogether. -/
theorem Stable.setStorages (h : Stable db a initial incarnation original s)
    {storage : HashMap Address Storage}
    (hs : (storage.findD a {}).committed = (s.storage.findD a {}).committed) :
    Stable db a initial incarnation original { s with storage } := by
  refine h.of_views rfl (fun key => ?_) fun d hd => .inl hd
  rw [viewStorage, viewStorage, slot, slot]
  dsimp only
  rw [hs]
  rfl

theorem Stable.setCurrent (h : Stable db a initial incarnation original s) (b : Address)
    (current : HashMap Bytes32 Bytes32) :
    Stable db a initial incarnation original
      { s with storage := s.storage.set b { s.storage.findD b {} with current } } := by
  apply h.setStorages
  rw [HashMap.findD_set]
  split_ifs with hb
  · rw [hb]
  · rfl

theorem Stable.record (h : Stable db a initial incarnation original s) {d : Delta}
    (hd : StableDelta a initial incarnation d) :
    Stable db a initial incarnation original (record d s) := by
  refine h.of_views rfl (fun _ => rfl) fun e he => ?_
  rcases List.mem_cons.mp he with rfl | he
  · exact .inr hd
  · exact .inl he

/-- The setters keep the incarnation of an account that is there. -/
theorem Stable.updateObject (h : Stable db a initial incarnation original s) (b : Address)
    {f : Account → Account} (hf : ∀ account, (f account).incarnation = account.incarnation) :
    Stable db a initial incarnation original (updateObject db b f s) := by
  have hpresent : b = a → ∃ obj account, viewObject db s.objects b = some obj ∧
      obj.initial = initial ∧ obj.current = some account ∧ account.incarnation = incarnation := by
    rintro rfl
    obtain ⟨obj, hview, hinitial, hcurrent⟩ := h.object
    obtain ⟨account, haccount, hinc⟩ := Option.map_eq_some_iff.mp hcurrent
    exact ⟨obj, account, hview, hinitial, haccount, hinc⟩
  have hkeeps (g : Account → Account) (hg : ∀ account, (g account).incarnation = account.incarnation) :
      b = a → KeepsIncarnation initial incarnation
        { presentObject db b s with current := some (g ((viewAccount db s b).getD {})) } := by
    intro hb
    obtain ⟨obj, account, hview, hinitial, haccount, hinc⟩ := hpresent hb
    constructor
    · rw [presentObject, hview]
      exact hinitial
    · rw [viewAccount, hview, Option.bind_some, haccount, Option.getD_some, Option.map_some, hg, hinc]
  rw [updateObject_eq]
  have hload := (h.load b).setObject (hkeeps f hf)
  refine hload.of_views rfl (fun _ => rfl) fun d hd => ?_
  rcases List.mem_cons.mp hd with rfl | hd
  · exact .inr (hkeeps id fun _ => rfl)
  rcases List.mem_append.mp hd with hd | hd
  · refine .inr ?_
    unfold creationDeltas at hd
    cases hv : viewObject db s.objects b with
    | none =>
      rw [hv, List.mem_singleton] at hd
      rw [hd]
      intro hb
      obtain ⟨obj, account, hview, -⟩ := hpresent hb
      rw [hv] at hview
      cases hview
    | some obj =>
      rw [hv] at hd
      dsimp only at hd
      split_ifs at hd with hn
      · rw [List.mem_singleton.mp hd]
        intro hb
        obtain ⟨obj', account, hview, -, haccount, -⟩ := hpresent hb
        rw [hv] at hview
        cases hview
        rw [haccount] at hn
        cases hn
      · cases hd
  · exact .inl hd

theorem Stable.touch (h : Stable db a initial incarnation original s) (b : Address) :
    Stable db a initial incarnation original (touch b s) := by
  unfold IntraBlockState.touch
  dsimp only
  have hinsert : Stable db a initial incarnation original
      { s with touched := HashSet.insert s.touched b } :=
    h.of_views rfl (fun _ => rfl) fun d hd => .inl hd
  split_ifs
  · exact hinsert.record trivial
  · exact hinsert

theorem Stable.createContract (h : Stable db a initial incarnation original s) {b : Address}
    (hb : b ≠ a) : Stable db a initial incarnation original (createContract db b s) := by
  have hdelta : StableDelta a initial incarnation (objectDelta b (viewObject db s.objects b)) := by
    cases viewObject db s.objects b with
    | none => exact hb
    | some obj => exact fun he => absurd he hb
  rw [IntraBlockState.createContract, getObject_eq]
  have hvacuous : b = a → KeepsIncarnation initial incarnation
      (createdObject db b (viewObject db s.objects b)) := fun he => absurd he hb
  have hset := ((h.load b).record hdelta).setObject hvacuous
  dsimp only
  split
  · exact hset.record hb
  · refine (hset.record (d := .storageWipe b _) hb).setStorages ?_
    rw [findD_remove, if_neg (Ne.symm hb)]
    rfl

theorem Stable.writeStorage (h : Stable db a initial incarnation original s) (b : Address)
    (key value : Bytes32) :
    Stable db a initial incarnation original (setStorage db b key value s) := by
  have hget := h.of_cached (getStorage_spec db (fun _ => default) b key false s).2
  unfold IntraBlockState.setStorage getCurrentStorage
  dsimp only
  split_ifs
  · exact hget
  · exact (hget.setCurrent b _).record trivial

theorem Stable.undo (h : Stable db a initial incarnation original s) {d : Delta}
    (hd : d ∈ s.journal) : Stable db a initial incarnation original (undo d s) := by
  have hdelta := h.journal d hd
  cases d with
  | create b => exact h.removeObject hdelta
  | update b obj => exact h.setObject hdelta
  | storageChange b key previous => exact h.setCurrent b _
  | storageWipe b st =>
    apply h.setStorages
    rw [HashMap.findD_set, if_neg (Ne.symm hdelta)]
  | storageCreate b =>
    apply h.setStorages
    rw [findD_remove, if_neg (Ne.symm hdelta)]
  | _ => exact h.of_views rfl (fun _ => rfl) fun d hd => .inl hd

theorem Stable.revertToSnapshot (h : Stable db a initial incarnation original s)
    (snapshot : Snapshot) :
    Stable db a initial incarnation original (revertToSnapshot snapshot s) := by
  have hundone := undone_journal (fun y d hy hd => Stable.undo hy hd) h
    (List.take_subset (s.journal.length - snapshot.journalSize) _)
  exact hundone.of_views rfl (fun _ => rfl) fun d hd => .inl (List.drop_subset _ _ hd)

/-- A destruction removes the account or has nothing to do with it. -/
theorem Stable.destruct (h : Stable db a initial incarnation original s ∨ viewAccount db s a = none)
    (b : Address) : Stable db a initial incarnation original (destruct db b s) ∨
      viewAccount db (destruct db b s) a = none := by
  by_cases hb : a = b
  · refine .inr ?_
    rw [viewAccount, viewObject_destruct, if_pos hb]
    cases viewObject db s.objects b <;> rfl
  rcases h with h | h
  · refine .inl ?_
    have hcommitted : ((s.storage.remove b).findD a {}).committed =
        (s.storage.findD a {}).committed := by rw [findD_remove, if_neg hb]
    have hremove := (h.setStorages hcommitted).load b
    rw [IntraBlockState.destruct, getObject_eq]
    cases viewObject db s.objects b with
    | none => exact hremove
    | some obj => exact hremove.setObject fun he => absurd he.symm hb
  · refine .inr ?_
    rwa [viewAccount, viewObject_destruct, if_neg hb]

/-- One operation. -/
theorem Operation.stable (op : Operation) (h : Stable db a initial incarnation original s)
    (hu : Undisturbed a (.operation op)) :
    Stable db a initial incarnation original (op.run db keccak s) := by
  have hsame {t : IntraBlockState} (ho : t.objects = s.objects) (hs : t.storage = s.storage)
      (hj : t.journal = s.journal) : Stable db a initial incarnation original t := by
    refine h.of_views (by rw [ho]) (fun key => ?_) fun d hd => .inl (hj ▸ hd)
    rw [viewStorage, viewStorage, ho, hs]
  have hrecord {t : IntraBlockState} {d : Delta} (ho : t.objects = s.objects)
      (hs : t.storage = s.storage) (hj : t.journal = s.journal)
      (hd : StableDelta a initial incarnation d) :
      Stable db a initial incarnation original (record d t) := (hsame ho hs hj).record hd
  cases op with
  | createContract b => exact h.createContract hu
  | touch b => exact h.touch b
  | recordSuicide b =>
    dsimp only [Operation.run, IntraBlockState.recordSuicide]
    split_ifs
    · exact hrecord rfl rfl rfl trivial
    · exact hsame rfl rfl rfl
  | setBalance b value => exact (h.updateObject b fun _ => by rfl).touch b
  | addToBalance b addend => exact (h.updateObject b fun _ => by rfl).touch b
  | subtractFromBalance b subtrahend => exact (h.updateObject b fun _ => by rfl).touch b
  | setNonce b nonce => exact h.updateObject b fun _ => by rfl
  | setCode b code =>
    have hupdate := h.updateObject b (f := fun account => { account with codeHash := keccak code })
      fun _ => by rfl
    exact hupdate.of_views rfl (fun _ => rfl) fun d hd => .inl hd
  | accessAccount b =>
    dsimp only [Operation.run, IntraBlockState.accessAccount]
    split_ifs
    · exact hrecord rfl rfl rfl trivial
    · exact hsame rfl rfl rfl
  | accessStorage b key =>
    dsimp only [Operation.run, IntraBlockState.accessStorage]
    split_ifs
    · exact hrecord rfl rfl rfl trivial
    · exact hsame rfl rfl rfl
  | setStorage b key value => exact h.writeStorage b key value
  | addLog log => exact hsame rfl rfl rfl
  | addRefund addend => exact hsame rfl rfl rfl
  | subtractRefund subtrahend => exact hsame rfl rfl rfl
  | existsAccount b =>
    rw [Operation.run, IntraBlockState.existsAccount, getObject_eq]
    exact h.load b
  | isDead b =>
    rw [Operation.run, IntraBlockState.isDead, getObject_eq]
    exact h.load b
  | getBalance b =>
    rw [Operation.run, IntraBlockState.getBalance, getObject_eq]
    exact h.load b
  | getNonce b =>
    rw [Operation.run, IntraBlockState.getNonce, getObject_eq]
    exact h.load b
  | getCode b => exact h.of_cached (getCode_spec db keccak b s).2
  | getCodeHash b =>
    rw [Operation.run, IntraBlockState.getCodeHash, getObject_eq]
    exact h.load b
  | getCurrentStorage b key => exact h.of_cached (getStorage_spec db keccak b key false s).2
  | getOriginalStorage b key => exact h.of_cached (getStorage_spec db keccak b key true s).2

theorem Stable.foldl {f : IntraBlockState → Address → IntraBlockState}
    (hf : ∀ s b, Stable db a initial incarnation original s ∨ viewAccount db s a = none →
      Stable db a initial incarnation original (f s b) ∨ viewAccount db (f s b) a = none)
    (xs : List Address) (h : Stable db a initial incarnation original s ∨ viewAccount db s a = none) :
    Stable db a initial incarnation original (xs.foldl f s) ∨
      viewAccount db (xs.foldl f s) a = none := by
  induction xs generalizing s with
  | nil => exact h
  | cons b bs ih => exact ih (hf s b h)

/-- One action, after which the account may be gone. -/
theorem Action.stable (x : Action) (h : Stable db a initial incarnation original s)
    (hu : Undisturbed a x) : Stable db a initial incarnation original (x.run db keccak s) ∨
      viewAccount db (x.run db keccak s) a = none := by
  cases x with
  | operation op => exact .inl (op.stable h hu)
  | revertToSnapshot snapshot => exact .inl (h.revertToSnapshot snapshot)
  | destruct b => exact Stable.destruct (.inl h) b
  | destructSuicides => exact Stable.foldl (fun s b hs => Stable.destruct hs b) _ (.inl h)
  | destructTouchedDead =>
    refine Stable.foldl (fun s b hs => ?_) _ (.inl h)
    have hload : Stable db a initial incarnation original { s with objects := load db b s } ∨
        viewAccount db { s with objects := load db b s } a = none := by
      apply hs.imp
      · exact fun hs => hs.load b
      · intro hs
        rwa [viewAccount, viewObject_load]
    rw [isDead, getObject_eq]
    dsimp only
    split_ifs
    · exact Stable.destruct hload b
    · exact hload
  | finalizeTransaction => cases hu
  | clearJournalAndSubstate => exact .inl (h.of_views rfl (fun _ => rfl) (by rintro d ⟨⟩))

/-- A whole transaction. -/
theorem Stable.run {xs : List Action} (h : Stable db a initial incarnation original s)
    (hx : ExistsThroughout db keccak a xs s) :
    Stable db a initial incarnation original (xs.foldl (fun s x => x.run db keccak s) s) := by
  induction xs generalizing s with
  | nil => exact h
  | cons x xs ih =>
    obtain ⟨-, hu, hx⟩ := hx
    have hx' : Stable db a initial incarnation original (x.run db keccak s) ∨
        viewAccount db (x.run db keccak s) a = none := x.stable h hu
    rcases hx' with hstep | hgone
    · exact ih hstep hx
    · have hexists : (existsAccount db a (x.run db keccak s)).1 = true := by
        cases xs with
        | nil => exact hx
        | cons y ys => exact hx.1
      rw [existsAccount_fst, hgone] at hexists
      cases hexists

/-- Nothing has been recorded yet. -/
theorem stable_of_journal (he : (existsAccount db a s).1 = true) (hj : s.journal = []) :
    ∃ initial incarnation,
      Stable db a initial incarnation (fun key => viewStorage db s a key true) s := by
  rw [existsAccount_fst, viewAccount] at he
  cases hv : viewObject db s.objects a with
  | none =>
    rw [hv] at he
    cases he
  | some obj =>
    rw [hv, Option.bind_some] at he
    obtain ⟨account, haccount⟩ := Option.isSome_iff_exists.mp he
    refine ⟨obj.initial, account.incarnation, ⟨obj, hv, rfl, ?_⟩, fun _ => rfl, ?_⟩
    · rw [haccount]
      rfl
    · rw [hj]
      rintro d ⟨⟩

theorem Stable.getOriginalStorage (h : Stable db a initial incarnation original s) (key : Bytes32) :
    (getOriginalStorage db a key s).1 = original key := by
  obtain ⟨obj, hview, -, hcurrent⟩ := h.object
  have hexists : (viewAccount db s a).isSome := by
    rw [viewAccount, hview, Option.bind_some, ← Option.isSome_map, hcurrent]
    rfl
  rw [IntraBlockState.getOriginalStorage, (getStorage_spec db (fun _ => default) a key true s).1,
    if_pos hexists]
  exact h.storage key

theorem ExistsThroughout.exists {xs : List Action} (h : ExistsThroughout db keccak a xs s) :
    (existsAccount db a s).1 = true := by
  cases xs with
  | nil => exact h
  | cons x xs => exact h.1

/-- At every point of a transaction the original value of a slot is its view at the beginning. -/
theorem getOriginalStorage_run {xs : List Action} (hj : s.journal = [])
    (h : ExistsThroughout db keccak a xs s) (key : Bytes32) :
    (getOriginalStorage db a key (xs.foldl (fun s x => x.run db keccak s) s)).1 =
      viewStorage db s a key true := by
  obtain ⟨initial, incarnation, hstable⟩ := stable_of_journal h.exists hj
  exact (hstable.run h).getOriginalStorage key

end Stability

section Slots

variable (a : Address) (key : Bytes32)

/-- At the end of a transaction the current values become the original ones. -/
theorem getOriginalStorage_finalizeTransaction (s : IntraBlockState) :
    (getOriginalStorage db a key (finalizeTransaction s)).1 =
      (getCurrentStorage db a key (finalizeTransaction s)).1 := by
  rw [getOriginalStorage, getCurrentStorage, (getStorage_spec db (fun _ => default) a key true _).1,
    (getStorage_spec db (fun _ => default) a key false _).1, viewStorage, viewStorage, slot, slot,
    current_finalizeTransaction]
  rfl

/-- The original value of a slot is its value at the end of the last transaction, or that of the
buffer in the first one. -/
theorem getOriginalStorage_stable :
    (∀ s xs, ExistsThroughout db keccak a xs (clearJournalAndSubstate (finalizeTransaction s)) →
      (getOriginalStorage db a key (xs.foldl (fun s x => x.run db keccak s)
        (clearJournalAndSubstate (finalizeTransaction s)))).1 =
        (getCurrentStorage db a key (finalizeTransaction s)).1) ∧
    (∀ account xs, readAccount db a = some account → ExistsThroughout db keccak a xs {} →
      (getOriginalStorage db a key (xs.foldl (fun s x => x.run db keccak s) {})).1 =
        readStorage db a account.incarnation key) ∧
    ∀ s, (getOriginalStorage db a key (finalizeTransaction s)).1 =
      (getCurrentStorage db a key (finalizeTransaction s)).1 := by
  refine ⟨fun s xs h => ?_, fun account xs ha h => ?_,
    getOriginalStorage_finalizeTransaction db a key⟩
  · have hexists : (viewAccount db (finalizeTransaction s) a).isSome := by
      have hstart := h.exists
      rwa [existsAccount_fst] at hstart
    rw [getOriginalStorage_run rfl h, ← getOriginalStorage_finalizeTransaction db,
      getOriginalStorage, (getStorage_spec db keccak a key true _).1, if_pos hexists]
    rfl
  · rw [getOriginalStorage_run rfl h]
    have hobject : viewObject db (∅ : HashMap Address Object) a = some ⟨some account, some account⟩ := by
      rw [viewObject, HashMap.find_empty, ha]
      rfl
    have hslot : bufferedSlot db (some ⟨some account, some account⟩) a key =
        readStorage db a account.incarnation key := if_pos rfl
    rw [← hslot, ← hobject]
    rfl

end Slots

section Examples

private def filled : Bytes32 := FixedBytes.ofByte 31 7

private def holder : Address := FixedBytes.replicate 20 6

/-- A contract whose first slot is zero. -/
private def unwritten : MemoryBuffer where
  accounts := HashMap.set ∅ holder { incarnation := 1, codeHash := default }

private def fill : Action := .operation (.setStorage holder default filled)

private def clear : Action := .operation (.setStorage holder default default)

/-- The slot is filled in a first transaction. It is cleared in a second one, read only then,
and the write is reverted. -/
theorem getOriginalStorage_stable_filled :
    let run := fun s (x : Action) => x.run unwritten (fun _ => default) s
    let s := [fill].foldl run {}
    let t := [clear, .operation (.getOriginalStorage holder default), .revertToSnapshot ⟨0, 0, 0⟩].foldl
      run (clearJournalAndSubstate (finalizeTransaction s))
    (getOriginalStorage unwritten holder default t).1 = filled ∧
    (getOriginalStorage unwritten holder default s).1 = default := by
  intro run s t
  obtain ⟨hnext, hfirst, -⟩ := getOriginalStorage_stable unwritten (fun _ => default) holder default
  constructor
  · have hthroughout : ExistsThroughout unwritten (fun _ => default) holder
        [clear, .operation (.getOriginalStorage holder default), .revertToSnapshot ⟨0, 0, 0⟩]
        (clearJournalAndSubstate (finalizeTransaction s)) :=
      ⟨rfl, trivial, rfl, trivial, rfl, trivial, rfl⟩
    rw [hnext s _ hthroughout]
    decide
  · rw [hfirst { incarnation := 1, codeHash := default } [fill] rfl ⟨rfl, trivial, rfl⟩]
    decide

end Examples

end Silkworm.IntraBlockState
