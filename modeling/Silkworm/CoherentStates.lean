import Silkworm.ObjectHistories
import Silkworm.OperationViews

/-!
# Coherent states

What the end of a block relies on. Every object knows the account that was loaded. An account
either goes on from that one or was created in the block, under an incarnation that has no
slots and with its code in the cache. Storage is only kept for accounts that were looked up.
-/

namespace Silkworm.IntraBlockState
open StateBuffer

variable {B : Type} [StateBuffer B]

section Definitions

variable (db : B) (keccak : Bytes → Bytes32)

/-- The present account of an object, given the loaded one. -/
inductive CoherentAccount (a : Address) (code : HashMap Bytes32 Bytes) (initial : Option Account)
    (account : Account) : Prop
  | loaded {i : Account} (hi : initial = some i) (hinc : account.incarnation = i.incarnation)
      (hh : account.codeHash = i.codeHash ∨ account.codeHash = kEmptyHash)
  | created (hinc : initial.map Account.incarnation ≠ some account.incarnation)
      (hslots : ∀ key, readStorage db a account.incarnation key = default)
      (hh : account.codeHash = kEmptyHash ∨ (code.find account.codeHash).isSome)

structure CoherentObject (a : Address) (code : HashMap Bytes32 Bytes) (obj : Object) : Prop where
  initial : obj.initial = readAccount db a
  current : ∀ account, obj.current = some account →
    CoherentAccount db a code obj.initial account

/-- The account has been looked up, unless there is none. -/
def Loaded (s : IntraBlockState) (a : Address) : Prop :=
  (s.objects.find a).isSome ∨ readAccount db a = none

/-- Undoing the delta is harmless. -/
def CoherentDelta (s : IntraBlockState) : Delta → Prop
  | .create a => readAccount db a = none
  | .update a obj => CoherentObject db a s.code obj
  | .storageChange a _ _ | .storageWipe a _ => Loaded db s a
  | _ => True

structure Coherent (s : IntraBlockState) : Prop where
  objects : ∀ a obj, s.objects.find a = some obj → CoherentObject db a s.code obj
  journal : ∀ d ∈ s.journal, CoherentDelta db s d
  storage : ∀ a, (s.storage.find a).isSome → Loaded db s a
  code : ∀ h c, s.code.find h = some c → c = readCode db h ∨ keccak c = h

/-- The incarnation of the next contract has no slots and is not the loaded one. -/
def FreshIncarnation (s : IntraBlockState) (a : Address) : Prop :=
  ((viewObject db s.objects a).bind Object.initial).map Account.incarnation ≠
      some (followedIncarnation db a (viewObject db s.objects a) + 1) ∧
    ∀ key, readStorage db a (followedIncarnation db a (viewObject db s.objects a) + 1) key = default

/-- The account exists under another incarnation than the loaded one. -/
def CreatedInBlock (s : IntraBlockState) (a : Address) : Prop :=
  ∃ account, viewAccount db s a = some account ∧
    ((viewObject db s.objects a).bind Object.initial).map Account.incarnation ≠
      some account.incarnation

/-- Contracts are created under fresh incarnations, and only they get code. -/
def Admissible (s : IntraBlockState) : Action → Prop
  | .operation (.createContract a) => FreshIncarnation db s a
  | .operation (.setCode a _) => CreatedInBlock db s a
  | _ => True

end Definitions

section Changes

variable {db : B} {keccak : Bytes → Bytes32} {s t : IntraBlockState} {a : Address}

theorem coherent_initial : Coherent db keccak {} := ⟨nofun, nofun, nofun, nofun⟩

theorem CoherentObject.later {code code' : HashMap Bytes32 Bytes} {obj : Object}
    (h : CoherentObject db a code obj)
    (hc : ∀ h, (code.find h).isSome → (code'.find h).isSome) : CoherentObject db a code' obj := by
  refine ⟨h.initial, fun account ha => ?_⟩
  cases h.current account ha with
  | loaded hi hinc hh => exact .loaded hi hinc hh
  | created hinc hslots hh => exact .created hinc hslots (hh.imp_right (hc _))

theorem CoherentDelta.later {d : Delta} (h : CoherentDelta db s d)
    (hl : ∀ a, Loaded db s a → Loaded db t a)
    (hc : ∀ h, (s.code.find h).isSome → (t.code.find h).isSome) : CoherentDelta db t d := by
  cases d with
  | create a => exact h
  | update a obj => exact CoherentObject.later h hc
  | storageChange a key previous => exact hl a h
  | storageWipe a st => exact hl a h
  | _ => trivial

theorem Coherent.viewObject {obj : Object} (h : Coherent db keccak s)
    (ho : viewObject db s.objects a = some obj) : CoherentObject db a s.code obj := by
  unfold IntraBlockState.viewObject at ho
  cases hf : s.objects.find a with
  | some o =>
    rw [hf] at ho
    cases ho
    exact h.objects a _ hf
  | none =>
    rw [hf] at ho
    obtain ⟨account, hr, rfl⟩ := Option.map_eq_some_iff.mp ho
    refine ⟨hr.symm, fun account' ha => ?_⟩
    cases ha
    exact .loaded rfl rfl (.inl rfl)

/-- Neither the objects nor the storage nor the code change. -/
theorem Coherent.of_eq (h : Coherent db keccak s) (ho : t.objects = s.objects)
    (hs : t.storage = s.storage) (hc : t.code = s.code)
    (hj : ∀ d ∈ t.journal, d ∈ s.journal ∨ CoherentDelta db t d) : Coherent db keccak t := by
  have hl (a : Address) (ha : Loaded db s a) : Loaded db t a := by rwa [Loaded, ho]
  refine ⟨fun a obj hf => ?_, fun d hd => ?_, fun a ha => hl a (h.storage a (hs ▸ ha)),
    fun k c hk => h.code k c (hc ▸ hk)⟩
  · rw [hc]
    exact h.objects a obj (ho ▸ hf)
  · rcases hj d hd with hd | hd
    · exact (h.journal d hd).later hl fun _ hk => hc ▸ hk
    · exact hd

theorem Coherent.record {d : Delta} (h : Coherent db keccak s) (hd : CoherentDelta db s d) :
    Coherent db keccak (record d s) := by
  refine h.of_eq rfl rfl rfl fun e he => ?_
  rcases mem_record he with rfl | he
  · cases e <;> exact .inr hd
  · exact .inl he

theorem loaded_set {obj : Object} {b : Address} (h : Loaded db s b) :
    Loaded db { s with objects := s.objects.set a obj } b := by
  refine h.imp_left fun hb => ?_
  change ((s.objects.set a obj).find b).isSome
  rw [HashMap.find_set]
  split_ifs
  · rfl
  · exact hb

theorem Coherent.setObject {obj : Object} (h : Coherent db keccak s)
    (ho : CoherentObject db a s.code obj) :
    Coherent db keccak { s with objects := s.objects.set a obj } := by
  refine ⟨fun b o hf => ?_, fun d hd => (h.journal d hd).later (fun _ => loaded_set) fun _ hk => hk,
    fun b hb => loaded_set (h.storage b hb), h.code⟩
  change (s.objects.set a obj).find b = some o at hf
  rw [HashMap.find_set] at hf
  split_ifs at hf with hb
  · cases hf
    exact hb ▸ ho
  · exact h.objects b o hf

theorem Coherent.load (h : Coherent db keccak s) (a : Address) :
    Coherent db keccak { s with objects := load db a s } := by
  unfold IntraBlockState.load
  cases hf : s.objects.find a with
  | some obj => exact h
  | none =>
    cases hr : readAccount db a with
    | none => exact h
    | some account =>
      refine h.setObject ⟨hr.symm, fun account' ha => ?_⟩
      cases ha
      exact .loaded rfl rfl (.inl rfl)

variable (db) in
theorem loaded_load (a : Address) (s : IntraBlockState) :
    Loaded db { s with objects := load db a s } a := by
  unfold Loaded IntraBlockState.load
  dsimp only
  cases hf : s.objects.find a with
  | some obj => exact .inl (by rw [hf]; rfl)
  | none =>
    cases hr : readAccount db a with
    | none => exact .inr rfl
    | some account =>
      refine .inl ?_
      dsimp only
      rw [HashMap.find_set_self]
      rfl

theorem Coherent.setStorages {storage : HashMap Address Storage} (h : Coherent db keccak s)
    (hs : ∀ a, (storage.find a).isSome → (s.storage.find a).isSome ∨ Loaded db s a) :
    Coherent db keccak { s with storage } := by
  refine ⟨h.objects, h.journal, fun a ha => ?_, h.code⟩
  rcases hs a ha with ha | ha
  · exact h.storage a ha
  · exact ha

theorem Coherent.setStorage {st : Storage} (h : Coherent db keccak s) (ha : Loaded db s a) :
    Coherent db keccak { s with storage := s.storage.set a st } := by
  refine h.setStorages fun b hb => ?_
  rw [HashMap.find_set] at hb
  split_ifs at hb with he
  · exact .inr (he ▸ ha)
  · exact .inl hb

theorem Coherent.removeStorage (h : Coherent db keccak s) (a : Address) :
    Coherent db keccak { s with storage := s.storage.remove a } := by
  refine h.setStorages fun b hb => ?_
  rw [HashMap.find_remove] at hb
  split_ifs at hb with he
  · cases hb
  · exact .inl hb

theorem Coherent.cacheCode {k : Bytes32} {c : Bytes} (h : Coherent db keccak s)
    (hc : c = readCode db k ∨ keccak c = k) :
    Coherent db keccak { s with code := s.code.tryEmplace k c } := by
  have hgrow (h : Bytes32) (hh : (s.code.find h).isSome) :
      ((s.code.tryEmplace k c).find h).isSome := find_tryEmplace_isSome.mpr (.inr hh)
  refine ⟨fun a obj hf => (h.objects a obj hf).later hgrow,
    fun d hd => (h.journal d hd).later (fun _ ha => ha) hgrow, h.storage, fun k' c' hk => ?_⟩
  change (s.code.tryEmplace k c).find k' = some c' at hk
  unfold HashMap.tryEmplace at hk
  split_ifs at hk
  · exact h.code k' c' hk
  · rw [HashMap.find_set] at hk
    split_ifs at hk with he
    · cases hk
      exact he ▸ hc
    · exact h.code k' c' hk

end Changes

section Actions

variable {db : B} {keccak : Bytes → Bytes32} {s t : IntraBlockState} {a : Address}

/-- A recreated account has incarnation 0, under which nothing is stored. -/
theorem coherentAccount_empty (h0 : ∀ key, readStorage db a 0 key = default)
    (code : HashMap Bytes32 Bytes) (initial : Option Account) :
    CoherentAccount db a code initial {} := by
  by_cases hi : initial.map Account.incarnation = some 0
  · obtain ⟨i, rfl, hinc⟩ := Option.map_eq_some_iff.mp hi
    exact .loaded rfl hinc.symm (.inr rfl)
  · exact .created hi h0 (.inl rfl)

theorem Coherent.initial_eq (h : Coherent db keccak s) :
    (IntraBlockState.viewObject db s.objects a).bind Object.initial = readAccount db a := by
  cases hv : IntraBlockState.viewObject db s.objects a with
  | none => exact (readAccount_of_viewObject_eq_none hv).symm
  | some obj => exact (h.viewObject hv).initial

/-- The object that the setters start from. -/
theorem Coherent.presentObject (h : Coherent db keccak s)
    (h0 : ∀ key, readStorage db a 0 key = default) :
    CoherentObject db a s.code (presentObject db a s) := by
  refine ⟨h.initial_eq, fun account ha => ?_⟩
  unfold IntraBlockState.presentObject at ha ⊢
  cases ha
  unfold viewAccount
  cases hv : IntraBlockState.viewObject db s.objects a with
  | none => exact coherentAccount_empty h0 _ _
  | some obj =>
    cases hc : obj.current with
    | none =>
      simp only [Option.bind_some, hc]
      exact coherentAccount_empty h0 _ _
    | some account =>
      simp only [Option.bind_some, hc]
      exact (h.viewObject hv).current account hc

theorem Coherent.creationDeltas (h : Coherent db keccak s) (a : Address) :
    Coherent db keccak { s with
      objects := IntraBlockState.load db a s
      journal := creationDeltas a (IntraBlockState.viewObject db s.objects a) ++ s.journal } := by
  have hload := h.load a
  cases hv : IntraBlockState.viewObject db s.objects a with
  | none =>
    have hr : CoherentDelta db { s with objects := IntraBlockState.load db a s } (.create a) :=
      readAccount_of_viewObject_eq_none hv
    exact hload.record hr
  | some obj =>
    unfold IntraBlockState.creationDeltas
    dsimp only
    split_ifs
    · have ho : CoherentDelta db { s with objects := IntraBlockState.load db a s } (.update a obj) :=
        h.viewObject hv
      exact hload.record ho
    · exact hload

/-- The setters, each of which changes an account in its own way. -/
theorem Coherent.updateObject (h : Coherent db keccak s)
    (h0 : ∀ key, readStorage db a 0 key = default) {f : Account → Account}
    (hf : CoherentAccount db a s.code (readAccount db a) ((viewAccount db s a).getD {}) →
      CoherentAccount db a s.code (readAccount db a) (f ((viewAccount db s a).getD {}))) :
    Coherent db keccak (updateObject db a f s) := by
  have hpresent := h.presentObject h0
  have hnew : CoherentObject db a s.code { IntraBlockState.presentObject db a s with
      current := some (f ((viewAccount db s a).getD {})) } := by
    refine ⟨hpresent.initial, fun account ha => ?_⟩
    cases ha
    rw [hpresent.initial]
    refine hf ?_
    rw [← hpresent.initial]
    exact hpresent.current _ rfl
  have hrecord := (h.creationDeltas a).record
    (d := .update a (IntraBlockState.presentObject db a s)) hpresent
  have hset := hrecord.setObject hnew
  rw [updateObject_eq]
  exact hset

/-- The setters other than that of the code. -/
theorem Coherent.updateObject_of_eq (h : Coherent db keccak s)
    (h0 : ∀ key, readStorage db a 0 key = default) {f : Account → Account}
    (hi : ∀ account, (f account).incarnation = account.incarnation)
    (hh : ∀ account, (f account).codeHash = account.codeHash) :
    Coherent db keccak (IntraBlockState.updateObject db a f s) := by
  refine h.updateObject h0 fun ha => ?_
  cases ha with
  | loaded hi' hinc hcode => exact .loaded hi' ((hi _).trans hinc) (by rwa [hh])
  | created hinc hslots hcode => exact .created (by rwa [hi]) (by rwa [hi]) (by rwa [hh])

theorem Coherent.touch (h : Coherent db keccak s) (a : Address) :
    Coherent db keccak (touch a s) := by
  unfold IntraBlockState.touch
  dsimp only
  split_ifs
  · refine h.of_eq rfl rfl rfl fun d hd => ?_
    rcases mem_record hd with rfl | hd
    · exact .inr trivial
    · exact .inl hd
  · exact h.of_eq rfl rfl rfl fun _ hd => .inl hd

theorem setCode_eq (a : Address) (code : Bytes) (s : IntraBlockState) :
    setCode db keccak a code s =
      updateObject db a (fun account => { account with codeHash := keccak code })
        { s with code := s.code.tryEmplace (keccak code) code } := by
  rw [setCode, updateObject_eq, updateObject_eq]
  rfl

theorem Coherent.setCode (h : Coherent db keccak s)
    (h0 : ∀ key, readStorage db a 0 key = default) (hc : CreatedInBlock db s a) (code : Bytes) :
    Coherent db keccak (setCode db keccak a code s) := by
  obtain ⟨account, haccount, hinc⟩ := hc
  rw [h.initial_eq] at hinc
  rw [setCode_eq]
  have hcache : Coherent db keccak { s with code := s.code.tryEmplace (keccak code) code } :=
    h.cacheCode (.inr rfl)
  refine hcache.updateObject h0 fun ha => ?_
  change CoherentAccount db a _ _ ((viewAccount db s a).getD {}) at ha
  change CoherentAccount db a _ _ { (viewAccount db s a).getD {} with codeHash := keccak code }
  rw [haccount] at ha ⊢
  cases ha with
  | loaded hi hinc' _ =>
    rw [hi] at hinc
    exact absurd (congrArg some hinc'.symm) hinc
  | created _ hslots _ =>
    exact .created hinc hslots (.inr (find_tryEmplace_isSome.mpr (.inl rfl)))

theorem Coherent.createContract (h : Coherent db keccak s) (hf : FreshIncarnation db s a) :
    Coherent db keccak (createContract db a s) := by
  obtain ⟨hne, hslots⟩ := hf
  have hcreated : CoherentObject db a s.code
      (createdObject db a (IntraBlockState.viewObject db s.objects a)) := by
    refine ⟨h.initial_eq, fun account ha => ?_⟩
    cases ha
    exact .created hne hslots (.inl rfl)
  have hdelta : CoherentDelta db { s with objects := IntraBlockState.load db a s }
      (objectDelta a (IntraBlockState.viewObject db s.objects a)) := by
    cases hv : IntraBlockState.viewObject db s.objects a with
    | none => exact readAccount_of_viewObject_eq_none hv
    | some obj => exact h.viewObject hv
  have hset := ((h.load a).record hdelta).setObject (a := a) hcreated
  have hloaded : Loaded db { IntraBlockState.record
      (objectDelta a (IntraBlockState.viewObject db s.objects a))
        { s with objects := IntraBlockState.load db a s } with
      objects := (IntraBlockState.load db a s).set a
        (createdObject db a (IntraBlockState.viewObject db s.objects a)) } a := by
    refine .inl ?_
    dsimp only
    rw [HashMap.find_set_self]
    rfl
  unfold IntraBlockState.createContract
  rw [getObject_eq]
  dsimp only
  split
  · exact hset.record (d := .storageCreate a) trivial
  · next st hst =>
    have hwipe := (hset.record (d := .storageWipe a st) hloaded).removeStorage a
    exact hwipe

theorem Coherent.getStorage (h : Coherent db keccak s) (a : Address) (key : Bytes32)
    (original : Bool) : Coherent db keccak (getStorage db a key original s).2 := by
  have hload := h.load a
  have hloaded := loaded_load db a s
  unfold IntraBlockState.getStorage
  rw [getObject_eq]
  dsimp only
  split
  · exact hload
  split
  · exact hload
  split
  · exact hload.setStorage hloaded
  split
  · exact hload.setStorage hloaded
  split_ifs
  · exact hload.setStorage hloaded
  · exact (hload.setStorage hloaded).setStorage hloaded

theorem Coherent.writeStorage (h : Coherent db keccak s) (a : Address) (key value : Bytes32) :
    Coherent db keccak (IntraBlockState.setStorage db a key value s) := by
  have hget := h.getStorage a key false
  have hloaded : Loaded db (IntraBlockState.getStorage db a key false s).2 a := by
    rw [Loaded, objects_getStorage]
    exact loaded_load db a s
  unfold IntraBlockState.setStorage getCurrentStorage
  generalize IntraBlockState.getStorage db a key false s = x at hget hloaded
  dsimp only
  split_ifs
  · exact hget
  · exact (hget.setStorage hloaded).record (d := .storageChange a key x.1) hloaded

theorem Coherent.getCode (h : Coherent db keccak s) (a : Address) :
    Coherent db keccak (getCode db a s).2 := by
  have hload := h.load a
  unfold IntraBlockState.getCode
  rw [getObject_eq]
  dsimp only
  split
  · exact hload
  split_ifs
  · exact hload
  split
  · exact hload
  · next account _ _ _ hn =>
    have hcache := hload.cacheCode (k := account.codeHash) (.inl rfl)
    rw [HashMap.tryEmplace, hn] at hcache
    exact hcache

theorem Coherent.undo (h : Coherent db keccak s) {d : Delta} (hd : d ∈ s.journal) :
    Coherent db keccak (undo d s) := by
  have hdelta := h.journal d hd
  cases d with
  | create a =>
    have hl (b : Address) (hb : Loaded db s b) :
        Loaded db { s with objects := s.objects.remove a } b := by
      by_cases he : b = a
      · exact .inr (he ▸ hdelta)
      · refine hb.imp_left fun hb => ?_
        rwa [HashMap.find_remove_ne he]
    refine ⟨fun b obj hf => ?_, fun e he => (h.journal e he).later hl fun _ hk => hk,
      fun b hb => hl b (h.storage b hb), h.code⟩
    change (s.objects.remove a).find b = some obj at hf
    rw [HashMap.find_remove] at hf
    split_ifs at hf
    exact h.objects b obj hf
  | update a obj => exact h.setObject hdelta
  | storageChange a key previous => exact h.setStorage hdelta
  | storageWipe a st => exact h.setStorage hdelta
  | storageCreate a => exact h.removeStorage a
  | _ => exact h.of_eq rfl rfl rfl fun _ hd => .inl hd

theorem Coherent.revertToSnapshot (h : Coherent db keccak s) (snapshot : Snapshot) :
    Coherent db keccak (revertToSnapshot snapshot s) := by
  have hundone := undone_journal (fun y d hy hd => Coherent.undo hy hd) h
    (List.take_subset (s.journal.length - snapshot.journalSize) _)
  exact hundone.of_eq rfl rfl rfl fun _ hd => .inl (List.drop_subset _ _ hd)

theorem Coherent.destruct (h : Coherent db keccak s) (a : Address) :
    Coherent db keccak (destruct db a s) := by
  have hload := (h.removeStorage a).load a
  rw [IntraBlockState.destruct, getObject_eq]
  cases hv : IntraBlockState.viewObject db s.objects a with
  | none => exact hload
  | some obj => exact hload.setObject ⟨(h.viewObject hv).initial, by rintro account ⟨⟩⟩

theorem Coherent.foldl {α : Type} {f : IntraBlockState → α → IntraBlockState}
    (hf : ∀ s x, Coherent db keccak s → Coherent db keccak (f s x)) (xs : List α)
    (h : Coherent db keccak s) : Coherent db keccak (xs.foldl f s) := by
  induction xs generalizing s with
  | nil => exact h
  | cons x xs ih => exact ih (hf s x h)

/-- One operation. -/
theorem Operation.coherent (op : Operation) (h : Coherent db keccak s)
    (h0 : ∀ a key, readStorage db a 0 key = default) (ha : Admissible db s (.operation op)) :
    Coherent db keccak (op.run db keccak s) := by
  have hrecord {t : IntraBlockState} {d : Delta} (ho : t.objects = s.objects)
      (hs : t.storage = s.storage) (hc : t.code = s.code) (hj : t.journal = s.journal)
      (hd : CoherentDelta db t d) : Coherent db keccak (record d t) :=
    (h.of_eq ho hs hc fun _ hd => .inl (hj ▸ hd)).record hd
  cases op with
  | createContract a => exact h.createContract ha
  | touch a => exact h.touch a
  | recordSuicide a =>
    dsimp only [Operation.run, IntraBlockState.recordSuicide]
    split_ifs
    · exact hrecord rfl rfl rfl rfl trivial
    · exact h.of_eq rfl rfl rfl fun _ hd => .inl hd
  | setBalance a value => exact (h.updateObject_of_eq (h0 a) (fun _ => by rfl) fun _ => by rfl).touch a
  | addToBalance a addend =>
    exact (h.updateObject_of_eq (h0 a) (fun _ => by rfl) fun _ => by rfl).touch a
  | subtractFromBalance a subtrahend =>
    exact (h.updateObject_of_eq (h0 a) (fun _ => by rfl) fun _ => by rfl).touch a
  | setNonce a nonce => exact h.updateObject_of_eq (h0 a) (fun _ => by rfl) fun _ => by rfl
  | setCode a code => exact h.setCode (h0 a) ha code
  | accessAccount a =>
    dsimp only [Operation.run, IntraBlockState.accessAccount]
    split_ifs
    · exact hrecord rfl rfl rfl rfl trivial
    · exact h.of_eq rfl rfl rfl fun _ hd => .inl hd
  | accessStorage a key =>
    dsimp only [Operation.run, IntraBlockState.accessStorage]
    split_ifs
    · exact hrecord rfl rfl rfl rfl trivial
    · exact h.of_eq rfl rfl rfl fun _ hd => .inl hd
  | setStorage a key value => exact h.writeStorage a key value
  | addLog log => exact h.of_eq rfl rfl rfl fun _ hd => .inl hd
  | addRefund addend => exact h.of_eq rfl rfl rfl fun _ hd => .inl hd
  | subtractRefund subtrahend => exact h.of_eq rfl rfl rfl fun _ hd => .inl hd
  | existsAccount a =>
    rw [Operation.run, IntraBlockState.existsAccount, getObject_eq]
    exact h.load a
  | isDead a =>
    rw [Operation.run, IntraBlockState.isDead, getObject_eq]
    exact h.load a
  | getBalance a =>
    rw [Operation.run, IntraBlockState.getBalance, getObject_eq]
    exact h.load a
  | getNonce a =>
    rw [Operation.run, IntraBlockState.getNonce, getObject_eq]
    exact h.load a
  | getCode a => exact h.getCode a
  | getCodeHash a =>
    rw [Operation.run, IntraBlockState.getCodeHash, getObject_eq]
    exact h.load a
  | getCurrentStorage a key => exact h.getStorage a key false
  | getOriginalStorage a key => exact h.getStorage a key true

/-- One action. -/
theorem Action.coherent (x : Action) (h : Coherent db keccak s)
    (h0 : ∀ a key, readStorage db a 0 key = default) (ha : Admissible db s x) :
    Coherent db keccak (x.run db keccak s) := by
  cases x with
  | operation op => exact op.coherent h h0 ha
  | revertToSnapshot snapshot => exact h.revertToSnapshot snapshot
  | destruct a => exact h.destruct a
  | destructSuicides => exact h.foldl (fun s a hs => hs.destruct a) _
  | destructTouchedDead =>
    refine h.foldl (fun s a hs => ?_) _
    rw [IntraBlockState.isDead, getObject_eq]
    dsimp only
    split_ifs
    · exact (hs.load a).destruct a
    · exact hs.load a
  | finalizeTransaction =>
    refine h.setStorages fun a ha => .inl ?_
    rwa [HashMap.find_mapValues, Option.isSome_map] at ha
  | clearJournalAndSubstate => exact h.of_eq rfl rfl rfl (by rintro d ⟨⟩)

/-- The actions are admissible in the states in which they happen. -/
def AllAdmissible (db : B) (keccak : Bytes → Bytes32) : List Action → IntraBlockState → Prop
  | [], _ => True
  | x :: xs, s => Admissible db s x ∧ AllAdmissible db keccak xs (x.run db keccak s)

/-- Every run. -/
theorem coherent_foldl {xs : List Action} (h : Coherent db keccak s)
    (h0 : ∀ a key, readStorage db a 0 key = default) (hx : AllAdmissible db keccak xs s) :
    Coherent db keccak (xs.foldl (fun s x => x.run db keccak s) s) := by
  induction xs generalizing s with
  | nil => exact h
  | cons x xs ih => exact ih (x.coherent h h0 hx.1) hx.2

end Actions

end Silkworm.IntraBlockState
