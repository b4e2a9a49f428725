import Silkworm.StateViews

/-!
# The operations are journaled

Each operation of the state extends the journal by changes whose undoing restores the state
before it. The getters only fill caches.
-/

namespace Silkworm.IntraBlockState
open StateBuffer UndoLogs

variable {B : Type} [StateBuffer B] {db : B} {keccak : Bytes → Bytes32}

section Objects

/-- The object map after an object has been looked up. -/
def load (db : B) (a : Address) (s : IntraBlockState) : HashMap Address Object :=
  match s.objects.find a with
  | some _ => s.objects
  | none => match readAccount db a with
    | none => s.objects
    | some account => s.objects.set a ⟨some account, some account⟩

theorem getObject_eq (a : Address) (s : IntraBlockState) :
    getObject db a s = (viewObject db s.objects a, { s with objects := load db a s }) := by
  unfold getObject viewObject load
  cases s.objects.find a with
  | some obj => rfl
  | none => cases readAccount db a <;> rfl

variable (db) in
@[simp] theorem viewObject_load (a a' : Address) (s : IntraBlockState) :
    viewObject db (load db a s) a' = viewObject db s.objects a' := by
  unfold load
  cases hf : s.objects.find a with
  | some obj => rfl
  | none =>
    cases hr : readAccount db a with
    | none => rfl
    | some account =>
      rw [viewObject_set]
      split_ifs with h
      · rw [h, viewObject, hf, hr]
        rfl
      · rfl

/-- Looking up an object changes nothing that can be observed. -/
theorem restores_load (a : Address) (s : IntraBlockState) :
    Restores db keccak s { s with objects := load db a s } :=
  { Restores.refl s with
    object := fun a' => viewObject_load db a a' s
    storage := fun a' key original => by
      apply viewStorage_congr
      · rfl
      · rw [viewObject_load] }

/-- Only caches have been filled. -/
structure Cached (db : B) (keccak : Bytes → Bytes32) (s t : IntraBlockState) : Prop where
  restores : Restores db keccak s t
  journal : t.journal = s.journal
  logs : t.logs = s.logs
  refund : t.refund = s.refund

theorem Cached.trans {s t u : IntraBlockState} (h : Cached db keccak s t)
    (h' : Cached db keccak t u) : Cached db keccak s u :=
  ⟨h.restores.trans h'.restores, h'.journal.trans h.journal, h'.logs.trans h.logs,
    h'.refund.trans h.refund⟩

theorem Cached.logged {s t : IntraBlockState} (h : Cached db keccak s t) :
    (undoLog db keccak).Logged s t := .of_restores h.journal h.restores

variable (db keccak) in
theorem cached_load (a : Address) (s : IntraBlockState) :
    Cached db keccak s { s with objects := load db a s } :=
  ⟨restores_load a s, rfl, rfl, rfl⟩

/-- A change of one object under which the buffered slots stay the same. The storage views
carry over in both directions. -/
private theorem restores_of_objects {s t y : IntraBlockState} {m : HashMap Address Object}
    (hy : Restores db keccak t y) (hs : t = { s with objects := t.objects, journal := t.journal })
    (hm : ∀ a, viewObject db m a = viewObject db s.objects a)
    (hb : ∀ a key, bufferedSlot db (viewObject db s.objects a) a key =
      bufferedSlot db (viewObject db t.objects a) a key) :
    Restores db keccak s { y with objects := m } := by
  rw [hs] at hy
  refine { hy with object := hm, storage := fun a key original => ?_ }
  calc viewStorage db { y with objects := m } a key original
      = viewStorage db y a key original := by
        apply viewStorage_congr
        · rfl
        · rw [hm, hy.object]
          exact hb a key
    _ = viewStorage db s a key original := by
        rw [hy.storage]
        apply viewStorage_congr
        · rfl
        · exact (hb a key).symm

/-- A new object, undone by erasing it. -/
theorem logged_create {s : IntraBlockState} {a : Address} (hn : viewObject db s.objects a = none) :
    (undoLog db keccak).Logged s
      { record (.create a) s with objects := s.objects.set a ⟨none, some {}⟩ } := by
  refine .of_undo (d := .create a) rfl (by rintro ⟨⟩) fun y hy => ?_
  refine restores_of_objects hy rfl (fun a' => ?_) (fun a' key => ?_)
  · have hobj := hy.object a'
    rw [viewObject_set] at hobj
    rw [viewObject_remove hn]
    split_ifs at hobj ⊢ with h
    · rw [h, hn]
    · exact hobj
  · rw [viewObject_set]
    split_ifs with h
    · rw [h, hn]
      exact bufferedSlot_congr rfl rfl a key
    · rfl

/-- A changed object with the same initial value and incarnation, undone by its old value. -/
theorem logged_update {s : IntraBlockState} {a : Address} {obj obj' : Object}
    (ho : viewObject db s.objects a = some obj) (hi : obj'.initial = obj.initial)
    (hc : currentIncarnation (some obj') = currentIncarnation (some obj)) :
    (undoLog db keccak).Logged s
      { record (.update a obj) s with objects := s.objects.set a obj' } := by
  refine .of_undo (d := .update a obj) rfl (by rintro ⟨⟩) fun y hy => ?_
  refine restores_of_objects hy rfl (fun a' => ?_) (fun a' key => ?_)
  · have hobj := hy.object a'
    rw [viewObject_set] at hobj
    rw [viewObject_set]
    split_ifs at hobj ⊢ with h
    · rw [h, ho]
    · exact hobj
  · rw [viewObject_set]
    split_ifs with h
    · rw [h, ho]
      exact bufferedSlot_congr (by simpa using hi.symm) hc.symm a key
    · rfl

/-- The object that `get_or_create_object` returns is the one in the state and exists. -/
structure Created (db : B) (a : Address) (s : IntraBlockState) (x : Object × IntraBlockState) :
    Prop where
  object : viewObject db x.2.objects a = some x.1
  current : x.1.current.isSome
  logs : x.2.logs = s.logs

variable (db keccak) in
theorem getOrCreateObject_spec (a : Address) (s : IntraBlockState) :
    (undoLog db keccak).Logged s (getOrCreateObject db a s).2 ∧
      Created db a s (getOrCreateObject db a s) := by
  have hload := (cached_load db keccak a s).logged
  have hview := viewObject_load db a a s
  unfold getOrCreateObject
  rw [getObject_eq]
  cases hv : viewObject db s.objects a with
  | none =>
    refine ⟨hload.trans (logged_create (hview.trans hv)), ?_, rfl, rfl⟩
    exact viewObject_of_find (HashMap.find_set_self ..)
  | some obj =>
    dsimp only
    split_ifs with hc
    · have hinc : currentIncarnation (some { obj with current := some {} }) =
          currentIncarnation (some obj) := by
        simp [currentIncarnation, Option.isNone_iff_eq_none.mp hc]
      refine ⟨hload.trans (logged_update (hview.trans hv) rfl hinc), ?_, rfl, rfl⟩
      exact viewObject_of_find (HashMap.find_set_self ..)
    · exact ⟨hload, hview.trans hv, by simpa [Option.isSome_iff_ne_none] using hc, rfl⟩

/-- The setters of accounts, none of which changes the incarnation. -/
theorem logged_updateObject (a : Address) (f : Account → Account)
    (hf : ∀ account, (f account).incarnation = account.incarnation) (s : IntraBlockState) :
    (undoLog db keccak).Logged s (updateObject db a f s) := by
  obtain ⟨hlog, hc⟩ := getOrCreateObject_spec db keccak a s
  unfold updateObject
  generalize getOrCreateObject db a s = x at hlog hc
  refine hlog.trans (logged_update hc.object rfl ?_)
  obtain ⟨account, ha⟩ := Option.isSome_iff_exists.mp hc.current
  simp [currentIncarnation, ha, hf]

end Objects

section Sets

/-- Undoing a touch takes the address out again; the ripemd address has no delta. -/
theorem logged_touch (a : Address) (s : IntraBlockState) :
    (undoLog db keccak).Logged s (touch a s) := by
  unfold touch
  by_cases ha : HashSet.contains s.touched a = true
  · have hins := HashSet.contains_insert_of_contains ha
    simp only [ha, Bool.not_true, Bool.false_eq_true, false_and, ↓reduceIte]
    refine .of_restores rfl { Restores.refl s with touched := fun a' _ => hins a', ripemd := ?_ }
    exact fun h => (hins kRipemdAddress).trans h
  · simp only [ha, Bool.not_false, true_and]
    by_cases hr : a = kRipemdAddress
    · rw [if_neg (by simpa using hr)]
      refine .of_restores rfl { Restores.refl s with touched := fun a' h => ?_, ripemd := ?_ }
      · rw [HashSet.contains_insert, hr]
        simp [h]
      · intro _
        rw [HashSet.contains_insert, hr]
        simp
    · rw [if_pos (by simpa using hr)]
      refine .of_undo (d := .touch a) rfl (by simpa [undoLog] using hr) fun y hy => ?_
      have htouched (a' : Address) (h : a' ≠ kRipemdAddress) :
          HashSet.contains (HashSet.remove y.touched a) a' = HashSet.contains s.touched a' :=
        HashSet.contains_remove_of_insert ha (hy.touched a' h)
      refine { hy with touched := htouched, ripemd := fun h => ?_ }
      have hne : kRipemdAddress ≠ a := fun h => hr h.symm
      have hy' : HashSet.contains y.touched kRipemdAddress = true := by
        refine hy.ripemd ?_
        change HashSet.contains (HashSet.insert s.touched a) kRipemdAddress = true
        rw [HashSet.contains_insert, h, Bool.or_true]
      change HashSet.contains (HashSet.remove y.touched a) kRipemdAddress = true
      rw [HashSet.contains_remove, hy']
      simp [hne]

theorem logged_recordSuicide (a : Address) (s : IntraBlockState) :
    (undoLog db keccak).Logged s (recordSuicide a s) := by
  unfold recordSuicide
  by_cases ha : HashSet.contains s.selfDestructs a = true
  · simp only [ha, Bool.not_true, Bool.false_eq_true, ↓reduceIte]
    exact .of_restores rfl
      { Restores.refl s with selfDestructs := HashSet.contains_insert_of_contains ha }
  · simp only [ha, Bool.not_false, ↓reduceIte]
    refine .of_undo (d := .suicide a) rfl (by rintro ⟨⟩) fun y hy => ?_
    exact { hy with
      selfDestructs := fun a' => HashSet.contains_remove_of_insert ha (hy.selfDestructs a') }

theorem logged_accessAccount (a : Address) (s : IntraBlockState) :
    (undoLog db keccak).Logged s (accessAccount a s).2 := by
  unfold accessAccount
  by_cases ha : HashSet.contains s.accessedAddresses a = true
  · simp only [ha, Bool.not_true, Bool.false_eq_true, ↓reduceIte]
    exact .of_restores rfl
      { Restores.refl s with accessedAddresses := HashSet.contains_insert_of_contains ha }
  · simp only [ha, Bool.not_false, ↓reduceIte]
    refine .of_undo (d := .accountAccess a) rfl (by rintro ⟨⟩) fun y hy => ?_
    exact { hy with
      accessedAddresses := fun a' =>
        HashSet.contains_remove_of_insert ha (hy.accessedAddresses a') }

private theorem hasAccessed_set (m : HashMap Address (HashSet Bytes32)) (a a' : Address)
    (keys : HashSet Bytes32) (key : Bytes32) :
    hasAccessed (m.set a keys) a' key =
      if a' = a then HashSet.contains keys key else hasAccessed m a' key := by
  simp only [hasAccessed, HashMap.findD, HashMap.find_set]
  split_ifs <;> rfl

theorem logged_accessStorage (a : Address) (key : Bytes32) (s : IntraBlockState) :
    (undoLog db keccak).Logged s (accessStorage a key s).2 := by
  unfold accessStorage
  by_cases ha : HashSet.contains (s.accessedStorageKeys.findD a ∅) key = true
  · simp only [ha, Bool.not_true, Bool.false_eq_true, ↓reduceIte]
    refine .of_restores rfl { Restores.refl s with accessedStorageKeys := fun a' key' => ?_ }
    rw [hasAccessed_set]
    split_ifs with h
    · rw [HashSet.contains_insert_of_contains ha, h]
      rfl
    · rfl
  · simp only [ha, Bool.not_false, ↓reduceIte]
    refine .of_undo (d := .storageAccess a key) rfl (by rintro ⟨⟩) fun y hy => ?_
    refine { hy with accessedStorageKeys := fun a' key' => ?_ }
    have hy' : hasAccessed y.accessedStorageKeys a' key' = hasAccessed (s.accessedStorageKeys.set a
        (HashSet.insert (s.accessedStorageKeys.findD a ∅) key)) a' key' :=
      hy.accessedStorageKeys a' key'
    change hasAccessed (y.accessedStorageKeys.set a
      (HashSet.remove (y.accessedStorageKeys.findD a ∅) key)) a' key' = _
    rw [hasAccessed_set] at hy' ⊢
    split_ifs at hy' ⊢ with h
    · subst h
      exact HashSet.contains_remove_of_insert ha hy'
    · exact hy'

end Sets

section Storages

theorem findD_remove (m : HashMap Address Storage) (a a' : Address) :
    (m.remove a).findD a' {} = if a' = a then {} else m.findD a' {} := by
  simp only [HashMap.findD, HashMap.find_remove]
  split_ifs <;> rfl

/-- A storage map with other entries but the same slots is as good. -/
private theorem cached_setStorage {s : IntraBlockState} {a : Address} {st : Storage}
    (h : ∀ key original, slot st (bufferedSlot db (viewObject db s.objects a) a key) key original =
      viewStorage db s a key original) :
    Cached db keccak s { s with storage := s.storage.set a st } := by
  refine ⟨{ Restores.refl s with storage := fun a' key original => ?_ }, rfl, rfl, rfl⟩
  rw [viewStorage, HashMap.findD_set]
  split_ifs with ha
  · subst ha
    exact h key original
  · rfl

private theorem slot_commit {st : Storage} {value : Bytes32} {key : Bytes32}
    (hn : st.committed.find key = none) {buffered : Bytes32 → Bytes32} (hb : buffered key = value)
    (key' : Bytes32) (original : Bool) :
    slot { st with committed := st.committed.set key ⟨value, value⟩ } (buffered key') key' original =
      slot st (buffered key') key' original := by
  unfold slot
  dsimp only
  rw [HashMap.find_set]
  by_cases hk : key' = key
  · subst hk
    rw [if_pos rfl, hn, hb]
  · rw [if_neg hk]

/-- What `get_storage` does with the storage of an account that exists. -/
private theorem readSlot_spec {s : IntraBlockState} {a : Address} {obj : Object} {account : Account}
    (hv : viewObject db s.objects a = some obj) (hc : obj.current = some account) (key : Bytes32)
    (original : Bool) {x : Bytes32 × IntraBlockState}
    (hx : x = (let st := s.storage.findD a {}
      let s := { s with storage := s.storage.set a st }
      match (if original then none else st.current.find key) with
      | some value => (value, s)
      | none => match st.committed.find key with
        | some value => (value.original, s)
        | none =>
          if obj.initial.map Account.incarnation ≠ some account.incarnation then (default, s)
          else
            let value := readStorage db a account.incarnation key
            let st := { st with committed := st.committed.set key ⟨value, value⟩ }
            (value, { s with storage := s.storage.set a st }))) :
    x.1 = viewStorage db s a key original ∧ Cached db keccak s x.2 := by
  have hinc : currentIncarnation (some obj) = account.incarnation := by
    simp [currentIncarnation, hc]
  have hset : Cached db keccak s { s with storage := s.storage.set a (s.storage.findD a {}) } :=
    cached_setStorage fun _ _ => rfl
  rw [hx, viewStorage, slot]
  dsimp only
  cases hcur : (if original = true then none else (s.storage.findD a {}).current.find key) with
  | some value => exact ⟨rfl, hset⟩
  | none =>
    cases hcom : (s.storage.findD a {}).committed.find key with
    | some value => exact ⟨rfl, hset⟩
    | none =>
      have hbuf : bufferedSlot db (viewObject db s.objects a) a key =
          if obj.initial.map Account.incarnation = some account.incarnation then
            readStorage db a account.incarnation key else default := by
        rw [bufferedSlot, hv, hinc]
        rfl
      by_cases hi : obj.initial.map Account.incarnation = some account.incarnation
      · rw [if_neg (not_not.mpr hi)]
        rw [if_pos hi] at hbuf
        refine ⟨hbuf.symm, hset.trans (cached_setStorage fun key' original' => ?_)⟩
        rw [slot_commit hcom hbuf, viewStorage, HashMap.findD_set, if_pos rfl]
      · rw [if_pos hi]
        rw [if_neg hi] at hbuf
        exact ⟨hbuf.symm, hset⟩

variable (db keccak) in
theorem getStorage_spec (a : Address) (key : Bytes32) (original : Bool) (s : IntraBlockState) :
    (getStorage db a key original s).1 =
        (if (viewAccount db s a).isSome then viewStorage db s a key original else default) ∧
      Cached db keccak s (getStorage db a key original s).2 := by
  have hload := cached_load db keccak a s
  have hview := viewObject_load db a a s
  unfold getStorage
  rw [getObject_eq]
  cases hv : viewObject db s.objects a with
  | none => exact ⟨by simp [viewAccount, hv], hload⟩
  | some obj =>
    cases hc : obj.current with
    | none =>
      dsimp only
      rw [hc]
      exact ⟨by simp [viewAccount, hv, hc], hload⟩
    | some account =>
      dsimp only
      rw [hc]
      obtain ⟨hval, hcache⟩ := readSlot_spec (s := { s with objects := load db a s })
        (hview.trans hv) hc key original rfl
      refine ⟨hval.trans ?_, hload.trans hcache⟩
      rw [hload.restores.storage, if_pos (by simp [viewAccount, hv, hc])]

theorem slot_setCurrent (st : Storage) (key key' value buffered : Bytes32)
    (original : Bool) :
    slot { st with current := st.current.set key value } buffered key' original =
      if key' = key ∧ original = false then value else slot st buffered key' original := by
  unfold slot
  dsimp only
  rw [HashMap.find_set]
  cases original with
  | false => by_cases hk : key' = key <;> simp [hk]
  | true => simp

/-- A write to an account that exists, undone by the previous value. -/
theorem logged_setStorage (a : Address) (key value : Bytes32) {s : IntraBlockState}
    (ha : (viewAccount db s a).isSome) :
    (undoLog db keccak).Logged s (setStorage db a key value s) := by
  obtain ⟨hval, hcache⟩ := getStorage_spec db keccak a key false s
  rw [if_pos ha] at hval
  unfold setStorage getCurrentStorage
  generalize getStorage db a key false s = x at hval hcache
  obtain ⟨prev, t⟩ := x
  dsimp only at hval hcache ⊢
  split_ifs with hp
  · exact hcache.logged
  refine hcache.logged.trans (.of_undo (d := .storageChange a key prev) rfl (by rintro ⟨⟩) fun y hy => ?_)
  have hprev : prev = viewStorage db t a key false := by rw [hval, hcache.restores.storage]
  have hobj (a' : Address) : viewObject db y.objects a' = viewObject db t.objects a' := hy.object a'
  refine { hy with storage := fun a' key' original => ?_ }
  have hy' := hy.storage a' key' original
  simp only [record, viewStorage, hobj, HashMap.findD_set] at hy'
  simp only [undoLog, undo, viewStorage, hobj, HashMap.findD_set]
  by_cases h : a' = a
  · subst h
    rw [if_pos rfl] at hy' ⊢
    rw [slot_setCurrent] at hy' ⊢
    split_ifs at hy' ⊢ with hk
    · rw [hk.1, hk.2]
      exact hprev
    · exact hy'
  · rw [if_neg h] at hy' ⊢
    exact hy'

end Storages

section Contracts

/-- The change of an object and the removal of its storage are undone together. -/
private theorem restores_contract {s t y : IntraBlockState} {a : Address}
    {objects : HashMap Address Object} {storage : HashMap Address Storage}
    (hy : Restores db keccak t y)
    (hs : t = { s with objects := t.objects, journal := t.journal, storage := t.storage })
    (ht : ∀ a', a' ≠ a → viewObject db t.objects a' = viewObject db s.objects a' ∧
      t.storage.findD a' {} = s.storage.findD a' {})
    (ho : ∀ a', viewObject db objects a' =
      if a' = a then viewObject db s.objects a else viewObject db y.objects a')
    (hst : ∀ a', storage.findD a' {} =
      if a' = a then s.storage.findD a {} else y.storage.findD a' {}) :
    Restores db keccak s { y with objects, storage } := by
  have hobj (a' : Address) : viewObject db objects a' = viewObject db s.objects a' := by
    rw [ho]
    split_ifs with h
    · rw [h]
    · rw [hy.object, (ht a' h).1]
  have hstorage (a' : Address) (key : Bytes32) (original : Bool) :
      viewStorage db { y with objects, storage } a' key original =
        viewStorage db s a' key original := by
    by_cases h : a' = a
    · apply viewStorage_congr
      · rw [hst, if_pos h, h]
      · rw [hobj]
    · have hy' := hy.storage a' key original
      rw [viewStorage, viewStorage, hy.object, (ht a' h).1, (ht a' h).2] at hy'
      rw [viewStorage, viewStorage, hst, if_neg h, hobj]
      exact hy'
  rw [hs] at hy
  exact { hy with object := hobj, storage := hstorage }

private theorem viewObject_undo_objectDelta {m : HashMap Address Object} {a : Address}
    (y : IntraBlockState) (a' : Address) :
    viewObject db (undo (objectDelta a (viewObject db m a)) y).objects a' =
      if a' = a then viewObject db m a else viewObject db y.objects a' := by
  cases hv : viewObject db m a with
  | none => exact viewObject_remove hv a'
  | some obj => exact viewObject_set _ _ _ _

private theorem undo_objectDelta (a : Address) (prev : Option Object) (y : IntraBlockState) :
    undo (objectDelta a prev) y = { y with objects := (undo (objectDelta a prev) y).objects } := by
  cases prev <;> rfl

private theorem allowed_contract {d : Delta} (hd : d ≠ .touch kRipemdAddress) {a : Address}
    (prev : Option Object) : ∀ e ∈ [d, objectDelta a prev], (undoLog db keccak).Allowed e := by
  have hp : objectDelta a prev ≠ .touch kRipemdAddress := by cases prev <;> nofun
  simpa [undoLog] using ⟨hd, hp⟩

theorem logged_createContract (a : Address) (s : IntraBlockState) :
    (undoLog db keccak).Logged s (createContract db a s) := by
  refine (cached_load db keccak a s).logged.trans ?_
  unfold createContract
  rw [getObject_eq, ← viewObject_load db a a s]
  have hother (a' : Address) (h : a' ≠ a) (o : Object) :
      viewObject db ((load db a s).set a o) a' = viewObject db (load db a s) a' := by
    rw [viewObject_set, if_neg h]
  cases hst : s.storage.find a with
  | none =>
    simp only [record, hst]
    refine ⟨[.storageCreate a, objectDelta a (viewObject db (load db a s) a)], rfl,
      allowed_contract (d := .storageCreate a) (by simp) _, fun y hy => ?_⟩
    change Restores db keccak _ (undo (objectDelta a _) (undo (.storageCreate a) y))
    rw [undo_objectDelta]
    refine restores_contract (a := a) (y := y) hy rfl (fun a' h => ⟨hother a' h _, rfl⟩)
      (fun a' => ?_) (fun a' => ?_)
    · rw [viewObject_undo_objectDelta]
      rfl
    · have hfind : s.storage.findD a {} = {} := by rw [HashMap.findD, hst, Option.getD_none]
      change (y.storage.remove a).findD a' {} = if a' = a then s.storage.findD a {} else _
      rw [findD_remove, hfind]
  | some st =>
    simp only [record, hst]
    refine ⟨[.storageWipe a st, objectDelta a (viewObject db (load db a s) a)], rfl,
      allowed_contract (d := .storageWipe a st) (by simp) _, fun y hy => ?_⟩
    change Restores db keccak _ (undo (objectDelta a _) (undo (.storageWipe a st) y))
    rw [undo_objectDelta]
    refine restores_contract (a := a) (y := y) hy rfl
      (fun a' h => ⟨hother a' h _, by rw [findD_remove, if_neg h]⟩) (fun a' => ?_) (fun a' => ?_)
    · rw [viewObject_undo_objectDelta]
      rfl
    · have hfind : s.storage.findD a {} = st := by rw [HashMap.findD, hst, Option.getD_some]
      change (y.storage.set a st).findD a' {} = if a' = a then s.storage.findD a {} else _
      rw [HashMap.findD_set, hfind]

end Contracts

section Code

theorem viewCode_of_find {s : IntraBlockState} {h : Bytes32} {c : Bytes}
    (hc : s.code.find h = some c) : viewCode db s h = c := by
  rw [viewCode, HashMap.findD, hc, Option.getD_some]

/-- More code in the cache, each one either read from the buffer or put under its own hash. -/
theorem restores_setCode {s : IntraBlockState} {h : Bytes32} {c : Bytes} (hn : s.code.find h = none)
    (hc : c = readCode db h ∨ keccak c = h) :
    Restores db keccak s { s with code := s.code.set h c } := by
  have hs : Restores db keccak s s := .refl s
  refine { hs with code := fun k d hd => ?_, newCode := fun k d hd => ?_ }
  · change (s.code.set h c).find k = some d
    rw [HashMap.find_set_ne fun hk => by rw [hk, hn] at hd; contradiction]
    exact hd
  · change (s.code.set h c).find k = some d at hd
    rw [HashMap.find_set] at hd
    split_ifs at hd with hk
    · cases hd
      exact .inr (hk ▸ hc)
    · exact .inl hd

variable (db keccak) in
theorem getCode_spec (a : Address) (s : IntraBlockState) :
    (getCode db a s).1 = (match viewAccount db s a with
      | none => []
      | some account => if account.codeHash = kEmptyHash then []
        else viewCode db s account.codeHash) ∧
      Cached db keccak s (getCode db a s).2 := by
  have hload := cached_load db keccak a s
  unfold getCode
  rw [getObject_eq]
  dsimp only
  rw [viewAccount]
  cases (viewObject db s.objects a).bind Object.current with
  | none => exact ⟨rfl, hload⟩
  | some account =>
    dsimp only
    split_ifs with he
    · exact ⟨rfl, hload⟩
    · cases hc : s.code.find account.codeHash with
      | some c => exact ⟨(viewCode_of_find hc).symm, hload⟩
      | none =>
        refine ⟨?_, hload.trans ⟨restores_setCode hc (.inl rfl), rfl, rfl, rfl⟩⟩
        rw [viewCode, HashMap.findD, hc, Option.getD_none]

theorem logged_setCode (a : Address) (c : Bytes) (s : IntraBlockState) :
    (undoLog db keccak).Logged s (setCode db keccak a c s) := by
  have hlog : (undoLog db keccak).Logged s
      (updateObject db a (fun account => { account with codeHash := keccak c }) s) :=
    logged_updateObject a _ (fun _ => by rfl) s
  refine hlog.trans ?_
  unfold setCode HashMap.tryEmplace
  dsimp only
  generalize updateObject db a _ s = t
  split_ifs with h
  · exact .refl _
  · refine .of_restores rfl (restores_setCode ?_ (.inr rfl))
    simpa using h

end Code

end Silkworm.IntraBlockState
