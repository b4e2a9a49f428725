import Silkworm.JournaledOperations

/-!
# What the operations change

The journal says how an operation is undone. Here is what it does: the views of accounts and
slots after a setter, the creation of a contract and a write to storage.
-/

namespace Silkworm.IntraBlockState
open StateBuffer

variable {B : Type} [StateBuffer B] {db : B} {s : IntraBlockState}

section Accounts

/-- The deltas for an object that a setter finds missing or destroyed. -/
def creationDeltas (a : Address) : Option Object → List Delta
  | none => [.create a]
  | some obj => if obj.current.isNone then [.update a obj] else []

/-- The object that the setters start from. -/
def presentObject (db : B) (a : Address) (s : IntraBlockState) : Object :=
  ⟨(viewObject db s.objects a).bind Object.initial, some ((viewAccount db s a).getD {})⟩

variable (db) in
theorem updateObject_eq (a : Address) (f : Account → Account) (s : IntraBlockState) :
    updateObject db a f s = { s with
      objects := (load db a s).set a
        { presentObject db a s with current := some (f ((viewAccount db s a).getD {})) }
      journal := .update a (presentObject db a s) ::
        (creationDeltas a (viewObject db s.objects a) ++ s.journal) } := by
  unfold updateObject getOrCreateObject
  rw [getObject_eq]
  cases hv : viewObject db s.objects a with
  | none =>
    have haccount : viewAccount db s a = none := by rw [viewAccount, hv]; rfl
    have hpresent : presentObject db a s = ⟨none, some {}⟩ := by rw [presentObject, haccount, hv]; rfl
    simp only [record, HashMap.set, AList.insert_insert, creationDeltas, hpresent, haccount]
    rfl
  | some obj =>
    have haccount : viewAccount db s a = obj.current := by rw [viewAccount, hv]; rfl
    cases hc : obj.current with
    | none =>
      have hpresent : presentObject db a s = { obj with current := some {} } := by
        rw [presentObject, haccount, hv, hc]
        rfl
      simp only [record, HashMap.set, AList.insert_insert, creationDeltas, hpresent, haccount, hc,
        Option.isNone_none, ↓reduceIte]
      rfl
    | some account =>
      have hpresent : presentObject db a s = obj := by
        rw [presentObject, haccount, hv, hc, Option.getD_some, ← hc]
        rfl
      simp only [record, creationDeltas, hpresent, haccount, hc, Option.isNone_some,
        Bool.false_eq_true, ↓reduceIte]
      rfl

variable (db) in
theorem viewObject_updateObject (a : Address) (f : Account → Account) (s : IntraBlockState)
    (a' : Address) : viewObject db (updateObject db a f s).objects a' =
      if a' = a then
        some { presentObject db a s with current := some (f ((viewAccount db s a).getD {})) }
      else viewObject db s.objects a' := by
  rw [updateObject_eq]
  dsimp only
  rw [viewObject_set, viewObject_load]

variable (db) in
theorem viewAccount_updateObject (a : Address) (f : Account → Account) (s : IntraBlockState)
    (a' : Address) : viewAccount db (updateObject db a f s) a' =
      if a' = a then some (f ((viewAccount db s a).getD {})) else viewAccount db s a' := by
  rw [viewAccount, viewObject_updateObject]
  split_ifs <;> rfl

/-- The setters leave every slot alone, also those of an account that they create. -/
theorem viewStorage_updateObject {f : Account → Account}
    (hf : ∀ account, (f account).incarnation = account.incarnation) (a : Address)
    (s : IntraBlockState) (a' : Address) (key : Bytes32) (original : Bool) :
    viewStorage db (updateObject db a f s) a' key original = viewStorage db s a' key original := by
  apply viewStorage_congr
  · rw [updateObject_eq]
  · rw [viewObject_updateObject]
    split_ifs with h
    · subst h
      apply bufferedSlot_congr
      · rfl
      · change (f _).incarnation = _
        rw [hf, viewAccount, currentIncarnation]
        cases (viewObject db s.objects a').bind Object.current <;> rfl
    · rfl

theorem touch_eq (a : Address) (s : IntraBlockState) :
    touch a s = { s with touched := HashSet.insert s.touched a, journal := (touch a s).journal } := by
  unfold touch
  dsimp only
  split_ifs <;> rfl

theorem viewAccount_touch (a : Address) (s : IntraBlockState) (a' : Address) :
    viewAccount db (touch a s) a' = viewAccount db s a' := by
  rw [touch_eq]
  rfl

theorem viewStorage_touch (a : Address) (s : IntraBlockState) (a' : Address) (key : Bytes32)
    (original : Bool) : viewStorage db (touch a s) a' key original = viewStorage db s a' key original := by
  rw [touch_eq]
  rfl

end Accounts

section Contracts

variable (db) in
theorem viewObject_createContract (a : Address) (s : IntraBlockState) (a' : Address) :
    viewObject db (createContract db a s).objects a' =
      if a' = a then some (createdObject db a (viewObject db s.objects a))
      else viewObject db s.objects a' := by
  unfold createContract
  rw [getObject_eq]
  dsimp only [record]
  split <;> rw [viewObject_set, viewObject_load]

variable (db) in
theorem viewObject_createContract_self (a : Address) (s : IntraBlockState) :
    viewObject db (createContract db a s).objects a =
      some (createdObject db a (viewObject db s.objects a)) := by
  rw [viewObject_createContract, if_pos rfl]

variable (db) in
theorem findD_createContract (a : Address) (s : IntraBlockState) (a' : Address) :
    (createContract db a s).storage.findD a' {} = if a' = a then {} else s.storage.findD a' {} := by
  unfold createContract
  rw [getObject_eq]
  dsimp only [record]
  split
  next h =>
    split_ifs with ha
    · rw [ha, HashMap.findD, h, Option.getD_none]
    · rfl
  next h => exact findD_remove s.storage a a'

/-- The slots of a new contract have not been written by the transaction. -/
theorem viewStorage_createContract_self (a : Address) (s : IntraBlockState) (key : Bytes32)
    (original : Bool) : viewStorage db (createContract db a s) a key original =
      viewStorage db (createContract db a s) a key true := by
  rw [viewStorage, viewStorage, findD_createContract, if_pos rfl]
  cases original <;> rfl

theorem viewStorage_createContract_ne {a a' : Address} (h : a' ≠ a) (s : IntraBlockState)
    (key : Bytes32) (original : Bool) :
    viewStorage db (createContract db a s) a' key original = viewStorage db s a' key original := by
  apply viewStorage_congr
  · rw [findD_createContract, if_neg h]
  · rw [viewObject_createContract, if_neg h]

variable (db) in
theorem viewObject_destruct (a : Address) (s : IntraBlockState) (a' : Address) :
    viewObject db (destruct db a s).objects a' =
      if a' = a then (viewObject db s.objects a).map fun obj => { obj with current := none }
      else viewObject db s.objects a' := by
  rw [destruct, getObject_eq]
  cases hv : viewObject db s.objects a with
  | none =>
    dsimp only
    rw [viewObject_load]
    split_ifs with ha
    · rw [ha, hv]
      rfl
    · rfl
  | some obj =>
    dsimp only
    rw [viewObject_set, viewObject_load]
    rfl

end Contracts

section Writes

variable (db) in
theorem viewObject_setStorage (a : Address) (key value : Bytes32) (s : IntraBlockState)
    (a' : Address) :
    viewObject db (setStorage db a key value s).objects a' = viewObject db s.objects a' := by
  have hobject := (getStorage_spec db (fun _ => default) a key false s).2.restores.object
  unfold setStorage getCurrentStorage
  dsimp only
  split_ifs
  · exact hobject a'
  · exact hobject a'

theorem viewStorage_setStorage {a : Address} (key value : Bytes32)
    (ha : (viewAccount db s a).isSome) (a' : Address) (key' : Bytes32) (original : Bool) :
    viewStorage db (setStorage db a key value s) a' key' original =
      if a' = a ∧ key' = key ∧ original = false then value
      else viewStorage db s a' key' original := by
  obtain ⟨hval, hcache⟩ := getStorage_spec db (fun _ => default) a key false s
  rw [if_pos ha] at hval
  unfold setStorage getCurrentStorage
  generalize getStorage db a key false s = x at hval hcache
  obtain ⟨prev, t⟩ := x
  dsimp only at hval hcache ⊢
  have hview := hcache.restores.storage
  split_ifs with hp h h
  · obtain ⟨rfl, rfl, rfl⟩ := h
    rw [hview, ← hval, hp]
  · exact hview a' key' original
  · obtain ⟨rfl, rfl, rfl⟩ := h
    rw [viewStorage]
    dsimp only [record]
    rw [HashMap.findD_set, if_pos rfl, slot_setCurrent, if_pos ⟨rfl, rfl⟩]
  · rw [← hview, viewStorage, viewStorage]
    dsimp only [record]
    rw [HashMap.findD_set]
    split_ifs with ha'
    · subst ha'
      rw [slot_setCurrent, if_neg fun hk => h ⟨rfl, hk⟩]
    · rfl

/-- At the end of a transaction nothing is pending. -/
theorem current_finalizeTransaction (s : IntraBlockState) (a : Address) :
    ((finalizeTransaction s).storage.findD a {}).current = ∅ := by
  change ((s.storage.mapValues fun _ st => finalizeStorage st).findD a {}).current = ∅
  rw [HashMap.findD, HashMap.find_mapValues]
  cases s.storage.find a <;> rfl

end Writes

end Silkworm.IntraBlockState
