import Silkworm.IntraBlockState
import Silkworm.UndoLogs

/-!
# What can be observed of the state

The maps of the state are caches over the buffer. The views below say what the getters
return without the caching, and a state restores another one when its views agree. Code is
the exception: it stays cached when the account that brought it is reverted.
-/

namespace Silkworm.IntraBlockState
open StateBuffer UndoLogs

section Views

variable {B : Type} [StateBuffer B] (db : B)

def viewObject (objects : HashMap Address Object) (a : Address) : Option Object :=
  match objects.find a with
  | some obj => some obj
  | none => (readAccount db a).map fun account => ⟨some account, some account⟩

def viewAccount (s : IntraBlockState) (a : Address) : Option Account :=
  (viewObject db s.objects a).bind Object.current

/-- The incarnation under which storage is looked up; 0 for an account that does not exist,
since it would be created with it. -/
def currentIncarnation (obj : Option Object) : Uint64 :=
  ((obj.bind Object.current).map Account.incarnation).getD 0

/-- The value of a slot that no transaction of the block has read or written. -/
def bufferedSlot (obj : Option Object) (a : Address) (key : Bytes32) : Bytes32 :=
  if (obj.bind Object.initial).map Account.incarnation = some (currentIncarnation obj) then
    readStorage db a (currentIncarnation obj) key
  else default

def slot (st : Storage) (buffered : Bytes32) (key : Bytes32) (original : Bool) : Bytes32 :=
  match (if original then none else st.current.find key) with
  | some value => value
  | none => match st.committed.find key with
    | some value => value.original
    | none => buffered

def viewStorage (s : IntraBlockState) (a : Address) (key : Bytes32) (original : Bool) : Bytes32 :=
  slot (s.storage.findD a {}) (bufferedSlot db (viewObject db s.objects a) a key) key original

def viewCode (s : IntraBlockState) (codeHash : Bytes32) : Bytes :=
  s.code.findD codeHash (readCode db codeHash)

def hasAccessed (keys : HashMap Address (HashSet Bytes32)) (a : Address) (key : Bytes32) : Bool :=
  HashSet.contains (keys.findD a ∅) key

variable (keccak : Bytes → Bytes32)

/-- The state `y` is as good as `s`. Cached code is kept, and code in the cache of `y` that
is not in that of `s` is either what the buffer has or was set under its own hash. -/
structure Restores (s y : IntraBlockState) : Prop where
  object : ∀ a, viewObject db y.objects a = viewObject db s.objects a
  storage : ∀ a key original, viewStorage db y a key original = viewStorage db s a key original
  code : ∀ h c, s.code.find h = some c → y.code.find h = some c
  newCode : ∀ h c, y.code.find h = some c →
    s.code.find h = some c ∨ c = readCode db h ∨ keccak c = h
  selfDestructs : ∀ a, HashSet.contains y.selfDestructs a = HashSet.contains s.selfDestructs a
  touched : ∀ a, a ≠ kRipemdAddress → HashSet.contains y.touched a = HashSet.contains s.touched a
  ripemd : HashSet.contains s.touched kRipemdAddress → HashSet.contains y.touched kRipemdAddress
  accessedAddresses : ∀ a,
    HashSet.contains y.accessedAddresses a = HashSet.contains s.accessedAddresses a
  accessedStorageKeys : ∀ a key,
    hasAccessed y.accessedStorageKeys a key = hasAccessed s.accessedStorageKeys a key

variable {db keccak}

theorem Restores.refl (s : IntraBlockState) : Restores db keccak s s where
  object _ := rfl
  storage _ _ _ := rfl
  code _ _ h := h
  newCode _ _ h := .inl h
  selfDestructs _ := rfl
  touched _ _ := rfl
  ripemd h := h
  accessedAddresses _ := rfl
  accessedStorageKeys _ _ := rfl

theorem Restores.trans {s t u : IntraBlockState} (h : Restores db keccak s t)
    (h' : Restores db keccak t u) : Restores db keccak s u where
  object a := (h'.object a).trans (h.object a)
  storage a key original := (h'.storage a key original).trans (h.storage a key original)
  code k c hc := h'.code k c (h.code k c hc)
  newCode k c hc := by
    rcases h'.newCode k c hc with hc | hc
    · exact h.newCode k c hc
    · exact .inr hc
  selfDestructs a := (h'.selfDestructs a).trans (h.selfDestructs a)
  touched a ha := (h'.touched a ha).trans (h.touched a ha)
  ripemd hr := h'.ripemd (h.ripemd hr)
  accessedAddresses a := (h'.accessedAddresses a).trans (h.accessedAddresses a)
  accessedStorageKeys a key := (h'.accessedStorageKeys a key).trans (h.accessedStorageKeys a key)

variable (db keccak) in
/-- The journal of the state as an undo log. Touching the ripemd address is never undone. -/
def undoLog : UndoLog IntraBlockState Delta where
  journal := journal
  undo := undo
  Allowed d := d ≠ .touch kRipemdAddress
  Restores := Restores db keccak
  refl := Restores.refl
  trans := Restores.trans

theorem viewObject_of_find {m : HashMap Address Object} {a : Address} {obj : Object}
    (h : m.find a = some obj) : viewObject db m a = some obj := by
  rw [viewObject, h]

/-- The view of an object depends on the map at its address only. -/
theorem viewObject_congr {m m' : HashMap Address Object} {a : Address} (h : m'.find a = m.find a) :
    viewObject db m' a = viewObject db m a := by
  rw [viewObject, viewObject, h]

theorem viewObject_set (m : HashMap Address Object) (a a' : Address) (obj : Object) :
    viewObject db (m.set a obj) a' = if a' = a then some obj else viewObject db m a' := by
  simp only [viewObject, HashMap.find_set]
  split_ifs <;> rfl

theorem readAccount_of_viewObject_eq_none {m : HashMap Address Object} {a : Address}
    (h : viewObject db m a = none) : readAccount db a = none := by
  unfold viewObject at h
  split at h
  · simp at h
  · simpa using h

theorem viewObject_remove {m m' : HashMap Address Object} {a : Address}
    (h : viewObject db m' a = none) (a' : Address) :
    viewObject db (m.remove a) a' = if a' = a then none else viewObject db m a' := by
  simp only [viewObject, HashMap.find_remove]
  split_ifs with ha
  · rw [ha, readAccount_of_viewObject_eq_none h]
    rfl
  · rfl

theorem bufferedSlot_congr {o o' : Option Object} (hi : o.bind Object.initial = o'.bind Object.initial)
    (hc : currentIncarnation o = currentIncarnation o') (a : Address) (key : Bytes32) :
    bufferedSlot db o a key = bufferedSlot db o' a key := by
  rw [bufferedSlot, bufferedSlot, hi, hc]

/-- The view of a slot depends on the storage map at its address and on the buffered value
under the object. -/
theorem viewStorage_congr {s t : IntraBlockState} {a : Address}
    (hs : t.storage.findD a {} = s.storage.findD a {}) {key : Bytes32}
    (ho : bufferedSlot db (viewObject db t.objects a) a key =
      bufferedSlot db (viewObject db s.objects a) a key) (original : Bool) :
    viewStorage db t a key original = viewStorage db s a key original := by
  rw [viewStorage, viewStorage, hs, ho]

end Views

end Silkworm.IntraBlockState
