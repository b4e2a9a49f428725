import Silkworm.IntraBlockState
import Silkworm.MemoryBuffer

/-!
# Updates of the buffer in memory

What the readers return after an update, and after a state has been written.
-/

namespace Silkworm

namespace StorageMap

theorem locations_setLocations (m : StorageMap) (a a' : Address) (i i' : Uint64)
    (l : HashMap Bytes32 Bytes32) :
    (m.setLocations a i l).locations a' i' =
      if a' = a ∧ i' = i then l else m.locations a' i' := by
  unfold locations setLocations
  simp only [HashMap.findD, HashMap.find_set]
  by_cases ha : a' = a
  · by_cases hi : i' = i <;> simp [ha, hi, HashMap.find_set]
  · simp [ha]

def read (m : StorageMap) (k : Address × Uint64 × Bytes32) : Bytes32 :=
  (m.find k.1 k.2.1 k.2.2).getD default

theorem read_put (m : StorageMap) (a : Address) (i : Uint64) (location value : Bytes32)
    (k : Address × Uint64 × Bytes32) :
    (m.put a i location value).read k = if k = (a, i, location) then value else m.read k := by
  obtain ⟨a', i', location'⟩ := k
  unfold read find put
  dsimp only
  by_cases hk : a' = a ∧ i' = i
  · obtain ⟨rfl, rfl⟩ := hk
    split_ifs with hz hl hl
    · cases hl
      rw [locations_setLocations, if_pos ⟨rfl, rfl⟩, HashMap.find_remove_self]
      exact (of_decide_eq_true hz).symm
    · rw [locations_setLocations, if_pos ⟨rfl, rfl⟩,
        HashMap.find_remove_ne fun h => hl (by rw [h])]
    · cases hl
      rw [set, locations_setLocations, if_pos ⟨rfl, rfl⟩, HashMap.find_set_self]
      rfl
    · rw [set, locations_setLocations, if_pos ⟨rfl, rfl⟩,
        HashMap.find_set_ne fun h => hl (by rw [h])]
  · have hne : ¬(a', i', location') = (a, i, location) := fun h => hk (by simp_all)
    rw [if_neg hne]
    split_ifs
    · rw [locations_setLocations, if_neg hk]
    · rw [set, locations_setLocations, if_neg hk]

end StorageMap

namespace MemoryBuffer
open StateBuffer

variable (b : MemoryBuffer)

theorem readStorage_eq (a : Address) (i : Uint64) (location : Bytes32) :
    b.readStorage a i location = b.storage.read (a, i, location) := rfl

theorem readAccount_updateAccount (a a' : Address) (initial current : Option Account) :
    (b.updateAccount a initial current).readAccount a' =
      if a' = a then current else b.readAccount a' := by
  unfold updateAccount readAccount
  cases current with
  | some account => exact HashMap.find_set ..
  | none => cases initial <;> exact HashMap.find_remove ..

theorem readStorage_updateAccount (a : Address) (initial current : Option Account) :
    (b.updateAccount a initial current).readStorage = b.readStorage := by
  unfold updateAccount
  cases current with
  | some account => rfl
  | none => cases initial <;> rfl

theorem readCode_updateAccount (a : Address) (initial current : Option Account) :
    (b.updateAccount a initial current).readCode = b.readCode := by
  unfold updateAccount
  cases current with
  | some account => rfl
  | none => cases initial <;> rfl

theorem readCode_updateAccountCode (a : Address) (i : Uint64) (codeHash : Bytes32) (code : Bytes)
    (codeHash' : Bytes32) :
    (b.updateAccountCode a i codeHash code).readCode codeHash' =
      if codeHash' = codeHash then code else b.readCode codeHash' := by
  unfold updateAccountCode readCode
  dsimp only
  rw [HashMap.findD, HashMap.findD, HashMap.find_set]
  split_ifs <;> rfl

theorem previousIncarnation_updateAccount (a a' : Address) (initial current : Option Account) :
    (b.updateAccount a initial current).previousIncarnation a' =
      if a' = a ∧ current = none then (initial.map Account.incarnation).getD (b.previousIncarnation a)
      else b.previousIncarnation a' := by
  unfold updateAccount previousIncarnation
  cases current with
  | some account => simp
  | none =>
    cases initial with
    | some account =>
      simp only [HashMap.findD, HashMap.find_set, and_true]
      split_ifs <;> rfl
    | none =>
      by_cases ha : a' = a
      · simp [ha]
      · simp [ha]

theorem readStorage_updateStorage (a a' : Address) (i i' : Uint64)
    (location initial current location' : Bytes32) :
    (b.updateStorage a i location initial current).readStorage a' i' location' =
      if (a', i', location') = (a, i, location) then current else b.readStorage a' i' location' :=
  StorageMap.read_put b.storage a i location current (a', i', location')

section WriteToDb

open IntraBlockState

variable {b}

theorem readAccount_writeObject (a a' : Address) (obj : Object) (x : MemoryBuffer × IntraBlockState) :
    (writeObject a obj x).1.readAccount a' =
      if a' = a then obj.current else x.1.readAccount a' := by
  rw [← readAccount_updateAccount x.1 a a' obj.initial obj.current]
  unfold writeObject
  cases obj.current with
  | none => rfl
  | some account =>
    dsimp only
    split_ifs <;> rfl

theorem previousIncarnation_writeObject (a a' : Address) (obj : Object)
    (x : MemoryBuffer × IntraBlockState) :
    (writeObject a obj x).1.previousIncarnation a' =
      if a' = a ∧ obj.current = none then
        (obj.initial.map Account.incarnation).getD (x.1.previousIncarnation a)
      else x.1.previousIncarnation a' := by
  rw [← previousIncarnation_updateAccount x.1 a a' obj.initial obj.current]
  unfold writeObject
  cases obj.current with
  | none => rfl
  | some account =>
    dsimp only
    split_ifs <;> rfl

theorem readStorage_writeObject (a : Address) (obj : Object) (x : MemoryBuffer × IntraBlockState) :
    (writeObject a obj x).1.readStorage = x.1.readStorage := by
  rw [← readStorage_updateAccount x.1 a obj.initial obj.current]
  unfold writeObject
  cases obj.current with
  | none => rfl
  | some account =>
    dsimp only
    split_ifs <;> rfl

/-- The storage loop changes neither the accounts nor the previous incarnations. -/
theorem storages_foldl_accounts (s : IntraBlockState) (l : List (Address × Storage))
    (b : MemoryBuffer) :
    let b' := l.foldl (fun db e => writeStorage s e.1 e.2 db) b
    b'.readAccount = b.readAccount ∧ b'.previousIncarnation = b.previousIncarnation := by
  have hslots (a : Address) (i : Uint64) (l : List (Bytes32 × CommittedValue)) :
      ∀ b : MemoryBuffer,
        let b' := l.foldl (fun db e => StateBuffer.updateStorage a i e.1 e.2.initial e.2.original db) b
        b'.readAccount = b.readAccount ∧ b'.previousIncarnation = b.previousIncarnation := by
    induction l with
    | nil => exact fun b => ⟨rfl, rfl⟩
    | cons e l ih => exact fun b => ih (b.updateStorage a i e.1 e.2.initial e.2.original)
  induction l generalizing b with
  | nil => exact ⟨rfl, rfl⟩
  | cons e l ih =>
    obtain ⟨hr, hp⟩ := ih (writeStorage s e.1 e.2 b)
    have hw : (writeStorage s e.1 e.2 b).readAccount = b.readAccount ∧
        (writeStorage s e.1 e.2 b).previousIncarnation = b.previousIncarnation := by
      unfold writeStorage
      cases (s.objects.find e.1).bind Object.current with
      | none => exact ⟨rfl, rfl⟩
      | some account => exact hslots e.1 account.incarnation _ b
    exact ⟨hr.trans hw.1, hp.trans hw.2⟩

/-- The slots of an account after its storage has been written. -/
def writtenSlots (s : IntraBlockState) (a : Address) (st : Storage)
    (slots : Uint64 → Bytes32 → Bytes32) (i : Uint64) (location : Bytes32) : Bytes32 :=
  match (s.objects.find a).bind Object.current with
  | none => slots i location
  | some account =>
    if i = account.incarnation then
      match st.committed.find location with
      | some value => value.original
      | none => slots i location
    else slots i location

theorem readStorage_writeStorage (s : IntraBlockState) (a a' : Address) (st : Storage)
    (b : MemoryBuffer) :
    (writeStorage s a st b).readStorage a' =
      if a' = a then writtenSlots s a st (b.readStorage a) else b.readStorage a' := by
  unfold writeStorage writtenSlots
  cases (s.objects.find a).bind Object.current with
  | none =>
    split_ifs with ha
    · rw [ha]
    · rfl
  | some account =>
    have hread (a' : Address) (i : Uint64) (location : Bytes32) := HashMap.read_foldl_toList
      (f := fun (b : MemoryBuffer) (e : Bytes32 × CommittedValue) =>
        b.updateStorage a account.incarnation e.1 e.2.initial e.2.original)
      (fun b location => b.readStorage a' i location)
      (fun _ v r => if (a', i) = (a, account.incarnation) then v.original else r)
      (fun b location v location' => by
        rw [readStorage_updateStorage]
        by_cases hk : (a', i) = (a, account.incarnation)
        · cases hk
          simp
        · have hne : ¬(a', i, location') = (a, account.incarnation, location) := by
            rintro ⟨⟩
            exact hk rfl
          rw [if_neg hne, if_neg hk]
          split_ifs with hl
          · rw [hl]
          · rfl) st.committed b location
    funext i location
    refine (hread a' i location).trans ?_
    by_cases ha : a' = a
    · subst ha
      rw [if_pos rfl]
      by_cases hi : i = account.incarnation
      · subst hi
        cases st.committed.find location <;> simp
      · cases st.committed.find location <;> simp [hi]
    · rw [if_neg ha]
      cases st.committed.find location <;> simp [ha]

theorem readAccount_writeToDb (n : Uint64) (b : MemoryBuffer) (s : IntraBlockState) (a : Address) :
    (writeToDb n b s).1.readAccount a = match s.objects.find a with
      | some obj => obj.current
      | none => b.readAccount a := by
  have hloop := HashMap.read_foldl_toList (f := fun x e => writeObject e.1 e.2 x)
    (fun (x : MemoryBuffer × IntraBlockState) a => x.1.readAccount a) (fun _ obj _ => obj.current)
    (fun x a obj a' => readAccount_writeObject a a' obj x) s.objects
    (s.storage.toList.foldl (fun db e => writeStorage s e.1 e.2 db) (beginBlock n b), s) a
  rw [(storages_foldl_accounts s s.storage.toList (beginBlock n b)).1] at hloop
  refine Eq.trans hloop ?_
  cases s.objects.find a <;> rfl

theorem previousIncarnation_writeToDb (n : Uint64) (b : MemoryBuffer) (s : IntraBlockState)
    (a : Address) :
    (writeToDb n b s).1.previousIncarnation a = match s.objects.find a with
      | some obj => if obj.current = none then
          (obj.initial.map Account.incarnation).getD (b.previousIncarnation a)
        else b.previousIncarnation a
      | none => b.previousIncarnation a := by
  have hloop := HashMap.read_foldl_toList (f := fun x e => writeObject e.1 e.2 x)
    (fun (x : MemoryBuffer × IntraBlockState) a => x.1.previousIncarnation a)
    (fun _ obj p => if obj.current = none then (obj.initial.map Account.incarnation).getD p else p)
    (fun x a obj a' => by
      rw [previousIncarnation_writeObject]
      by_cases ha : a' = a
      · simp [ha]
      · simp [ha]) s.objects
    (s.storage.toList.foldl (fun db e => writeStorage s e.1 e.2 db) (beginBlock n b), s) a
  rw [(storages_foldl_accounts s s.storage.toList (beginBlock n b)).2] at hloop
  refine Eq.trans hloop ?_
  cases s.objects.find a <;> rfl

theorem readStorage_writeToDb (n : Uint64) (b : MemoryBuffer) (s : IntraBlockState) (a : Address) :
    (writeToDb n b s).1.readStorage a = match s.storage.find a with
      | some st => writtenSlots s a st (b.readStorage a)
      | none => b.readStorage a := by
  have hobjects (l : List (Address × Object)) : ∀ x : MemoryBuffer × IntraBlockState,
      (l.foldl (fun x e => writeObject e.1 e.2 x) x).1.readStorage = x.1.readStorage := by
    induction l with
    | nil => exact fun _ => rfl
    | cons e l ih => exact fun x => (ih _).trans (readStorage_writeObject e.1 e.2 x)
  have hloop := HashMap.read_foldl_toList (f := fun b e => writeStorage s e.1 e.2 b)
    MemoryBuffer.readStorage (writtenSlots s) (fun b a st a' => readStorage_writeStorage s a a' st b)
    s.storage (beginBlock n b) a
  refine (congrFun (hobjects _ _) a).trans (Eq.trans hloop ?_)
  cases s.storage.find a <;> rfl

end WriteToDb

end MemoryBuffer
end Silkworm
