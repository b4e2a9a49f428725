import Silkworm.StateChanges

/-!
# The updates that a block writes

The state within a block is written to a buffer as a list of updates, which is the same for
every buffer. No account and no slot is updated twice, so that an update reports the present
value if it reports the value at the beginning of the block.
-/

namespace Silkworm

section Issue

variable {B : Type} [StateBuffer B]

def Update.issue (b : B) : Update → B
  | .account a initial current => StateBuffer.updateAccount a initial current b
  | .code a incarnation codeHash bytes =>
    StateBuffer.updateAccountCode a incarnation codeHash bytes b
  | .storage a incarnation location initial current =>
    StateBuffer.updateStorage a incarnation location initial current b

theorem Update.issue_memoryBuffer : (issue : MemoryBuffer → Update → MemoryBuffer) = apply := by
  funext b u
  cases u <;> rfl

end Issue

namespace Update
open MemoryBuffer

/-- Updates of one account or of one slot. -/
def SameKey : Update → Update → Prop
  | .account a _ _, .account a' _ _ => a = a'
  | .storage a i location _ _, .storage a' i' location' _ _ =>
    a = a' ∧ i = i' ∧ location = location'
  | _, _ => False

theorem SameKey.symm {u v : Update} (h : u.SameKey v) : v.SameKey u := by
  cases u <;> cases v <;> simp only [SameKey] at h ⊢
  · exact h.symm
  · exact ⟨h.1.symm, h.2.1.symm, h.2.2.symm⟩

/-- Every update reports the value that is there when it is made. -/
def Current : World → List Update → Prop
  | _, [] => True
  | w, u :: us => u.Reports w ∧ Current (u.onWorld w) us

theorem Reports.onWorld {u v : Update} {w : World} (hv : v.Reports w) (hne : ¬u.SameKey v) :
    v.Reports (u.onWorld w) := by
  cases u with
  | account a initial current =>
    cases v with
    | account a' initial' current' =>
      rw [Update.onWorld, Reports]
      dsimp only
      rw [if_neg fun h => hne h.symm]
      exact hv
    | code a' i codeHash bytes => trivial
    | storage a' i location initial' current' => exact hv
  | code a i codeHash bytes => exact hv
  | storage a i location initial current =>
    cases v with
    | account a' initial' current' => exact hv
    | code a' i codeHash bytes => trivial
    | storage a' i' location' initial' current' =>
      have hk : ¬(a', i', location') = (a, i, location) := by
        rintro ⟨⟩
        exact hne ⟨rfl, rfl, rfl⟩
      rw [Update.onWorld, Reports]
      dsimp only
      rw [if_neg hk]
      exact hv

theorem current_of_reports {us : List Update} {w : World} (hr : ∀ u ∈ us, u.Reports w)
    (hd : us.Pairwise fun u v => ¬u.SameKey v) : Current w us := by
  induction us generalizing w with
  | nil => trivial
  | cons u us ih =>
    obtain ⟨hu, hd⟩ := List.pairwise_cons.mp hd
    refine ⟨hr u List.mem_cons_self, ih (fun v hv => ?_) hd⟩
    exact (hr v (List.mem_cons_of_mem _ hv)).onWorld (hu v hv)

end Update

namespace IntraBlockState

variable (s : IntraBlockState)

def storageUpdates : List Update :=
  s.storage.toList.flatMap fun e =>
    match (s.objects.find e.1).bind Object.current with
    | none => []
    | some account => e.2.committed.toList.map fun x =>
      .storage e.1 account.incarnation x.1 x.2.initial x.2.original

/-- The code of an account whose incarnation has changed. -/
def codeUpdates (a : Address) (obj : Object) : List Update :=
  match obj.current with
  | none => []
  | some account =>
    if account.codeHash ≠ kEmptyHash ∧
        obj.initial.map Account.incarnation ≠ some account.incarnation then
      [.code a account.incarnation account.codeHash (s.code.findD account.codeHash [])]
    else []

def objectUpdates : List Update :=
  s.objects.toList.flatMap fun e => .account e.1 e.2.initial e.2.current :: s.codeUpdates e.1 e.2

def updates : List Update := s.storageUpdates ++ s.objectUpdates

section Writing

variable {B : Type} [StateBuffer B]

private theorem foldl_storageUpdates (db : B) :
    s.storage.toList.foldl (fun db e => s.writeStorage e.1 e.2 db) db =
      s.storageUpdates.foldl Update.issue db := by
  rw [storageUpdates, List.foldl_flatMap]
  congr 1
  funext db e
  rw [writeStorage]
  cases (s.objects.find e.1).bind Object.current with
  | none => rfl
  | some account =>
    dsimp only
    rw [List.foldl_map]
    rfl

private theorem findD_tryEmplace (m : HashMap Bytes32 Bytes) (k k' : Bytes32) :
    (m.tryEmplace k []).findD k' [] = m.findD k' [] := by
  rw [HashMap.tryEmplace]
  split_ifs with h
  · rfl
  · rw [HashMap.findD, HashMap.findD, HashMap.find_set]
    split_ifs with hk
    · rw [hk, Option.not_isSome_iff_eq_none.mp h]
      rfl
    · rfl

private theorem writeObject_eq {x : B × IntraBlockState}
    (hx : ∀ h, x.2.code.findD h [] = s.code.findD h []) (a : Address) (obj : Object) :
    (writeObject a obj x).1 =
        (Update.account a obj.initial obj.current :: s.codeUpdates a obj).foldl Update.issue x.1 ∧
      ∀ h, (writeObject a obj x).2.code.findD h [] = s.code.findD h [] := by
  rw [writeObject, codeUpdates]
  cases obj.current with
  | none => exact ⟨rfl, hx⟩
  | some account =>
    dsimp only
    split_ifs with hc
    · refine ⟨?_, fun h => (findD_tryEmplace x.2.code account.codeHash h).trans (hx h)⟩
      dsimp only
      rw [findD_tryEmplace, hx]
      rfl
    · exact ⟨rfl, hx⟩

/-- The updates are made one after the other. -/
theorem writeToDb_fst (n : Uint64) (db : B) :
    (s.writeToDb n db).1 = s.updates.foldl Update.issue (StateBuffer.beginBlock n db) := by
  have hobjects : ∀ (l : List (Address × Object)) (x : B × IntraBlockState),
      (∀ h, x.2.code.findD h [] = s.code.findD h []) →
      (l.foldl (fun x e => writeObject e.1 e.2 x) x).1 =
        (l.flatMap fun e => Update.account e.1 e.2.initial e.2.current ::
          s.codeUpdates e.1 e.2).foldl Update.issue x.1 := by
    intro l
    induction l with
    | nil => exact fun _ _ => rfl
    | cons e l ih =>
      intro x hx
      obtain ⟨hfst, hcode⟩ := s.writeObject_eq hx e.1 e.2
      rw [List.foldl_cons, ih _ hcode, hfst, List.flatMap_cons, List.foldl_append]
  rw [writeToDb, hobjects _ _ fun _ => rfl, foldl_storageUpdates, updates, List.foldl_append]
  rfl

end Writing

section Keys

private theorem pairwise_storageUpdates :
    s.storageUpdates.Pairwise fun u v => ¬u.SameKey v := by
  refine List.pairwise_flatMap.mpr ⟨fun e _ => ?_, ?_⟩
  · cases (s.objects.find e.1).bind Object.current with
    | none => exact List.Pairwise.nil
    | some account =>
      refine List.pairwise_map.mpr ?_
      refine (List.pairwise_map.mp e.2.committed.keys_toList_nodup).imp fun {x y} hne h => ?_
      exact hne h.2.2
  · refine (List.pairwise_map.mp s.storage.keys_toList_nodup).imp fun {x y} hne u hu v hv h => ?_
    cases hx : (s.objects.find x.1).bind Object.current with
    | none =>
      rw [hx] at hu
      cases hu
    | some account =>
      cases hy : (s.objects.find y.1).bind Object.current with
      | none =>
        rw [hy] at hv
        cases hv
      | some account' =>
        rw [hx] at hu
        rw [hy] at hv
        obtain ⟨z, -, rfl⟩ := List.mem_map.mp hu
        obtain ⟨z', -, rfl⟩ := List.mem_map.mp hv
        exact hne h.1

theorem storageUpdates_eq {u : Update} (h : u ∈ s.storageUpdates) :
    ∃ a i location initial current, u = .storage a i location initial current := by
  obtain ⟨e, -, hu⟩ := List.mem_flatMap.mp h
  cases hc : (s.objects.find e.1).bind Object.current with
  | none =>
    rw [hc] at hu
    cases hu
  | some account =>
    rw [hc] at hu
    obtain ⟨x, -, rfl⟩ := List.mem_map.mp hu
    exact ⟨_, _, _, _, _, rfl⟩

theorem codeUpdates_eq {a : Address} {obj : Object} {u : Update}
    (h : u ∈ s.codeUpdates a obj) : ∃ i codeHash bytes, u = .code a i codeHash bytes := by
  rw [codeUpdates] at h
  cases hc : obj.current with
  | none =>
    rw [hc] at h
    cases h
  | some account =>
    rw [hc] at h
    dsimp only at h
    split_ifs at h
    · cases List.mem_singleton.mp h
      exact ⟨_, _, _, rfl⟩
    · cases h

/-- A code is written together with an account that has a new incarnation. -/
theorem account_mem_of_code_mem {a : Address} {i : Uint64} {codeHash : Bytes32} {bytes : Bytes}
    (h : .code a i codeHash bytes ∈ s.updates) :
    ∃ initial account, .account a initial (some account) ∈ s.updates ∧ account.incarnation = i ∧
      initial.map Account.incarnation ≠ some i := by
  rcases List.mem_append.mp h with h | h
  · obtain ⟨_, _, _, _, _, hu⟩ := s.storageUpdates_eq h
    cases hu
  · obtain ⟨⟨a', obj⟩, he, hu⟩ := List.mem_flatMap.mp h
    have haccount : .account a' obj.initial obj.current ∈ s.updates :=
      List.mem_append_right _ (List.mem_flatMap.mpr ⟨_, he, List.mem_cons_self⟩)
    rcases List.mem_cons.mp hu with hu | hu
    · cases hu
    · rw [codeUpdates] at hu
      dsimp only at hu
      cases hc : obj.current with
      | none =>
        rw [hc] at hu
        cases hu
      | some account =>
        rw [hc] at hu haccount
        dsimp only at hu
        split_ifs at hu with hnew
        · cases List.mem_singleton.mp hu
          exact ⟨obj.initial, account, haccount, rfl, hnew.2⟩
        · cases hu

private theorem not_sameKey_code (u : Update) (a : Address) (i : Uint64) (codeHash : Bytes32)
    (bytes : Bytes) : ¬u.SameKey (.code a i codeHash bytes) := by
  cases u <;> exact id

private theorem not_code_sameKey (u : Update) (a : Address) (i : Uint64) (codeHash : Bytes32)
    (bytes : Bytes) : ¬(Update.code a i codeHash bytes).SameKey u := by
  cases u <;> exact id

private theorem pairwise_objectUpdates :
    s.objectUpdates.Pairwise fun u v => ¬u.SameKey v := by
  refine List.pairwise_flatMap.mpr ⟨fun e _ => ?_, ?_⟩
  · refine List.pairwise_cons.mpr ⟨fun v hv => ?_, ?_⟩
    · obtain ⟨i, codeHash, bytes, rfl⟩ := s.codeUpdates_eq hv
      exact not_sameKey_code _ _ _ _ _
    · refine List.pairwise_of_forall_mem_list fun u hu v hv => ?_
      obtain ⟨i, codeHash, bytes, rfl⟩ := s.codeUpdates_eq hu
      exact not_code_sameKey _ _ _ _ _
  · refine (List.pairwise_map.mp s.objects.keys_toList_nodup).imp fun {x y} hne u hu v hv h => ?_
    rcases List.mem_cons.mp hu with rfl | hu
    · rcases List.mem_cons.mp hv with rfl | hv
      · exact hne h
      · obtain ⟨i, codeHash, bytes, rfl⟩ := s.codeUpdates_eq hv
        exact not_sameKey_code _ _ _ _ _ h
    · obtain ⟨i, codeHash, bytes, rfl⟩ := s.codeUpdates_eq hu
      exact not_code_sameKey _ _ _ _ _ h

/-- No account and no slot is updated twice. -/
theorem pairwise_updates : s.updates.Pairwise fun u v => ¬u.SameKey v := by
  refine List.pairwise_append.mpr ⟨s.pairwise_storageUpdates, s.pairwise_objectUpdates, ?_⟩
  intro u hu v hv h
  obtain ⟨a, i, location, initial, current, rfl⟩ := s.storageUpdates_eq hu
  obtain ⟨e', -, hv⟩ := List.mem_flatMap.mp hv
  rcases List.mem_cons.mp hv with rfl | hv
  · exact h
  · obtain ⟨i, codeHash, bytes, rfl⟩ := s.codeUpdates_eq hv
    exact h

theorem current_updates {w : MemoryBuffer.World} (h : ∀ u ∈ s.updates, u.Reports w) :
    Update.Current w s.updates := Update.current_of_reports h s.pairwise_updates

end Keys

end IntraBlockState
end Silkworm
