import Silkworm.AccountViews
import Silkworm.DbBufferUpdates
import Silkworm.MemoryBufferUpdates
import Silkworm.WrittenUpdates

/-!
# Accounts that are written

A buffer returns the accounts that it was given last, as long as it is told what they were before.
So after a block has been written the buffer has the accounts that the state had.
-/

namespace Silkworm
open StateBuffer

/-- The account that is updated is returned from then on, the others are as they were. -/
class LawfulAccounts (B : Type) [StateBuffer B] : Prop where
  readAccount_beginBlock : ∀ n (db : B), readAccount (beginBlock n db) = readAccount db
  readAccount_updateAccount : ∀ {a initial} {db : B}, readAccount db a = initial → ∀ current a',
    readAccount (updateAccount a initial current db) a' =
      if a' = a then current else readAccount db a'
  readAccount_updateAccountCode : ∀ a i codeHash code (db : B),
    readAccount (updateAccountCode a i codeHash code db) = readAccount db
  readAccount_updateStorage : ∀ a i location initial current (db : B),
    readAccount (updateStorage a i location initial current db) = readAccount db

instance : LawfulAccounts MemoryBuffer where
  readAccount_beginBlock _ _ := rfl
  readAccount_updateAccount {a initial db} _ current a' :=
    db.readAccount_updateAccount a a' initial current
  readAccount_updateAccountCode _ _ _ _ _ := rfl
  readAccount_updateStorage _ _ _ _ _ _ := rfl

/-- An account that cannot be decoded counts as none. -/
instance : LawfulAccounts Db.Buffer where
  readAccount_beginBlock _ _ := rfl
  readAccount_updateAccount {a initial db} h current a' := by
    change ((db.updateAccount a initial current).readAccount a').getD none =
      if a' = a then current else (db.readAccount a').getD none
    rw [Db.Buffer.readAccount_eq, db.maps_updateAccount, Db.Buffer.readAccount_eq]
    by_cases heq : current = initial
    · rw [if_pos heq]
      split_ifs with ha
      · rw [ha, heq]
        exact h
      · rfl
    · rw [if_neg heq, HashMap.find_set]
      split_ifs with ha <;> rfl
  readAccount_updateAccountCode a i codeHash code db := by
    funext a'
    exact congrArg (Option.getD · none)
      (congrFun (db.readAccount_updateAccountCode a i codeHash code) a')
  readAccount_updateStorage a i location initial current db := by
    funext a'
    exact congrArg (Option.getD · none)
      (congrFun (db.readAccount_updateStorage a i location initial current) a')

section Updates

variable {B : Type} [StateBuffer B] [LawfulAccounts B] {db : B} {a : Address}

/-- An update of something else. -/
theorem readAccount_issue {u : Update} (hu : ∀ a' i c, u = .account a' i c →
    readAccount db a' = i ∧ a' ≠ a) : readAccount (u.issue db) a = readAccount db a := by
  cases u with
  | account a' initial current =>
    obtain ⟨hinitial, hne⟩ := hu a' initial current rfl
    refine (LawfulAccounts.readAccount_updateAccount hinitial current a).trans ?_
    exact if_neg (Ne.symm hne)
  | code a' i codeHash bytes =>
    exact congrFun (LawfulAccounts.readAccount_updateAccountCode a' i codeHash bytes db) a
  | storage a' i location initial current =>
    exact congrFun (LawfulAccounts.readAccount_updateStorage a' i location initial current db) a

/-- The accounts after updates of different accounts. -/
theorem readAccount_foldl {us : List Update} (hd : us.Pairwise fun u v => ¬u.SameKey v)
    (hi : ∀ a i c, .account a i c ∈ us → readAccount db a = i) :
    (∀ i c, .account a i c ∈ us → readAccount (us.foldl Update.issue db) a = c) ∧
      ((∀ i c, .account a i c ∉ us) →
        readAccount (us.foldl Update.issue db) a = readAccount db a) := by
  induction us generalizing db with
  | nil => exact ⟨nofun, fun _ => rfl⟩
  | cons u us ih =>
    obtain ⟨hu, hd⟩ := List.pairwise_cons.mp hd
    have hother (a' : Address) (hne : ∀ i c, u ≠ .account a' i c) :
        readAccount (u.issue db) a' = readAccount db a' := by
      refine readAccount_issue fun a'' i c hu => ⟨hi a'' i c (hu ▸ List.mem_cons_self), ?_⟩
      rintro rfl
      exact hne i c hu
    have hrest (a' : Address) (i c : Option Account) (hin : .account a' i c ∈ us) :
        ∀ i c, u ≠ .account a' i c := by
      intro i' c' heq
      subst heq
      exact hu _ hin rfl
    have hi' (a' : Address) (i c : Option Account) (hin : .account a' i c ∈ us) :
        readAccount (u.issue db) a' = i :=
      (hother a' (hrest a' i c hin)).trans (hi a' i c (List.mem_cons_of_mem _ hin))
    obtain ⟨hwritten, hkept⟩ := ih hd hi'
    refine ⟨fun i c hin => ?_, fun hnot => ?_⟩
    · rcases List.mem_cons.mp hin with rfl | hin
      · have hnot (i' c' : Option Account) : .account a i' c' ∉ us := fun hin' => hu _ hin' rfl
        refine (hkept hnot).trans ?_
        refine (LawfulAccounts.readAccount_updateAccount (hi a i c List.mem_cons_self) c a).trans ?_
        exact if_pos rfl
      · exact hwritten i c hin
    · have hhead (i c : Option Account) : u ≠ .account a i c := fun heq =>
        hnot i c (heq ▸ List.mem_cons_self)
      exact (hkept fun i c hin => hnot i c (List.mem_cons_of_mem _ hin)).trans (hother a hhead)

end Updates

namespace IntraBlockState

variable {B : Type} [StateBuffer B]

theorem account_mem_updates {s : IntraBlockState} {a : Address} {i c : Option Account} :
    .account a i c ∈ s.updates ↔ s.objects.find a = some ⟨i, c⟩ := by
  rw [← HashMap.mem_toList]
  constructor
  · intro h
    rcases List.mem_append.mp h with h | h
    · obtain ⟨_, _, _, _, _, hu⟩ := s.storageUpdates_eq h
      cases hu
    · obtain ⟨e, he, hu⟩ := List.mem_flatMap.mp h
      rcases List.mem_cons.mp hu with hu | hu
      · cases hu
        exact he
      · obtain ⟨_, _, _, hu⟩ := s.codeUpdates_eq hu
        cases hu
  · intro h
    exact List.mem_append_right _ (List.mem_flatMap.mpr ⟨_, h, List.mem_cons_self⟩)

/-- The accounts of the state are those of the buffer that it is written to. -/
theorem readAccount_writeToDb [LawfulAccounts B] {db : B} {s : IntraBlockState}
    (h : ∀ a, viewInitial db s a = readAccount db a) (n : Uint64) (a : Address) :
    readAccount (s.writeToDb n db).1 a = viewAccount db s a := by
  have hbegin := LawfulAccounts.readAccount_beginBlock n db
  have hinitial (a' : Address) (i c : Option Account) (hin : .account a' i c ∈ s.updates) :
      readAccount (beginBlock n db) a' = i := by
    have hview := h a'
    rw [viewInitial, viewObject, account_mem_updates.mp hin] at hview
    rw [hbegin]
    exact hview.symm
  obtain ⟨hwritten, hkept⟩ := readAccount_foldl (a := a) s.pairwise_updates hinitial
  rw [s.writeToDb_fst]
  cases ho : s.objects.find a with
  | some obj =>
    refine (hwritten obj.initial obj.current (account_mem_updates.mpr ho)).trans ?_
    rw [viewAccount, viewObject, ho]
    rfl
  | none =>
    refine (hkept fun i c hin => ?_).trans ?_
    · rw [account_mem_updates, ho] at hin
      cases hin
    · rw [hbegin, viewAccount, viewObject, ho]
      dsimp only
      cases readAccount db a <;> rfl

end IntraBlockState
end Silkworm
