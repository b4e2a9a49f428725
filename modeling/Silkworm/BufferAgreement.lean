import Silkworm.DbBufferUpdates
import Silkworm.WrittenUpdates

/-!
# The two buffers agree

The same calls are made to an empty buffer in memory and to an empty buffer without a
transaction. They are told apart by the incarnation of a deleted account alone, which one of
them records only if it is not zero.
-/

namespace Silkworm.Db
open MemoryBuffer

section Calls

inductive Call where
  | beginBlock (n : Uint64)
  | update (u : Update)

def Call.make {B : Type} [StateBuffer B] (b : B) : Call → B
  | .beginBlock n => StateBuffer.beginBlock n b
  | .update u => u.issue b

/-- The calls that `write_to_db` makes for one block after the other. -/
def calls (blocks : List (Uint64 × IntraBlockState)) : List Call :=
  blocks.flatMap fun e => .beginBlock e.1 :: e.2.updates.map .update

/-- The initial values are those that the buffer holds at the start of the block. -/
def ReportsHeld : MemoryBuffer → List (Uint64 × IntraBlockState) → Prop
  | _, [] => True
  | m, e :: blocks =>
    (∀ u ∈ e.2.updates, u.Reports m.world) ∧ ReportsHeld (e.2.writeToDb e.1 m).1 blocks

/-- Every update reports the value that is there when it is made. -/
def CurrentCalls : World → List Call → Prop
  | _, [] => True
  | w, .beginBlock _ :: cs => CurrentCalls w cs
  | w, .update u :: cs => u.Reports w ∧ CurrentCalls (u.onWorld w) cs

theorem currentCalls_append_updates {w : World} {us : List Update} {cs : List Call}
    (hu : Update.Current w us) (hc : CurrentCalls (us.foldl Update.onWorld w) cs) :
    CurrentCalls w (us.map .update ++ cs) := by
  induction us generalizing w with
  | nil => exact hc
  | cons u us ih => exact ⟨hu.1, ih hu.2 hc⟩

theorem world_writeToDb (s : IntraBlockState) (n : Uint64) (m : MemoryBuffer) :
    (s.writeToDb n m).1.world = s.updates.foldl Update.onWorld m.world := by
  rw [s.writeToDb_fst, Update.issue_memoryBuffer]
  exact Blockchain.world_foldl s.updates (m.beginBlock n)

theorem ReportsHeld.currentCalls {blocks : List (Uint64 × IntraBlockState)} {m : MemoryBuffer}
    (h : ReportsHeld m blocks) : CurrentCalls m.world (calls blocks) := by
  induction blocks generalizing m with
  | nil => trivial
  | cons e blocks ih =>
    refine currentCalls_append_updates (e.2.current_updates h.1) ?_
    rw [← world_writeToDb e.2 e.1 m]
    exact ih h.2

theorem world_make (m : MemoryBuffer) (c : Call) :
    (c.make m).world = match c with
      | .beginBlock _ => m.world
      | .update u => u.onWorld m.world := by
  cases c with
  | beginBlock n => rfl
  | update u =>
    rw [Call.make, Update.issue_memoryBuffer]
    exact u.world_apply m

theorem currentCalls_of_append {cs : List Call} {w : World} (rest : List Call)
    (h : CurrentCalls w (cs ++ rest)) : CurrentCalls w cs := by
  induction cs generalizing w with
  | nil => trivial
  | cons c cs ih =>
    cases c with
    | beginBlock n => exact ih (w := w) h
    | update u => exact ⟨h.1, ih h.2⟩

end Calls

section Agreement

/-- What the readers of the two buffers return. -/
structure SameReads (m : MemoryBuffer) (b : Buffer) : Prop where
  account : ∀ a, b.readAccount a = some (m.readAccount a)
  storage : ∀ a i location, b.readStorage a i location = some (m.readStorage a i location)
  code : ∀ codeHash, b.readCode codeHash = m.readCode codeHash

theorem sameReads_empty : SameReads {} {} := ⟨fun _ => rfl, fun _ _ _ => rfl, fun _ => rfl⟩

variable {m : MemoryBuffer} {b : Buffer}

theorem SameReads.update (h : SameReads m b) {u : Update} (hu : u.Reports m.world) :
    SameReads (u.issue m) (u.issue b) := by
  rw [Update.issue_memoryBuffer]
  have hw := u.world_apply m
  have hacc (a : Address) : (u.apply m).readAccount a = (u.onWorld m.world).account a :=
    congrFun (congrArg World.account hw) a
  have hst (a : Address) (i : Uint64) (location : Bytes32) :
      (u.apply m).readStorage a i location = (u.onWorld m.world).storage a i location :=
    congrFun (congrFun (congrFun (congrArg World.storage hw) a) i) location
  cases u with
  | account a initial current =>
    have hheld : b.readAccount a = some initial := (h.account a).trans (congrArg some hu.symm)
    refine ⟨fun a' => ?_, fun a' i location => ?_, fun codeHash => ?_⟩
    · refine (Buffer.readAccount_updateAccount hheld current a').trans ?_
      rw [hacc, h.account]
      exact (apply_ite some _ _ _).symm
    · rw [hst]
      exact (congrFun (congrFun (congrFun (b.readStorage_updateAccount a initial current) a') i)
        location).trans (h.storage a' i location)
    · refine (congrFun (b.readCode_updateAccount a initial current) codeHash).trans ?_
      rw [h.code, Update.apply, m.readCode_updateAccount]
  | code a i codeHash bytes =>
    refine ⟨fun a' => ?_, fun a' i' location => ?_, fun codeHash' => ?_⟩
    · exact (congrFun (b.readAccount_updateAccountCode a i codeHash bytes) a').trans (h.account a')
    · exact (congrFun (congrFun (congrFun (b.readStorage_updateAccountCode a i codeHash bytes) a')
        i') location).trans (h.storage a' i' location)
    · refine (b.readCode_updateAccountCode a i codeHash bytes codeHash').trans ?_
      rw [h.code, Update.apply, m.readCode_updateAccountCode]
  | storage a i location initial current =>
    have hheld : b.readStorage a i location = some initial :=
      (h.storage a i location).trans (congrArg some hu.symm)
    refine ⟨fun a' => ?_, fun a' i' location' => ?_, fun codeHash => ?_⟩
    · exact (congrFun (b.readAccount_updateStorage a i location initial current) a').trans
        (h.account a')
    · refine (Buffer.readStorage_updateStorage hheld current a' i' location').trans ?_
      rw [hst, h.storage]
      exact (apply_ite some _ _ _).symm
    · exact (congrFun (b.readCode_updateStorage a i location initial current) codeHash).trans
        (h.code codeHash)

/-- One call after the other, each of which reports what is there. -/
theorem sameReads_foldl {cs : List Call} (hc : CurrentCalls m.world cs) (h : SameReads m b) :
    SameReads (cs.foldl Call.make m) (cs.foldl Call.make b) := by
  induction cs generalizing m b with
  | nil => exact h
  | cons c cs ih =>
    cases c with
    | beginBlock n => exact ih hc ⟨h.account, h.storage, h.code⟩
    | update u =>
      refine ih ?_ (h.update hc.1)
      rw [world_make]
      exact hc.2

end Agreement

section Incarnations

/-- The deletion of an account. -/
def deletion (a : Address) (account : Account) : Call := .update (.account a (some account) none)

/-- No account of incarnation zero is deleted where a contract was deleted before. -/
def KeepsIncarnations (cs : List Call) : Prop :=
  ∀ done a account account', done ++ [deletion a account] <+: cs →
    deletion a account' ∈ done → account'.incarnation ≠ 0 → account.incarnation ≠ 0

variable {m : MemoryBuffer} {b : Buffer}

theorem previousIncarnation_make_memory (m : MemoryBuffer) (c : Call) (a : Address) :
    (∃ account, c = deletion a account ∧ (c.make m).previousIncarnation a = account.incarnation) ∨
      (∀ account, c ≠ deletion a account) ∧
        (c.make m).previousIncarnation a = m.previousIncarnation a := by
  cases c with
  | beginBlock n => exact .inr ⟨by rintro account ⟨⟩, rfl⟩
  | update u =>
    rw [Call.make, Update.issue_memoryBuffer]
    cases u with
    | account a' initial current =>
      rw [Update.apply, m.previousIncarnation_updateAccount]
      by_cases h : a = a' ∧ current = none
      · obtain ⟨rfl, rfl⟩ := h
        rw [if_pos ⟨rfl, rfl⟩]
        cases initial with
        | some account => exact .inl ⟨account, rfl, rfl⟩
        | none => exact .inr ⟨by rintro account ⟨⟩, rfl⟩
      · rw [if_neg h]
        refine .inr ⟨?_, rfl⟩
        rintro account ⟨⟩
        exact h ⟨rfl, rfl⟩
    | code a' i codeHash bytes => exact .inr ⟨by rintro account ⟨⟩, rfl⟩
    | storage a' i location initial current => exact .inr ⟨by rintro account ⟨⟩, rfl⟩

theorem previousIncarnation_make_db (b : Buffer) (c : Call) (a : Address) :
    (∃ account, c = deletion a account ∧ account.incarnation ≠ 0 ∧
      (c.make b).previousIncarnation a = some account.incarnation) ∨
    (∀ account, c = deletion a account → account.incarnation = 0) ∧
      (c.make b).previousIncarnation a = b.previousIncarnation a := by
  cases c with
  | beginBlock n => exact .inr ⟨by rintro account ⟨⟩, rfl⟩
  | update u =>
    cases u with
    | account a' initial current =>
      have h := b.previousIncarnation_updateAccount a' initial current a
      rw [show Call.make b (.update (.account a' initial current)) =
        b.updateAccount a' initial current from rfl, h]
      by_cases ha : a = a'
      · rw [if_pos ha, ha]
        cases current with
        | some account => exact .inr ⟨nofun, rfl⟩
        | none =>
          cases initial with
          | none => exact .inr ⟨by rintro account ⟨⟩, rfl⟩
          | some account =>
            rw [Buffer.deletedIncarnation]
            split_ifs with hi
            · exact .inl ⟨account, rfl, hi, rfl⟩
            · refine .inr ⟨?_, rfl⟩
              rintro account' ⟨⟩
              exact not_not.mp hi
      · rw [if_neg ha]
        refine .inr ⟨?_, rfl⟩
        rintro account ⟨⟩
        exact absurd rfl ha
    | code a' i codeHash bytes =>
      exact .inr ⟨nofun, congrFun (b.previousIncarnation_updateAccountCode a' i codeHash bytes) a⟩
    | storage a' i location initial current =>
      exact .inr ⟨nofun,
        congrFun (b.previousIncarnation_updateStorage a' i location initial current) a⟩

/-- The buffer of the database knows of a contract exactly if one was deleted. -/
theorem previousIncarnation_ne_zero_iff (cs : List Call) (a : Address) :
    (cs.foldl Call.make ({} : Buffer)).previousIncarnation a ≠ some 0 ↔
      ∃ account, deletion a account ∈ cs ∧ account.incarnation ≠ 0 := by
  induction cs using List.reverseRecOn with
  | nil =>
    refine iff_of_false (not_not.mpr rfl) ?_
    rintro ⟨account, hm, -⟩
    cases hm
  | append_singleton cs c ih =>
    rw [List.foldl_append, List.foldl_cons, List.foldl_nil]
    rcases previousIncarnation_make_db (cs.foldl Call.make {}) c a with
      ⟨account, rfl, hi, h⟩ | ⟨hno, h⟩
    · rw [h]
      refine iff_of_true (fun h0 => hi (Option.some.inj h0)) ⟨account, ?_, hi⟩
      exact List.mem_append_right _ List.mem_cons_self
    · rw [h, ih]
      constructor
      · rintro ⟨account, hm, hi⟩
        exact ⟨account, List.mem_append_left _ hm, hi⟩
      · rintro ⟨account, hm, hi⟩
        rcases List.mem_append.mp hm with hm | hm
        · exact ⟨account, hm, hi⟩
        · exact absurd (hno account (List.mem_singleton.mp hm).symm) hi

/-- What can be read of the two buffers is the same after every call exactly if no account of
incarnation zero is deleted after a contract at its address. -/
theorem buffers_agree_iff {blocks : List (Uint64 × IntraBlockState)} (hr : ReportsHeld {} blocks) :
    (∀ cs, cs <+: calls blocks →
      (∀ a, (cs.foldl Call.make ({} : Buffer)).readAccount a =
        some ((cs.foldl Call.make ({} : MemoryBuffer)).readAccount a)) ∧
      (∀ a i location, (cs.foldl Call.make ({} : Buffer)).readStorage a i location =
        some ((cs.foldl Call.make ({} : MemoryBuffer)).readStorage a i location)) ∧
      (∀ codeHash, (cs.foldl Call.make ({} : Buffer)).readCode codeHash =
        (cs.foldl Call.make ({} : MemoryBuffer)).readCode codeHash) ∧
      ∀ a, (cs.foldl Call.make ({} : Buffer)).previousIncarnation a =
        some ((cs.foldl Call.make ({} : MemoryBuffer)).previousIncarnation a)) ↔
    KeepsIncarnations (calls blocks) := by
  constructor
  · intro h done a account account' hprefix hdeleted hi hzero
    obtain ⟨-, -, -, hprev⟩ := h _ hprefix
    have hne := (previousIncarnation_ne_zero_iff (done ++ [deletion a account]) a).mpr
      ⟨account', List.mem_append_left _ hdeleted, hi⟩
    rw [hprev, List.foldl_append, List.foldl_cons, List.foldl_nil] at hne
    rcases previousIncarnation_make_memory (done.foldl Call.make {}) (deletion a account) a with
      ⟨account₁, heq, h₁⟩ | ⟨hno, -⟩
    · cases heq
      exact hne (by rw [h₁, hzero])
    · exact hno account rfl
  · intro hkeeps cs hcs
    have hsame : SameReads (cs.foldl Call.make {}) (cs.foldl Call.make {}) := by
      obtain ⟨rest, hrest⟩ := hcs
      refine sameReads_foldl ?_ sameReads_empty
      exact currentCalls_of_append rest (by rw [hrest]; exact hr.currentCalls)
    refine ⟨hsame.account, hsame.storage, hsame.code, fun a => ?_⟩
    clear hsame
    induction cs using List.reverseRecOn with
    | nil => rfl
    | append_singleton cs c ih =>
      have ih := ih ((List.prefix_append cs [c]).trans hcs)
      rw [List.foldl_append, List.foldl_append, List.foldl_cons, List.foldl_cons, List.foldl_nil,
        List.foldl_nil]
      rcases previousIncarnation_make_db (cs.foldl Call.make {}) c a with
        ⟨account, rfl, hi, h⟩ | ⟨hno, h⟩
      · rcases previousIncarnation_make_memory (cs.foldl Call.make {}) (deletion a account) a with
          ⟨account₁, heq, h₁⟩ | ⟨hno₁, -⟩
        · cases heq
          rw [h, h₁]
        · exact absurd rfl (hno₁ account)
      · rcases previousIncarnation_make_memory (cs.foldl Call.make {}) c a with
          ⟨account, rfl, h₁⟩ | ⟨-, h₁⟩
        · -- an account of incarnation zero, where no contract was deleted
          rw [h, h₁, hno account rfl]
          by_contra hne
          obtain ⟨account', hm, hi⟩ := (previousIncarnation_ne_zero_iff cs a).mp hne
          exact hkeeps cs a account account' hcs hm hi (hno account rfl)
        · rw [h, h₁, ih]

end Incarnations

section Examples

/-- A block in which one account changes. -/
def oneAccount (initial current : Option Account) : IntraBlockState :=
  { objects := HashMap.set ∅ default { initial, current } }

/-- A contract is created, destructed, and created again. -/
def recreated : List (Uint64 × IntraBlockState) :=
  [(1, oneAccount none (some { incarnation := 1 })), (2, oneAccount (some { incarnation := 1 }) none),
    (3, oneAccount none (some { incarnation := 2 }))]

/-- A contract is created and destructed, its address is given a wei, and loses it again. -/
def refunded : List (Uint64 × IntraBlockState) :=
  [(1, oneAccount none (some { incarnation := 1 })), (2, oneAccount (some { incarnation := 1 }) none),
    (3, oneAccount none (some { balance := 1 })), (4, oneAccount (some { balance := 1 }) none)]

theorem reportsHeld_recreated : ReportsHeld {} recreated := by
  refine ⟨?_, ?_, ?_, trivial⟩ <;> intro u hu <;> cases List.mem_singleton.mp hu <;> rfl

/-- The two buffers agree on the contract that was created again. -/
theorem buffers_agree_iff_recreated :
    ReportsHeld {} recreated ∧ KeepsIncarnations (calls recreated) ∧
    ((calls recreated).foldl Call.make ({} : Buffer)).readAccount default =
      some (((calls recreated).foldl Call.make ({} : MemoryBuffer)).readAccount default) ∧
    ((calls recreated).foldl Call.make ({} : Buffer)).previousIncarnation default =
      some (((calls recreated).foldl Call.make ({} : MemoryBuffer)).previousIncarnation default) := by
  have hkeeps : KeepsIncarnations (calls recreated) := by
    intro done a account account' hprefix _ _
    have hmem : deletion a account ∈ calls recreated :=
      hprefix.subset (List.mem_append_right _ List.mem_cons_self)
    have hcalls : calls recreated = [.beginBlock 1,
        .update (.account default none (some { incarnation := 1 })), .beginBlock 2,
        deletion default { incarnation := 1 }, .beginBlock 3,
        .update (.account default none (some { incarnation := 2 }))] := rfl
    rw [hcalls] at hmem
    simp only [deletion, List.mem_cons, reduceCtorEq, Call.update.injEq, Update.account.injEq,
      Option.some.injEq, and_false, and_true, List.not_mem_nil, or_false, false_or] at hmem
    rw [hmem.2]
    decide
  have h := (buffers_agree_iff reportsHeld_recreated).mpr hkeeps _ (List.prefix_refl _)
  exact ⟨reportsHeld_recreated, hkeeps, h.1 default, h.2.2.2 default⟩

/-- The contract is forgotten by one of the buffers. -/
theorem buffers_differ_refunded :
    ReportsHeld {} refunded ∧
    ((calls refunded).foldl Call.make ({} : Buffer)).previousIncarnation default = some 1 ∧
    ((calls refunded).foldl Call.make ({} : MemoryBuffer)).previousIncarnation default = 0 := by
  refine ⟨⟨?_, ?_, ?_, ?_, trivial⟩, by decide, by decide⟩ <;> intro u hu <;>
    cases List.mem_singleton.mp hu <;> rfl

end Examples

end Silkworm.Db
