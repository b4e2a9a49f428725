import Silkworm.MemoryBufferUpdates
import Silkworm.ObjectHistories
import Silkworm.OperationViews

/-!
# Incarnations

The storage of a contract is kept under its incarnation, and a contract that is created again
at the same address gets the next one. Within a block the objects keep to the incarnations of
the buffer, and no block leaves storage above the last incarnation of its address. Both fail
when the incarnation of a destructed contract is forgotten, which happens in two ways.
-/

namespace Silkworm.IntraBlockState
open StateBuffer

section Blocks

variable {B : Type} [StateBuffer B] (db : B)

/-- The last incarnation of an address under which the buffer may have storage. -/
def lastIncarnation (a : Address) : Uint64 :=
  match readAccount db a with
  | some account => if account.incarnation = 0 then previousIncarnation db a else account.incarnation
  | none => previousIncarnation db a

structure SoundObject (a : Address) (obj : Object) : Prop where
  initial : obj.initial = readAccount db a
  current : ∀ account, obj.current = some account → account.incarnation ≠ 0 →
    (lastIncarnation db a).toNat ≤ account.incarnation.toNat

structure SoundState (s : IntraBlockState) : Prop where
  objects : ∀ a obj, s.objects.find a = some obj → SoundObject db a obj
  journal : ∀ a obj, .update a obj ∈ s.journal → SoundObject db a obj

/-- The contract was destructed and the address has an account again, with incarnation 0. -/
def Resurrected (obj : Object) : Prop :=
  obj.current.map Account.incarnation = some 0 ∧
    (obj.initial.map Account.incarnation).getD 0 ≠ 0

instance (obj : Object) : Decidable (Resurrected obj) := inferInstanceAs (Decidable (_ ∧ _))

def kMaxIncarnation : Uint64 := 0xFFFFFFFFFFFFFFFF#64

/-- All incarnations are below the maximum. -/
def HasRoom (a : Address) (prev : Option Object) : Prop :=
  previousIncarnation db a ≠ kMaxIncarnation ∧
    (prev.bind Object.current).map Account.incarnation ≠ some kMaxIncarnation ∧
    (prev.bind Object.initial).map Account.incarnation ≠ some kMaxIncarnation

instance (a : Address) (prev : Option Object) : Decidable (HasRoom db a prev) :=
  inferInstanceAs (Decidable (_ ∧ _))

/-- The object that a new contract replaces was not resurrected. -/
def RegularCreation (a : Address) (prev : Option Object) : Prop :=
  HasRoom db a prev ∧ ∀ obj ∈ prev, ¬Resurrected obj

instance (a : Address) (prev : Option Object) : Decidable (RegularCreation db a prev) :=
  inferInstanceAs (Decidable (_ ∧ _))

/-- The contract created at the address next does not see earlier storage. -/
structure FreshContract (a : Address) (s : IntraBlockState) : Prop where
  incarnation : ∃ obj account,
    viewObject db (createContract db a s).objects a = some obj ∧ obj.current = some account ∧
      obj.initial.map Account.incarnation ≠ some account.incarnation ∧
      ∀ key, readStorage db a account.incarnation key = default
  getCurrentStorage : ∀ key, (getCurrentStorage db a key (createContract db a s)).1 = default

variable {db} {keccak : Bytes → Bytes32} {s t : IntraBlockState} {a : Address}

theorem lastIncarnation_le_followed {prev : Option Object}
    (hp : ∀ obj, prev = some obj → SoundObject db a obj) (hn : prev = none → readAccount db a = none)
    (hr : ∀ obj ∈ prev, ¬Resurrected obj) :
    (lastIncarnation db a).toNat ≤ (followedIncarnation db a prev).toNat := by
  cases prev with
  | none =>
    rw [lastIncarnation, hn rfl]
    exact le_rfl
  | some obj =>
    have hobj := hp obj rfl
    have hr := hr obj rfl
    cases hc : obj.current with
    | none =>
      rw [lastIncarnation, ← hobj.initial]
      cases hi : obj.initial <;> simp [followedIncarnation, hc, hi]
    | some account =>
      by_cases h0 : account.incarnation = 0
      · have hfollowed : followedIncarnation db a (some obj) = previousIncarnation db a := by
          simp [followedIncarnation, hc, h0]
        rw [hfollowed, lastIncarnation, ← hobj.initial]
        simp only [Resurrected, hc, Option.map_some, h0, true_and, not_not] at hr
        cases hi : obj.initial with
        | none => exact le_rfl
        | some account₀ =>
          rw [hi, Option.map_some, Option.getD_some] at hr
          simp [hr]
      · have hfollowed : followedIncarnation db a (some obj) = account.incarnation := by
          simp only [followedIncarnation, Option.bind_some, hc, if_neg h0]
        rw [hfollowed]
        exact hobj.current account hc h0

theorem followedIncarnation_ne_max {prev : Option Object} (h : HasRoom db a prev) :
    followedIncarnation db a prev ≠ kMaxIncarnation := by
  obtain ⟨hdb, hcur, hini⟩ := h
  unfold followedIncarnation
  cases prev with
  | none => exact hdb
  | some obj =>
    cases hc : obj.current with
    | some account =>
      simp only [Option.bind_some, hc, Option.map_some, ne_eq, Option.some.injEq] at hcur
      simp only [Option.bind_some, hc]
      split_ifs
      · exact hdb
      · exact hcur
    | none =>
      cases hi : obj.initial with
      | none => simpa [hc, hi] using hdb
      | some account =>
        simp only [Option.bind_some, hi, Option.map_some, ne_eq, Option.some.injEq] at hini
        simp only [Option.bind_some, hc, hi, Option.map_some]
        split_ifs
        · exact hdb
        · exact hini

theorem toNat_add_one_of_ne_max {i : Uint64} (h : i ≠ kMaxIncarnation) :
    (i + 1).toNat = i.toNat + 1 := by
  unfold kMaxIncarnation at h
  bv_omega

/-- The new incarnation is above the last one. -/
theorem RegularCreation.lastIncarnation_lt {prev : Option Object} (h : RegularCreation db a prev)
    (hp : ∀ obj, prev = some obj → SoundObject db a obj)
    (hn : prev = none → readAccount db a = none) :
    (lastIncarnation db a).toNat < (followedIncarnation db a prev + 1).toNat := by
  rw [toNat_add_one_of_ne_max (followedIncarnation_ne_max h.1)]
  exact Nat.lt_succ_of_le (lastIncarnation_le_followed hp hn h.2)

theorem ObjectOf.sound {creates : Address → Option Object → Prop} {obj : Object}
    (h : ObjectOf db creates s t a obj) (hs : SoundState db s)
    (hc : ∀ a prev, creates a prev → RegularCreation db a prev) : SoundObject db a obj := by
  induction h with
  | buffer hr =>
    refine ⟨hr.symm, fun b hb h0 => ?_⟩
    cases hb
    simp only [lastIncarnation, hr, if_neg h0, le_refl]
  | object h => exact hs.objects _ _ h
  | journal h => exact hs.journal _ _ h
  | create h =>
    refine ⟨h.symm, fun b hb h0 => ?_⟩
    cases hb
    exact absurd rfl h0
  | recreate _ _ ih =>
    refine ⟨ih.initial, fun b hb h0 => ?_⟩
    cases hb
    exact absurd rfl h0
  | update _ hcur hi _ ih =>
    refine ⟨ih.initial, fun b hb h0 => ?_⟩
    cases hb
    rw [hi] at h0 ⊢
    exact ih.current _ hcur h0
  | @contract prev hcr _ hn ih =>
    refine ⟨?_, fun b hb h0 => ?_⟩
    · cases prev with
      | none => exact (hn rfl).symm
      | some obj => exact (ih obj rfl).initial
    · cases hb
      exact ((hc _ _ hcr).lastIncarnation_lt ih hn).le
  | destruct _ ih => exact ⟨ih.initial, nofun⟩

theorem SoundState.initial : SoundState db {} := ⟨nofun, nofun⟩

/-- What one action preserves. -/
theorem Action.sound (x : Action) (hs : SoundState db s)
    (hc : ∀ a prev, x.Creates db s a prev → RegularCreation db a prev) :
    SoundState db (x.run db keccak s) :=
  have hx := x.descends db keccak s
  ⟨fun _ _ h => (hx.objects _ _ h).sound hs hc, fun _ _ h => (hx.journal _ _ h).sound hs hc⟩

theorem SoundState.viewObject {obj : Object} (hs : SoundState db s)
    (h : viewObject db s.objects a = some obj) : SoundObject db a obj :=
  have ho : ObjectOf db (fun _ _ => False) s s a obj := objectOf_viewObject h
  ho.sound hs nofun

variable (db) in
/-- No slot is set above the last incarnation of its address. -/
def StoredBelow : Prop :=
  ∀ a i key, readStorage db a i key ≠ default → i.toNat ≤ (lastIncarnation db a).toNat

/-- Only the buffer could fill the storage of a contract that was just created. -/
theorem getCurrentStorage_createContract
    (h : ((viewObject db s.objects a).bind Object.initial).map Account.incarnation ≠
      some (followedIncarnation db a (viewObject db s.objects a) + 1)) (key : Bytes32) :
    (getCurrentStorage db a key (createContract db a s)).1 = default := by
  have hview := viewObject_createContract_self db a s
  have haccount : (viewAccount db (createContract db a s) a).isSome = true := by
    rw [viewAccount, hview]
    rfl
  rw [getCurrentStorage, (getStorage_spec db (fun _ => default) a key false _).1, if_pos haccount,
    viewStorage, findD_createContract, if_pos rfl, hview]
  exact if_neg h

theorem SoundState.freshContract (hs : SoundState db s) (hdb : StoredBelow db)
    (hc : RegularCreation db a (IntraBlockState.viewObject db s.objects a)) :
    FreshContract db a s := by
  have hlt := hc.lastIncarnation_lt (fun _ => hs.viewObject) readAccount_of_viewObject_eq_none
  have hne : ((IntraBlockState.viewObject db s.objects a).bind Object.initial).map
      Account.incarnation ≠
        some (followedIncarnation db a (IntraBlockState.viewObject db s.objects a) + 1) := by
    intro h
    obtain ⟨account, hi, he⟩ := Option.map_eq_some_iff.mp h
    obtain ⟨obj, ho, hinit⟩ := Option.bind_eq_some_iff.mp hi
    have hr : readAccount db a = some account := by rw [← (hs.viewObject ho).initial, hinit]
    rw [← he, lastIncarnation, hr] at hlt
    dsimp only at hlt
    split_ifs at hlt with h0
    · rw [h0] at hlt
      simp at hlt
    · exact lt_irrefl _ hlt
  refine ⟨⟨_, _, viewObject_createContract_self db a s, rfl, hne, fun key => ?_⟩,
    getCurrentStorage_createContract hne⟩
  by_contra hk
  exact absurd (hdb a _ key hk) (Nat.not_le.mpr hlt)

end Blocks

section Runs

/-- What an account that is deleted leaves behind: its incarnation, but 0 makes the buffer
forget an earlier one. -/
def Forgotten (db : MemoryBuffer) (a : Address) (obj : Object) : Prop :=
  obj.current = none ∧ obj.initial.map Account.incarnation = some 0 ∧ db.previousIncarnation a ≠ 0

instance (db : MemoryBuffer) (a : Address) (obj : Object) : Decidable (Forgotten db a obj) :=
  inferInstanceAs (Decidable (_ ∧ _))

def RegularWrite (db : MemoryBuffer) (s : IntraBlockState) : Prop :=
  ∀ e ∈ s.objects.toList, ¬Resurrected e.2 ∧ ¬Forgotten db e.1 e.2

instance (db : MemoryBuffer) (s : IntraBlockState) : Decidable (RegularWrite db s) :=
  inferInstanceAs (Decidable (∀ e ∈ _, _))

variable {db : MemoryBuffer} {s : IntraBlockState}

/-- The last incarnation never decreases. -/
theorem lastIncarnation_writeToDb (hs : SoundState db s) (hw : RegularWrite db s) (n : Uint64)
    (a : Address) :
    (lastIncarnation db a).toNat ≤ (lastIncarnation (writeToDb n db s).1 a).toNat := by
  have hread : readAccount (writeToDb n db s).1 a = _ := MemoryBuffer.readAccount_writeToDb n db s a
  have hprev : previousIncarnation (writeToDb n db s).1 a = _ :=
    MemoryBuffer.previousIncarnation_writeToDb n db s a
  cases hf : s.objects.find a with
  | none =>
    rw [hf] at hread hprev
    rw [lastIncarnation, lastIncarnation, hread, hprev]
    exact le_rfl
  | some obj =>
    have hobj := hs.objects a obj hf
    obtain ⟨hr, hfo⟩ := hw (a, obj) (HashMap.mem_toList.mpr hf)
    rw [hf] at hread hprev
    dsimp only at hr hfo hread hprev
    cases hc : obj.current with
    | some account =>
      rw [hc] at hread hprev
      rw [if_neg (Option.some_ne_none account)] at hprev
      by_cases h0 : account.incarnation = 0
      · rw [lastIncarnation, lastIncarnation, hread, ← hobj.initial]
        dsimp only
        rw [if_pos h0, hprev]
        simp only [Resurrected, hc, Option.map_some, h0, true_and, not_not] at hr
        cases hi : obj.initial with
        | none => exact le_rfl
        | some account₀ =>
          rw [hi, Option.map_some, Option.getD_some] at hr
          dsimp only
          rw [if_pos hr]
          exact le_rfl
      · rw [lastIncarnation.eq_1 (writeToDb n db s).1, hread]
        dsimp only
        rw [if_neg h0]
        exact hobj.current account hc h0
    | none =>
      rw [hc] at hread hprev
      rw [if_pos rfl] at hprev
      rw [lastIncarnation, lastIncarnation, hread, hprev, ← hobj.initial]
      cases hi : obj.initial with
      | none => exact le_rfl
      | some account₀ =>
        dsimp only [Option.map_some, Option.getD_some]
        split_ifs with h0
        · simp only [Forgotten, hc, hi, Option.map_some, h0, true_and, not_not] at hfo
          rw [h0]
          exact le_of_eq (congrArg BitVec.toNat hfo)
        · exact le_rfl

theorem storedBelow_writeToDb (hs : SoundState db s) (hw : RegularWrite db s) (hdb : StoredBelow db)
    (n : Uint64) : StoredBelow (writeToDb n db s).1 := by
  intro a i key hk
  have hmono := lastIncarnation_writeToDb hs hw n a
  have hstorage := MemoryBuffer.readStorage_writeToDb n db s a
  have hread : readAccount (writeToDb n db s).1 a = _ := MemoryBuffer.readAccount_writeToDb n db s a
  change readStorage (writeToDb n db s).1 a = _ at hstorage
  rw [hstorage] at hk
  cases hst : s.storage.find a with
  | none =>
    rw [hst] at hk
    exact (hdb a i key hk).trans hmono
  | some st =>
    rw [hst] at hk
    simp only [MemoryBuffer.writtenSlots] at hk
    cases hc : (s.objects.find a).bind Object.current with
    | none =>
      rw [hc] at hk
      exact (hdb a i key hk).trans hmono
    | some account =>
      rw [hc] at hk
      dsimp only at hk
      split_ifs at hk with hi
      · -- A slot of the account that is written: its incarnation is the last one now, or 0.
        obtain ⟨obj, ho, hcur⟩ := Option.bind_eq_some_iff.mp hc
        rw [ho] at hread
        dsimp only at hread
        rw [lastIncarnation, hread, hcur, hi]
        dsimp only
        split_ifs with h0
        · rw [h0]
          exact Nat.zero_le _
        · exact le_rfl
      · exact (hdb a i key hk).trans hmono

/-- A block is written, and the next one starts with a new state. -/
inductive Event where
  | action (x : Action)
  | writeToDb (blockNumber : Uint64)

variable (keccak : Bytes → Bytes32)

def Event.run (e : Event) (x : MemoryBuffer × IntraBlockState) : MemoryBuffer × IntraBlockState :=
  match e with
  | .action y => (x.1, y.run x.1 keccak x.2)
  | .writeToDb n => ((IntraBlockState.writeToDb n x.1 x.2).1, {})

def Event.runAll (es : List Event) (x : MemoryBuffer × IntraBlockState) :
    MemoryBuffer × IntraBlockState := es.foldl (fun x e => e.run keccak x) x

def Event.Regular (e : Event) (x : MemoryBuffer × IntraBlockState) : Prop :=
  match e with
  | .action y => ∀ a ∈ y.created, RegularCreation x.1 a (viewObject x.1 x.2.objects a)
  | .writeToDb _ => RegularWrite x.1 x.2

instance (e : Event) (x : MemoryBuffer × IntraBlockState) : Decidable (e.Regular x) :=
  match e with
  | .action y => inferInstanceAs (Decidable (∀ a ∈ y.created, _))
  | .writeToDb _ => inferInstanceAs (Decidable (RegularWrite x.1 x.2))

/-- Every event of a run meets the condition in the state in which it happens. -/
def Event.AllRegular : List Event → MemoryBuffer × IntraBlockState → Prop
  | [], _ => True
  | e :: es, x => e.Regular x ∧ AllRegular es (e.run keccak x)

instance Event.decidableAllRegular :
    ∀ (es : List Event) (x : MemoryBuffer × IntraBlockState), Decidable (AllRegular keccak es x)
  | [], _ => inferInstanceAs (Decidable True)
  | e :: es, x =>
    have := decidableAllRegular es (e.run keccak x)
    inferInstanceAs (Decidable (_ ∧ _))

theorem Event.sound (e : Event) {x : MemoryBuffer × IntraBlockState} (he : e.Regular x)
    (hs : SoundState x.1 x.2) (hdb : StoredBelow x.1) :
    SoundState (e.run keccak x).1 (e.run keccak x).2 ∧ StoredBelow (e.run keccak x).1 := by
  cases e with
  | action y =>
    refine ⟨y.sound hs fun a prev hc => ?_, hdb⟩
    obtain ⟨ha, rfl⟩ := hc
    exact he a ha
  | writeToDb n => exact ⟨.initial, storedBelow_writeToDb hs he hdb n⟩

variable {keccak}

theorem Event.runAll_sound {es es' : List Event} {x : MemoryBuffer × IntraBlockState}
    (h : AllRegular keccak (es ++ es') x) (hs : SoundState x.1 x.2) (hdb : StoredBelow x.1) :
    SoundState (runAll keccak es x).1 (runAll keccak es x).2 ∧ StoredBelow (runAll keccak es x).1 ∧
      AllRegular keccak es' (runAll keccak es x) := by
  induction es generalizing x with
  | nil => exact ⟨hs, hdb, h⟩
  | cons e es ih =>
    obtain ⟨he, hes⟩ := h
    have hnext := e.sound keccak he hs hdb
    exact ih hes hnext.1 hnext.2

theorem storedBelow_empty : StoredBelow ({} : MemoryBuffer) := fun _ _ _ h => absurd rfl h

/-- In a run from the empty buffer, every contract that is created is fresh. -/
theorem freshContract_of_allRegular {es es' : List Event} {a : Address}
    (h : Event.AllRegular keccak (es ++ .action (.operation (.createContract a)) :: es') ({}, {})) :
    FreshContract (Event.runAll keccak es ({}, {})).1 a (Event.runAll keccak es ({}, {})).2 := by
  obtain ⟨hs, hdb, hcreate, -⟩ := Event.runAll_sound h .initial storedBelow_empty
  exact hs.freshContract hdb (hcreate a rfl)

section Examples

private def contract : Address := FixedBytes.replicate 20 7

private def one : Bytes32 := FixedBytes.ofByte 31 1

/-- A contract writes its first slot. -/
private def deployment : List Event :=
  [.action (.operation (.createContract contract)),
    .action (.operation (.setStorage contract default one)),
    .action .finalizeTransaction, .writeToDb 1]

/-- It is destructed by a transaction. -/
private def destruction : List Event :=
  [.action .clearJournalAndSubstate, .action (.operation (.recordSuicide contract)),
    .action .destructSuicides, .action .finalizeTransaction]

/-- Ether is sent to it by the next transaction. -/
private def payment : List Event :=
  [.action .clearJournalAndSubstate, .action (.operation (.addToBalance contract 1)),
    .action .finalizeTransaction]

/-- Destructed in one block, paid in the next one and created again. -/
theorem freshContract_of_allRegular_recreated :
    let es := deployment ++ destruction ++ [.writeToDb 2] ++ payment
    FreshContract (Event.runAll (fun _ => default) es ({}, {})).1 contract
      (Event.runAll (fun _ => default) es ({}, {})).2 := by
  have h : Event.AllRegular (fun _ => default) (deployment ++ destruction ++ [.writeToDb 2] ++
      payment ++ [.action (.operation (.createContract contract))]) ({}, {}) := by decide
  exact freshContract_of_allRegular h

/-- Destructed, paid and created again in the same block, the contract sees its old slot. -/
theorem not_freshContract_of_payment :
    let es := deployment ++ destruction ++ payment
    ¬FreshContract (Event.runAll (fun _ => default) es ({}, {})).1 contract
      (Event.runAll (fun _ => default) es ({}, {})).2 := by
  intro es h
  have hslot := h.getCurrentStorage default
  revert hslot
  decide

end Examples

end Runs

end Silkworm.IntraBlockState
