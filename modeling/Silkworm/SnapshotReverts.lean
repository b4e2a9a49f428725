import Silkworm.MemoryBuffer
import Silkworm.ObjectHistories

/-!
# Reverting to a snapshot

Every observable is restored. For code this needs that a hash which the state mentions is
resolved: its code is cached, or no code that was set or read meanwhile has the hash but the
one that the buffer returns.
-/

namespace Silkworm.IntraBlockState
open StateBuffer UndoLogs

variable {B : Type} [StateBuffer B]

/-- The states of a block, with actions in any order. -/
inductive Reachable (db : B) (keccak : Bytes → Bytes32) : IntraBlockState → Prop
  | initial : Reachable db keccak {}
  | action {s : IntraBlockState} (x : Action) (h : Reachable db keccak s) :
      Reachable db keccak (x.run db keccak s)

/-- The code is in the cache. As none leaves it, these are all that were set or read. -/
def Caches (t : IntraBlockState) (c : Bytes) : Prop := ∃ h, t.code.find h = some c

/-- Only one code has been put into the cache. -/
theorem Caches.eq_of_tryEmplace {t : IntraBlockState} {c code : Bytes} {h : Bytes32}
    (hc : Caches t c) (ht : t.code = HashMap.tryEmplace ∅ h code) : c = code := by
  obtain ⟨k, hc⟩ := hc
  have hset : t.code = HashMap.set ∅ h code := by simp [ht, HashMap.tryEmplace]
  rw [hset, HashMap.find_set] at hc
  split_ifs at hc
  · exact (Option.some.inj hc).symm
  · cases hc

/-- A code in the cache of `t` that has the code hash of an account is the one of the buffer. -/
def ResolvesCode (db : B) (keccak : Bytes → Bytes32) (t : IntraBlockState) : Prop :=
  ∀ a account, readAccount db a = some account → account.codeHash = kEmptyHash ∨
    ∀ c, Caches t c → keccak c = account.codeHash → c = readCode db account.codeHash

/-- The buffer has the code of each of its accounts. -/
def HoldsCodes (db : B) (keccak : Bytes → Bytes32) : Prop :=
  ∀ a account, readAccount db a = some account → account.codeHash = kEmptyHash ∨
    keccak (readCode db account.codeHash) = account.codeHash

/-- If the buffer has the code, only a collision could be in the way. -/
theorem HoldsCodes.resolvesCode {db : B} {keccak : Bytes → Bytes32} {t : IntraBlockState}
    (h : HoldsCodes db keccak)
    (hc : ∀ c k, Caches t c → keccak c = keccak (readCode db k) → c = readCode db k) :
    ResolvesCode db keccak t := by
  intro a account ha
  refine (h a account ha).imp_right fun hhash c hcached hcode => ?_
  exact hc c _ hcached (hcode.trans hhash.symm)

section Observables

variable {db : B} {keccak : Bytes → Bytes32} {s t u y : IntraBlockState}

variable (db keccak) in
/-- The code of the hash is known in `s`: there is none, it is cached, or no code that is cached
later, in `t`, has the hash but the one that the buffer returns. -/
def KnownHash (s t : IntraBlockState) (h : Bytes32) : Prop :=
  h = kEmptyHash ∨ (s.code.find h).isSome ∨
    ∀ c, Caches t c → keccak c = h → c = readCode db h

variable (db keccak) in
/-- The code of all accounts of `s` is known. -/
def CodeKnown (s t : IntraBlockState) : Prop :=
  ∀ a account, viewAccount db s a = some account → KnownHash db keccak s t account.codeHash

theorem CodeKnown.mono (h : CodeKnown db keccak s t) (hc : ∀ c, Caches y c → Caches t c) :
    CodeKnown db keccak s y := by
  intro a account ha
  exact (h a account ha).imp_right (.imp_right fun hk c hcached => hk c (hc c hcached))

variable (db keccak) in
/-- The code of all objects is known, also of those in the journal. -/
structure ObjectsKnown (s t : IntraBlockState) : Prop where
  objects : ∀ a obj account, s.objects.find a = some obj → obj.current = some account →
    KnownHash db keccak s t account.codeHash
  journal : ∀ a obj account, .update a obj ∈ s.journal → obj.current = some account →
    KnownHash db keccak s t account.codeHash

theorem ObjectOf.knownHash {creates : Address → Option Object → Prop} {a : Address} {obj : Object}
    {account : Account} (h : ObjectOf db creates s u a obj) (hdb : ResolvesCode db keccak t)
    (hs : ObjectsKnown db keccak s t) (hc : ∀ k, (s.code.find k).isSome → (u.code.find k).isSome)
    (ha : obj.current = some account) : KnownHash db keccak u t account.codeHash := by
  induction h generalizing account with
  | buffer hr =>
    cases ha
    exact (hdb _ _ hr).imp_right .inr
  | object ho => exact (hs.objects _ _ _ ho ha).imp_right (.imp_left (hc _))
  | journal hj => exact (hs.journal _ _ _ hj ha).imp_right (.imp_left (hc _))
  | create _ | recreate _ _ _ | contract _ _ _ _ =>
    cases ha
    exact .inl rfl
  | update _ hcur _ hh ih =>
    cases ha
    rcases hh with hh | hh
    · exact hh ▸ ih hcur
    · exact .inr (.inl hh)
  | destruct _ _ => cases ha

theorem Reachable.objectsKnown (h : Reachable db keccak s) (hdb : ResolvesCode db keccak t) :
    ObjectsKnown db keccak s t := by
  induction h with
  | initial => exact ⟨nofun, nofun⟩
  | @action s x _ ih =>
    have hx := x.descends db keccak s
    exact ⟨fun _ _ _ h => (hx.objects _ _ h).knownHash hdb ih hx.code,
      fun _ _ _ h => (hx.journal _ _ h).knownHash hdb ih hx.code⟩

theorem Reachable.codeKnown (h : Reachable db keccak s) (hdb : ResolvesCode db keccak t) :
    CodeKnown db keccak s t := by
  intro a account ha
  obtain ⟨obj, ho, hc⟩ := Option.bind_eq_some_iff.mp ha
  have hobj : ObjectOf db (fun _ _ => False) s s a obj := objectOf_viewObject ho
  exact hobj.knownHash hdb (h.objectsKnown hdb) (fun _ h => h) hc

theorem Restores.viewCode_eq (hr : Restores db keccak s y) {h : Bytes32}
    (hk : (s.code.find h).isSome ∨ ∀ c, Caches y c → keccak c = h → c = readCode db h) :
    viewCode db y h = viewCode db s h := by
  cases hs : s.code.find h with
  | some c => rw [viewCode_of_find hs, viewCode_of_find (hr.code h c hs)]
  | none =>
    have hresolved := hk.resolve_left (by simp [hs])
    have hview : viewCode db s h = readCode db h := by
      rw [viewCode, HashMap.findD, hs, Option.getD_none]
    cases hy : y.code.find h with
    | none => rw [hview, viewCode, HashMap.findD, hy, Option.getD_none]
    | some c =>
      rw [hview, viewCode_of_find hy]
      rcases hr.newCode h c hy with hc | hc | hc
      · rw [hs] at hc
        contradiction
      · exact hc
      · exact hresolved c ⟨h, hy⟩ hc

theorem Cached.sameObservables (h : Cached db keccak s y) (hk : CodeKnown db keccak s y) :
    SameObservables db s y := by
  have hobj := h.restores.object
  have haccount (a : Address) : viewAccount db y a = viewAccount db s a := by
    rw [viewAccount, viewAccount, hobj]
  have hstorage (a : Address) (key : Bytes32) (original : Bool) :
      (getStorage db a key original y).1 = (getStorage db a key original s).1 := by
    rw [(getStorage_spec db keccak a key original y).1,
      (getStorage_spec db keccak a key original s).1, haccount, h.restores.storage]
  refine {
    existsAccount := fun a => by rw [existsAccount_fst, existsAccount_fst, haccount]
    isDead := fun a => by simp only [isDead, getObject_eq, hobj]
    getBalance := fun a => by simp only [getBalance, getObject_eq, hobj]
    getNonce := fun a => by simp only [getNonce, getObject_eq, hobj]
    getCode := fun a => ?_
    getCodeHash := fun a => by simp only [getCodeHash, getObject_eq, hobj]
    getCurrentStorage := fun a key => hstorage a key false
    getOriginalStorage := fun a key => hstorage a key true
    selfDestructs := h.restores.selfDestructs
    touched := h.restores.touched
    accessedAddresses := h.restores.accessedAddresses
    accessedStorageKeys := h.restores.accessedStorageKeys
    logs := h.logs
    refund := h.refund }
  rw [(getCode_spec db keccak a y).1, (getCode_spec db keccak a s).1, haccount]
  cases ha : viewAccount db s a with
  | none => rfl
  | some account =>
    dsimp only
    split_ifs with he
    · rfl
    · exact h.restores.viewCode_eq ((hk a account ha).resolve_left he)

theorem code_revertToSnapshot (snapshot : Snapshot) (s : IntraBlockState) :
    (revertToSnapshot snapshot s).code = s.code := by
  have h (ds : List Delta) : ∀ y : IntraBlockState,
      (ds.foldl (fun s d => undo d s) y).code = y.code := by
    induction ds with
    | nil => exact fun y => rfl
    | cons d ds ih =>
      intro y
      rw [List.foldl_cons, ih]
      cases d <;> rfl
  exact h _ s

/-- The reversal restores every observable and keeps the ripemd address touched. -/
theorem revertToSnapshot_sameObservables (hk : CodeKnown db keccak s t) (h : Journaled db keccak s t) :
    SameObservables db s (revertToSnapshot (takeSnapshot s) t) ∧
      HashSet.contains (revertToSnapshot (takeSnapshot s) t).touched kRipemdAddress =
        HashSet.contains t.touched kRipemdAddress := by
  have hcode : CodeKnown db keccak s (revertToSnapshot (takeSnapshot s) t) := by
    refine hk.mono fun c hc => ?_
    rwa [Caches, code_revertToSnapshot] at hc
  exact ⟨h.grows.cached_revertToSnapshot.sameObservables hcode, h.grows.touched_ripemd⟩

end Observables

section Examples

private def alice : Address := FixedBytes.zero 20

private def bob : Address := FixedBytes.replicate 20 1

/-- A buffer that has an account with code, but not the code. -/
private def codeless (codeHash : Bytes32) : MemoryBuffer where
  accounts := HashMap.set ∅ alice { codeHash }

private def withCode (codeHash : Bytes32) (code : Bytes) : MemoryBuffer where
  accounts := HashMap.set ∅ alice { codeHash }
  code := HashMap.set ∅ codeHash code

/-- A contract is created and its storage written, and in a nested frame that fails the code
of a known hash is set and the ripemd address touched. Other codes have this hash, too. -/
theorem revertToSnapshot_sameObservables_nested :
    let keccak : Bytes → Bytes32 := fun c => if c = [] then kEmptyHash else default
    let db := withCode default [0]
    let s₁ := createContract db bob {}
    let s₂ := setStorage db bob default kEmptyHash s₁
    let s₃ := setCode db keccak bob [0] (touch kRipemdAddress s₂)
    let t := revertToSnapshot (takeSnapshot s₂) s₃
    SameObservables db {} (revertToSnapshot (takeSnapshot {}) t) ∧
      HashSet.contains (revertToSnapshot (takeSnapshot {}) t).touched kRipemdAddress =
        HashSet.contains t.touched kRipemdAddress := by
  intro keccak db s₁ s₂ s₃ t
  have hhas : HoldsCodes db keccak := by
    intro a account ha
    refine .inr ?_
    change (HashMap.set ∅ alice _).find a = some account at ha
    rw [HashMap.find_set] at ha
    split_ifs at ha
    · cases ha
      decide
    · cases ha
  have hdb : ResolvesCode db keccak t := by
    refine hhas.resolvesCode fun c k hc hk => ?_
    have hcode : c = [0] := hc.eq_of_tryEmplace rfl
    subst hcode
    change _ = HashMap.findD (HashMap.set ∅ default [0]) k []
    change _ = keccak (HashMap.findD (HashMap.set ∅ default [0]) k []) at hk
    rw [HashMap.findD_set] at hk ⊢
    split_ifs at hk ⊢
    · rfl
    · rw [HashMap.findD, HashMap.find_empty] at hk
      exact absurd hk (by decide)
  have h₁ : Journaled db keccak {} s₁ := .operation (.createContract bob) (.refl _) trivial
  have he : (existsAccount db bob s₁).1 = true := by decide
  have h₂ : Journaled db keccak {} s₂ := .operation (.setStorage bob default kEmptyHash) h₁ he
  have h₃ : Journaled db keccak s₂ s₃ :=
    .operation (.setCode bob [0]) (.operation (.touch kRipemdAddress) (.refl _) trivial) trivial
  exact revertToSnapshot_sameObservables (Reachable.initial.codeKnown hdb) (.revert h₂ h₃)

/-- Setting the code of Bob shows through in the code of Alice, also after it is reverted. -/
theorem revertToSnapshot_changes_code :
    ¬∃ keccak : Bytes → Bytes32, keccak [0] ≠ kEmptyHash ∧
      ∀ (db : MemoryBuffer) (s t : IntraBlockState), Reachable db keccak s →
        Journaled db keccak s t → SameObservables db s (revertToSnapshot (takeSnapshot s) t) := by
  rintro ⟨keccak, hne, hclaim⟩
  let db := codeless (keccak [0])
  have hj : Journaled db keccak {} (setCode db keccak bob [0] {}) :=
    .operation (.setCode bob [0]) (.refl _) trivial
  have hcode := (hclaim db {} _ .initial hj).getCode alice
  have haccount : viewAccount db {} alice = some { codeHash := keccak [0] } := by
    rw [viewAccount, viewObject]
    change ((HashMap.find (HashMap.set ∅ alice _) alice).map _).bind Object.current = _
    rw [HashMap.find_set_self]
    rfl
  have haccount' : viewAccount db (revertToSnapshot (takeSnapshot {})
      (setCode db keccak bob [0] {})) alice = some { codeHash := keccak [0] } := by
    rw [← haccount, viewAccount, viewAccount,
      hj.grows.cached_revertToSnapshot.restores.object]
  rw [(getCode_spec db keccak alice _).1, (getCode_spec db keccak alice {}).1, haccount,
    haccount'] at hcode
  simp only [hne, ↓reduceIte] at hcode
  have hcached : (revertToSnapshot (takeSnapshot {}) (setCode db keccak bob [0] {})).code.find
      (keccak [0]) = some [0] := by
    rw [code_revertToSnapshot]
    change (HashMap.tryEmplace ∅ _ _).find _ = _
    rw [HashMap.tryEmplace, HashMap.find_empty]
    exact HashMap.find_set_self ..
  rw [viewCode_of_find hcached] at hcode
  change [0] = ([] : Bytes) at hcode
  cases hcode

end Examples

end Silkworm.IntraBlockState
