import Silkworm.CoherentStates
import Silkworm.SnapshotReverts
import Silkworm.WrittenUpdates

/-!
# The commit of a block

At the end of a block the state is written to the buffer, and the next block starts from the
buffer alone. It finds there what the state had, because the state was coherent. Code is found
if the buffer has the code of its accounts: otherwise a code that was set and then lost with
its contract could be seen before the commit, but not after it.
-/

namespace Silkworm.MemoryBuffer
open IntraBlockState StateBuffer

section Code

variable {us : List Update} {codeHash : Bytes32}

theorem readCode_issue (b : MemoryBuffer) (u : Update) (codeHash : Bytes32) :
    (u.issue b).readCode codeHash = match u with
      | .code _ _ h c => if codeHash = h then c else b.readCode codeHash
      | _ => b.readCode codeHash := by
  cases u with
  | account a initial current => exact congrFun (readCode_updateAccount b a initial current) codeHash
  | code a i h c => exact readCode_updateAccountCode b a i h c codeHash
  | storage a i location initial current => rfl

theorem readCode_foldl_of_not_mem (hn : ∀ a i c, Update.code a i codeHash c ∉ us) (b : MemoryBuffer) :
    (us.foldl Update.issue b).readCode codeHash = b.readCode codeHash := by
  induction us generalizing b with
  | nil => rfl
  | cons u us ih =>
    rw [List.foldl_cons, ih fun a i c h => hn a i c (List.mem_cons_of_mem u h), readCode_issue]
    cases u with
    | code a i h c =>
      have hne : codeHash ≠ h := fun he => hn a i c (he ▸ List.mem_cons_self)
      exact if_neg hne
    | _ => rfl

/-- All updates of a code agree, and there is one. -/
theorem readCode_foldl_of_mem {code : Bytes} {b : MemoryBuffer}
    (hv : ∀ a i c, Update.code a i codeHash c ∈ us → c = code)
    (hm : (∃ a i c, Update.code a i codeHash c ∈ us) ∨ b.readCode codeHash = code) :
    (us.foldl Update.issue b).readCode codeHash = code := by
  induction us generalizing b with
  | nil =>
    obtain ⟨_, _, _, h⟩ | h := hm
    · cases h
    · exact h
  | cons u us ih =>
    refine ih (fun a i c h => hv a i c (List.mem_cons_of_mem u h)) ?_
    rw [readCode_issue]
    cases u with
    | code a i h c =>
      dsimp only
      split_ifs with he
      · subst he
        exact .inr (hv a i c List.mem_cons_self)
      · refine hm.imp_left ?_
        intro ⟨a', i', c', hmem⟩
        refine ⟨a', i', c', (List.mem_cons.mp hmem).resolve_left ?_⟩
        rintro ⟨⟩
        exact he rfl
    | _ =>
      refine hm.imp_left ?_
      intro ⟨a', i', c', hmem⟩
      exact ⟨a', i', c', (List.mem_cons.mp hmem).resolve_left nofun⟩

end Code

end Silkworm.MemoryBuffer

namespace Silkworm.IntraBlockState
open StateBuffer

section Updates

variable {s : IntraBlockState} {a : Address} {i : Uint64} {codeHash : Bytes32} {c : Bytes}

/-- The code of an object is written if it was created in the block. -/
theorem code_mem_updates : Update.code a i codeHash c ∈ s.updates ↔
    ∃ obj account, s.objects.find a = some obj ∧ obj.current = some account ∧
      account.codeHash ≠ kEmptyHash ∧
      obj.initial.map Account.incarnation ≠ some account.incarnation ∧
      i = account.incarnation ∧ codeHash = account.codeHash ∧ c = s.code.findD codeHash [] := by
  constructor
  · intro h
    rcases List.mem_append.mp h with h | h
    · obtain ⟨_, _, _, _, _, h⟩ := storageUpdates_eq s h
      cases h
    obtain ⟨⟨b, obj⟩, he, h⟩ := List.mem_flatMap.mp h
    rw [List.mem_cons, codeUpdates] at h
    have h := h.resolve_left (by simp)
    cases hc : obj.current with
    | none =>
      rw [hc] at h
      cases h
    | some account =>
      rw [hc] at h
      dsimp only at h
      split_ifs at h with hw
      · cases List.mem_singleton.mp h
        exact ⟨obj, account, HashMap.mem_toList.mp he, hc, hw.1, hw.2, rfl, rfl, rfl⟩
      · cases h
  · rintro ⟨obj, account, ho, hc, hne, hinc, rfl, rfl, rfl⟩
    refine List.mem_append_right _ (List.mem_flatMap.mpr ⟨(a, obj), HashMap.mem_toList.mpr ho, ?_⟩)
    refine List.mem_cons_of_mem _ ?_
    rw [codeUpdates, hc]
    dsimp only
    rw [if_pos ⟨hne, hinc⟩]
    exact List.mem_singleton_self _

/-- The code of a contract that was created in the block. -/
theorem readCode_writeToDb_of_created {obj : Object} {account : Account} {db : MemoryBuffer}
    (n : Uint64) (ho : s.objects.find a = some obj) (hc : obj.current = some account)
    (hne : account.codeHash ≠ kEmptyHash)
    (hinc : obj.initial.map Account.incarnation ≠ some account.incarnation) :
    (s.writeToDb n db).1.readCode account.codeHash = s.code.findD account.codeHash [] := by
  have hmem : Update.code a account.incarnation account.codeHash (s.code.findD account.codeHash []) ∈
      s.updates := code_mem_updates.mpr ⟨obj, account, ho, hc, hne, hinc, rfl, rfl, rfl⟩
  rw [writeToDb_fst]
  refine MemoryBuffer.readCode_foldl_of_mem (fun b i c h => ?_) (.inl ⟨_, _, _, hmem⟩)
  obtain ⟨_, _, _, _, _, _, _, _, hcode⟩ := code_mem_updates.mp h
  exact hcode

/-- Any code is kept or replaced by what the state has for its hash. -/
theorem readCode_writeToDb (n : Uint64) (db : MemoryBuffer) (codeHash : Bytes32) :
    (s.writeToDb n db).1.readCode codeHash = db.readCode codeHash ∨
      ∃ a obj account, s.objects.find a = some obj ∧ obj.current = some account ∧
        account.codeHash ≠ kEmptyHash ∧
        obj.initial.map Account.incarnation ≠ some account.incarnation ∧
        codeHash = account.codeHash := by
  by_cases h : ∃ a i c, Update.code a i codeHash c ∈ s.updates
  · obtain ⟨a, i, c, h⟩ := h
    obtain ⟨obj, account, ho, hc, hne, hinc, -, hh, -⟩ := code_mem_updates.mp h
    exact .inr ⟨a, obj, account, ho, hc, hne, hinc, hh⟩
  · refine .inl ?_
    rw [writeToDb_fst, MemoryBuffer.readCode_foldl_of_not_mem fun a i c hm => h ⟨a, i, c, hm⟩]
    rfl

end Updates

section Commits

variable {db : MemoryBuffer} {keccak : Bytes → Bytes32} {s : IntraBlockState}

/-- What a state over a buffer returns for every account and slot is the same over another. -/
structure SameReads {B B' : Type} [StateBuffer B] [StateBuffer B'] (db : B) (s : IntraBlockState)
    (db' : B') (t : IntraBlockState) : Prop where
  existsAccount : ∀ a, (existsAccount db' a t).1 = (existsAccount db a s).1
  getBalance : ∀ a, (getBalance db' a t).1 = (getBalance db a s).1
  getNonce : ∀ a, (getNonce db' a t).1 = (getNonce db a s).1
  getCode : ∀ a, (getCode db' a t).1 = (getCode db a s).1
  getCodeHash : ∀ a, (getCodeHash db' a t).1 = (getCodeHash db a s).1
  getCurrentStorage : ∀ a key,
    (getCurrentStorage db' a key t).1 = (getCurrentStorage db a key s).1

/-- No slot has been written since the last transaction was finalized. -/
def Finalized (s : IntraBlockState) : Prop := ∀ a, (s.storage.findD a {}).current = ∅

theorem viewAccount_initial {B : Type} [StateBuffer B] (db : B) (a : Address) :
    viewAccount db {} a = readAccount db a := by
  change ((readAccount db a).map fun account => (⟨some account, some account⟩ : Object)).bind
    Object.current = readAccount db a
  cases readAccount db a <;> rfl

theorem viewAccount_writeToDb (n : Uint64) (db : MemoryBuffer) (s : IntraBlockState) (a : Address) :
    viewAccount (s.writeToDb n db).1 {} a = viewAccount db s a := by
  rw [viewAccount_initial]
  refine (MemoryBuffer.readAccount_writeToDb n db s a).trans ?_
  rw [viewAccount, viewObject]
  cases s.objects.find a with
  | some obj => rfl
  | none =>
    change readAccount db a = _
    cases readAccount db a <;> rfl

/-- The slots of an account, which the buffer has under its present incarnation. -/
theorem readStorage_writeToDb_eq (h : Coherent db keccak s) (hf : Finalized s) (n : Uint64)
    {a : Address} {account : Account} (ha : viewAccount db s a = some account) (key : Bytes32) :
    (s.writeToDb n db).1.readStorage a account.incarnation key = viewStorage db s a key false := by
  obtain ⟨obj, ho, hc⟩ := Option.bind_eq_some_iff.mp ha
  have hobj := h.viewObject ho
  have hbuffered : bufferedSlot db (viewObject db s.objects a) a key =
      db.readStorage a account.incarnation key := by
    have hinc : currentIncarnation (some obj) = account.incarnation := by
      simp [currentIncarnation, hc]
    rw [bufferedSlot, ho, hinc]
    change (if obj.initial.map Account.incarnation = _ then _ else _) = _
    split_ifs with hi
    · rfl
    · cases hobj.current account hc with
      | loaded hinit hinc' _ => exact absurd (by rw [hinit, hinc']; rfl) hi
      | created _ hslots _ => exact (hslots key).symm
  have hcurrent : (s.storage.findD a {}).current.find key = none := by rw [hf a]; rfl
  rw [viewStorage, slot, hbuffered, MemoryBuffer.readStorage_writeToDb]
  simp only [Bool.false_eq_true, ↓reduceIte, hcurrent]
  cases hst : s.storage.find a with
  | none =>
    rw [HashMap.findD, hst]
    rfl
  | some st =>
    -- The storage is written, since its account was looked up.
    have hfind : s.objects.find a = some obj := by
      rcases h.storage a (by rw [hst]; rfl) with hl | hl
      · obtain ⟨o, hl⟩ := Option.isSome_iff_exists.mp hl
        rw [viewObject_of_find hl] at ho
        rw [hl, ← ho]
      · cases hf' : s.objects.find a with
        | some o =>
          rw [viewObject_of_find hf'] at ho
          exact ho
        | none =>
          rw [viewObject, hf', hl] at ho
          cases ho
    rw [HashMap.findD, hst]
    cases hk : st.committed.find key <;>
      simp only [MemoryBuffer.writtenSlots, hfind, Option.bind_some, hc, ↓reduceIte,
        Option.getD_some, hk]

/-- All code in the cache for a hash of the buffer is that of the buffer. -/
theorem Coherent.code_of_resolved (h : Coherent db keccak s) {codeHash : Bytes32}
    (hr : ∀ c, Caches s c → keccak c = codeHash → c = readCode db codeHash) {c : Bytes}
    (hc : s.code.find codeHash = some c) : c = readCode db codeHash := by
  rcases h.code codeHash c hc with hcode | hcode
  · exact hcode
  · exact hr c ⟨codeHash, hc⟩ hcode

theorem readCode_writeToDb_eq (h : Coherent db keccak s) (hdb : ResolvesCode db keccak s)
    (n : Uint64) {a : Address} {account : Account} (ha : viewAccount db s a = some account)
    (hne : account.codeHash ≠ kEmptyHash) :
    (s.writeToDb n db).1.readCode account.codeHash = viewCode db s account.codeHash := by
  obtain ⟨obj, ho, hc⟩ := Option.bind_eq_some_iff.mp ha
  have hobj := h.viewObject ho
  have hcoherent := hobj.current account hc
  rw [hobj.initial] at hcoherent
  cases hcoherent with
  | @loaded i hi hinc hh =>
    have hhash := hh.resolve_right hne
    have hresolved := (hdb a i hi).resolve_left (hhash ▸ hne)
    rw [← hhash] at hresolved
    have hview : viewCode db s account.codeHash = readCode db account.codeHash := by
      cases hfind : s.code.find account.codeHash with
      | none => rw [viewCode, HashMap.findD, hfind, Option.getD_none]
      | some c => rw [viewCode_of_find hfind, h.code_of_resolved hresolved hfind]
    rw [hview]
    rcases readCode_writeToDb (s := s) n db account.codeHash with hkept | hcreated
    · exact hkept
    · -- Another account with the same code was created in the block.
      obtain ⟨a', obj', account', ho', hc', hne', hinc', hhash'⟩ := hcreated
      have hcache : (s.code.find account'.codeHash).isSome := by
        cases (h.objects a' obj' ho').current account' hc' with
        | loaded hi' hinc'' _ => exact absurd (by rw [hi', hinc'']; rfl) hinc'
        | created _ _ hcode => exact hcode.resolve_left hne'
      obtain ⟨c, hcache⟩ := Option.isSome_iff_exists.mp hcache
      rw [hhash', readCode_writeToDb_of_created n ho' hc' hne' hinc', HashMap.findD, hcache,
        Option.getD_some]
      rw [hhash'] at hresolved
      exact h.code_of_resolved hresolved hcache
  | created hinc _ hh =>
    rw [← hobj.initial] at hinc
    obtain ⟨c, hcache⟩ := Option.isSome_iff_exists.mp (hh.resolve_left hne)
    have hfind : s.objects.find a = some obj := by
      cases hf : s.objects.find a with
      | some o =>
        rw [viewObject_of_find hf] at ho
        exact ho
      | none =>
        rw [viewObject, hf] at ho
        obtain ⟨i, -, rfl⟩ := Option.map_eq_some_iff.mp ho
        cases hc
        exact absurd rfl hinc
    rw [readCode_writeToDb_of_created n hfind hc hne hinc, viewCode_of_find hcache, HashMap.findD,
      hcache, Option.getD_some]

/-- A fresh state over the buffer reads what the state had. -/
theorem Coherent.sameReads (h : Coherent db keccak s) (hf : Finalized s)
    (hdb : ResolvesCode db keccak s) (n : Uint64) :
    SameReads db s (s.writeToDb n db).1 {} := by
  have haccount := viewAccount_writeToDb n db s
  refine {
    existsAccount := fun a => by rw [existsAccount_fst, existsAccount_fst, haccount]
    getBalance := fun a => ?_
    getNonce := fun a => ?_
    getCode := fun a => ?_
    getCodeHash := fun a => ?_
    getCurrentStorage := fun a key => ?_ }
  · rw [getBalance, getBalance, getObject_eq, getObject_eq]
    exact congrArg (fun x => (x.map Account.balance).getD 0) (haccount a)
  · rw [getNonce, getNonce, getObject_eq, getObject_eq]
    exact congrArg (fun x => (x.map Account.nonce).getD 0) (haccount a)
  · rw [(getCode_spec _ keccak a {}).1, (getCode_spec db keccak a s).1, haccount]
    cases ha : viewAccount db s a with
    | none => rfl
    | some account =>
      dsimp only
      split_ifs with hne
      · rfl
      · exact readCode_writeToDb_eq h hdb n ha hne
  · rw [getCodeHash, getCodeHash, getObject_eq, getObject_eq]
    exact congrArg (fun x => (x.map Account.codeHash).getD kEmptyHash) (haccount a)
  · rw [getCurrentStorage, getCurrentStorage, (getStorage_spec _ keccak a key false {}).1,
      (getStorage_spec db keccak a key false s).1, haccount]
    cases ha : viewAccount db s a with
    | none => rfl
    | some account =>
      simp only [Option.isSome_some, ↓reduceIte]
      rw [← readStorage_writeToDb_eq h hf n ha key]
      have hview : IntraBlockState.viewObject (s.writeToDb n db).1 ∅ a = some ⟨some account, some account⟩ := by
        have hread := haccount a
        rw [viewAccount_initial, ha] at hread
        change (readAccount (s.writeToDb n db).1 a).map _ = _
        rw [hread]
        rfl
      rw [viewStorage]
      change bufferedSlot _ (IntraBlockState.viewObject (s.writeToDb n db).1 ∅ a) a key = _
      rw [hview]
      exact if_pos rfl

end Commits

section Blocks

variable {db : MemoryBuffer} {keccak : Bytes → Bytes32}

/-- Balance is all that a reward changes. -/
def ChangesBalance : Operation → Prop
  | .setBalance _ _ | .addToBalance _ _ | .subtractFromBalance _ _ => True
  | _ => False

/-- The state at the end of a block: after its actions, of which the last one finalizes a
transaction, come the rewards. -/
def afterBlock {B : Type} [StateBuffer B] (db : B) (keccak : Bytes → Bytes32) (xs : List Action)
    (rewards : List Operation) : IntraBlockState :=
  rewards.foldl (fun s op => op.run db keccak s)
    (finalizeTransaction (xs.foldl (fun s x => x.run db keccak s) {}))

theorem ChangesBalance.storage {op : Operation} (h : ChangesBalance op) (s : IntraBlockState) :
    (op.run db keccak s).storage = s.storage := by
  have hsetter (a : Address) (f : Account → Account) :
      (touch a (updateObject db a f s)).storage = s.storage := by rw [touch_eq, updateObject_eq]
  cases op with
  | setBalance a value => exact hsetter a _
  | addToBalance a addend => exact hsetter a _
  | subtractFromBalance a subtrahend => exact hsetter a _
  | _ => cases h

theorem ChangesBalance.admissible {op : Operation} (h : ChangesBalance op) (s : IntraBlockState) :
    Admissible db s (.operation op) := by
  cases op with
  | createContract a => cases h
  | setCode a code => cases h
  | _ => trivial

theorem coherent_rewards {rewards : List Operation} {s : IntraBlockState}
    (hr : ∀ op ∈ rewards, ChangesBalance op) (h0 : ∀ a key, readStorage db a 0 key = default)
    (hs : Coherent db keccak s) (hf : Finalized s) :
    Coherent db keccak (rewards.foldl (fun s op => op.run db keccak s) s) ∧
      Finalized (rewards.foldl (fun s op => op.run db keccak s) s) := by
  induction rewards generalizing s with
  | nil => exact ⟨hs, hf⟩
  | cons op rewards ih =>
    have hop := hr op List.mem_cons_self
    refine ih (fun o ho => hr o (List.mem_cons_of_mem op ho)) ?_ fun a => ?_
    · exact op.coherent hs h0 (hop.admissible s)
    · rw [hop.storage]
      exact hf a

/-- The commit of a block can not be seen, if each code of the block that has the code hash of a
stored account is the one that the buffer returns. -/
theorem sameReads_writeToDb {xs : List Action} {rewards : List Operation}
    (hdb : ResolvesCode db keccak (afterBlock db keccak xs rewards))
    (h0 : ∀ a key, readStorage db a 0 key = default) (hx : AllAdmissible db keccak xs {})
    (hr : ∀ op ∈ rewards, ChangesBalance op) (n : Uint64) :
    SameReads db (afterBlock db keccak xs rewards)
      ((afterBlock db keccak xs rewards).writeToDb n db).1 {} := by
  have hactions := coherent_foldl coherent_initial h0 hx
  have hfinal := Action.finalizeTransaction.coherent hactions h0 trivial
  obtain ⟨hc, hf⟩ := coherent_rewards hr h0 hfinal (current_finalizeTransaction _)
  exact hc.sameReads hf hdb n

section Examples

private def carol : Address := FixedBytes.zero 20

private def dave : Address := FixedBytes.replicate 20 1

/-- Carol has a contract, whose code the buffer may lack. -/
private def contractOf (codeHash : Bytes32) (code : HashMap Bytes32 Bytes) : MemoryBuffer where
  accounts := HashMap.set ∅ carol { codeHash, incarnation := 1 }
  code := code

/-- Dave deploys a code. -/
private def codeDeployment (code : Bytes) : List Action :=
  [.operation (.createContract dave), .operation (.setCode dave code)]

private theorem admissible_deployment (keccak : Bytes → Bytes32) (db : MemoryBuffer) (code : Bytes)
    {xs : List Action} (hdb : db.accounts.find dave = none ∧ db.storage = ∅)
    (hx : AllAdmissible db keccak xs
      ((codeDeployment code).foldl (fun s x => x.run db keccak s) {})) :
    AllAdmissible db keccak (codeDeployment code ++ xs) {} := by
  have hview : viewObject db ∅ dave = none := by
    change (db.accounts.find dave).map _ = none
    rw [hdb.1]
    rfl
  have hcreated := viewObject_createContract_self db dave {}
  rw [hview] at hcreated
  have hb : CreatedInBlock db (createContract db dave {}) dave := by
    refine ⟨{ incarnation := followedIncarnation db dave none + 1 }, ?_, ?_⟩
    · rw [viewAccount, hcreated]
      rfl
    · rw [hcreated]
      rintro ⟨⟩
  refine ⟨⟨?_, fun key => ?_⟩, hb, hx⟩
  · rw [hview]
    rintro ⟨⟩
  · change (db.storage.find dave _ key).getD default = default
    rw [hdb.2]
    rfl

/-- Dave deploys the code of Carol, writes to his storage and gets a reward. All codes that are
not empty have the same hash, but no other one is set. -/
theorem sameReads_writeToDb_deployment :
    let keccak : Bytes → Bytes32 := fun c => if c = [] then kEmptyHash else default
    let db := contractOf default (HashMap.set ∅ default [0])
    let s := afterBlock db keccak
      (codeDeployment [0] ++ [.operation (.setStorage dave default kEmptyHash)]) [.addToBalance dave 2]
    (getCode db dave s).1 = [0] ∧ (getCurrentStorage db dave default s).1 = kEmptyHash ∧
      SameReads db s (s.writeToDb 1 db).1 {} := by
  intro keccak db s
  have hdb : ResolvesCode db keccak s := by
    intro a account ha
    refine .inr fun c hcached _ => ?_
    have hcode : c = [0] := hcached.eq_of_tryEmplace (t := s) (h := default) rfl
    subst hcode
    change (HashMap.set ∅ carol _).find a = some account at ha
    rw [HashMap.find_set] at ha
    split_ifs at ha
    · cases ha
      decide
    · cases ha
  refine ⟨by decide, by decide, sameReads_writeToDb hdb (fun _ _ => rfl) ?_ ?_ 1⟩
  · exact admissible_deployment keccak db [0] ⟨by decide, rfl⟩ ⟨trivial, trivial⟩
  · intro op hop
    cases List.mem_singleton.mp hop
    trivial

/-- Carol's code is not in the buffer. Dave deploys it and destroys his contract, after which
the code can still be seen until the commit. -/
theorem not_sameReads_writeToDb_lostCode :
    ¬∃ keccak : Bytes → Bytes32, keccak [0] ≠ kEmptyHash ∧
      ∀ (db : MemoryBuffer) (xs : List Action) (rewards : List Operation) (n : Uint64),
        (∀ a key, readStorage db a 0 key = default) → AllAdmissible db keccak xs {} →
        (∀ op ∈ rewards, ChangesBalance op) →
        SameReads db (afterBlock db keccak xs rewards)
          ((afterBlock db keccak xs rewards).writeToDb n db).1 {} := by
  rintro ⟨keccak, hne, hclaim⟩
  let db := contractOf (keccak [0]) ∅
  let xs := codeDeployment [0] ++ [.operation (.recordSuicide dave), .destructSuicides]
  have hx : AllAdmissible db keccak xs {} :=
    admissible_deployment keccak db [0] ⟨rfl, rfl⟩ ⟨trivial, trivial, trivial⟩
  have hcode := (hclaim db xs [] 1 (fun _ _ => rfl) hx nofun).getCode carol
  have haccount : viewAccount db (afterBlock db keccak xs []) carol =
      some { codeHash := keccak [0], incarnation := 1 } := rfl
  have hcache : (afterBlock db keccak xs []).code.find (keccak [0]) = some [0] := by
    change (HashMap.tryEmplace ∅ (keccak [0]) [0]).find (keccak [0]) = some [0]
    rw [HashMap.tryEmplace, HashMap.find_empty]
    exact HashMap.find_set_self ..
  rw [(getCode_spec _ keccak carol {}).1, (getCode_spec db keccak carol _).1,
    viewAccount_writeToDb, haccount] at hcode
  simp only [hne, ↓reduceIte, viewCode_of_find hcache] at hcode
  change ([] : Bytes) = [0] at hcode
  cases hcode

end Examples

end Blocks

end Silkworm.IntraBlockState
