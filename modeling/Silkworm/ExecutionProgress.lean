import Silkworm.ExecutionStage
import Silkworm.RecordedChanges
import Silkworm.Runs

/-!
# The progress of the execution

A call is meant to leave the effects of the blocks from its first one to the last one that it
reports. It does so unless it comes to a missing block after other blocks, whose changes are then
not written although they are reported.
-/

namespace Silkworm.Db
open SortedTables Rlp

section Effects

variable (engine : Engine) (c : ExecuteCall)

/-- The blocks of so many consecutive numbers. -/
def executeNumbers (config : ChainConfig) : ℕ → Uint64 → Buffer → Option Buffer
  | 0, _, b => some b
  | n + 1, blockNumber, b =>
    match executeNumber engine c config blockNumber b with
    | some (.ok b) => executeNumbers config n (blockNumber + 1) b
    | _ => none

/-- The loop gets over so many blocks, after each of which the buffer is not full. -/
inductive Buffered (config : ChainConfig) (startBlock : Uint64) (tables : Tables) :
    ℕ → Buffer → Prop
  | start : Buffered config startBlock tables 0 { txn := some tables }
  | block {n : ℕ} {b b' : Buffer} (h : Buffered config startBlock tables n b)
      (hmax : ¬c.maxBlock < startBlock + BitVec.ofNat 64 n)
      (hexec : executeNumber engine c config (startBlock + BitVec.ofNat 64 n) b = some (.ok b'))
      (hbatch : ¬c.batchSize ≤ b'.batchSize) : Buffered config startBlock tables (n + 1) b'

end Effects

section Loops

variable {engine : Engine} {c : ExecuteCall} {config : ChainConfig} {startBlock : Uint64}
  {tables : Tables}

/-- The last of so many blocks. -/
def lastOf (startBlock : Uint64) : ℕ → Option Uint64
  | 0 => none
  | n + 1 => some (startBlock + BitVec.ofNat 64 n)

theorem add_ofNat_succ (startBlock : Uint64) (n : ℕ) :
    startBlock + BitVec.ofNat 64 n + 1 = startBlock + BitVec.ofNat 64 (n + 1) := by
  rw [BitVec.add_assoc]
  congr 1
  exact (BitVec.ofNat_add n 1).symm

theorem executeNumbers_add (m n : ℕ) (blockNumber : Uint64) (b : Buffer) :
    executeNumbers engine c config (n + m) blockNumber b =
      (executeNumbers engine c config n blockNumber b).bind
        (executeNumbers engine c config m (blockNumber + BitVec.ofNat 64 n)) := by
  induction n generalizing blockNumber b with
  | zero => simp [executeNumbers]
  | succ n ih =>
    rw [Nat.succ_add, executeNumbers, executeNumbers]
    split
    · rw [ih, BitVec.add_assoc, BitVec.add_comm 1, ← add_ofNat_succ, BitVec.add_assoc]
    · rfl

theorem executeNumbers_succ {n : ℕ} {b b' : Buffer} {status : Except SilkwormStatusCode Buffer}
    (h : executeNumbers engine c config n startBlock b = some b')
    (hexec : executeNumber engine c config (startBlock + BitVec.ofNat 64 n) b' = some status) :
    executeNumbers engine c config (n + 1) startBlock b = status.toOption := by
  rw [executeNumbers_add, h, Option.bind_some, executeNumbers, hexec]
  cases status <;> rfl

theorem Buffered.executeNumbers {n : ℕ} {b : Buffer}
    (h : Buffered engine c config startBlock tables n b) :
    executeNumbers engine c config n startBlock { txn := some tables } = some b := by
  induction h with
  | start => rfl
  | block h _ hexec _ ih => exact executeNumbers_succ ih hexec

/-- The loop when it has got over the blocks. -/
theorem Buffered.executeLoop {n : ℕ} {b : Buffer}
    (h : Buffered engine c config startBlock tables n b) (rounds : ℕ) :
    executeLoop engine c config tables (rounds + n) startBlock none { txn := some tables } =
      executeLoop engine c config tables rounds (startBlock + BitVec.ofNat 64 n)
        (lastOf startBlock n) b := by
  induction h generalizing rounds with
  | start => simp [lastOf]
  | block h hmax hexec hbatch ih =>
    rw [← Nat.succ_add_eq_add_succ, ih, Db.executeLoop, if_neg hmax, hexec]
    simp only [bind, Option.bind_some, if_neg hbatch]
    rw [add_ofNat_succ]
    rfl

/-- A loop that does not go up to the last number there is has rounds enough. -/
theorem executeLoop_isSome (hmax : c.maxBlock.toNat + 1 < 2 ^ 64)
    (htotal : ∀ n b, (executeNumber engine c config n b).isSome) {rounds : ℕ} {blockNumber : Uint64}
    (hrounds : c.maxBlock.toNat + 1 - blockNumber.toNat < rounds) (last : Option Uint64) (b : Buffer) :
    (executeLoop engine c config tables rounds blockNumber last b).isSome := by
  induction rounds generalizing blockNumber last b with
  | zero => exact absurd hrounds (Nat.not_lt_zero _)
  | succ rounds ih =>
    rw [executeLoop]
    split_ifs with hlt
    · rfl
    · obtain ⟨outcome, hexec⟩ := Option.isSome_iff_exists.mp (htotal blockNumber b)
      simp only [hexec, bind, Option.bind_some]
      cases outcome with
      | error status => rfl
      | ok b' =>
        dsimp only
        split_ifs
        · rfl
        · apply ih
          have hle : blockNumber.toNat ≤ c.maxBlock.toNat := Nat.not_lt.mp hlt
          have hsucc : (blockNumber + 1).toNat = blockNumber.toNat + 1 := by
            rw [BitVec.toNat_add]
            exact Nat.mod_eq_of_lt (by simp; omega)
          omega

/-- How the loop ends after so many blocks. -/
inductive Ends (engine : Engine) (c : ExecuteCall) (config : ChainConfig) (startBlock : Uint64)
    (tables : Tables) (n : ℕ) (b : Buffer) : CallResult → Prop
  | reached (hmax : c.maxBlock < startBlock + BitVec.ofNat 64 n) :
      Ends engine c config startBlock tables n b
        ⟨.success, lastOf startBlock n, b.flush tables⟩
  | full {b' : Buffer}
      (hexec : executeNumber engine c config (startBlock + BitVec.ofNat 64 n) b = some (.ok b')) :
      Ends engine c config startBlock tables n b
        ⟨.success, lastOf startBlock (n + 1), b'.flush tables⟩
  | failed {status : SilkwormStatusCode} (hmax : ¬c.maxBlock < startBlock + BitVec.ofNat 64 n)
      (hexec : executeNumber engine c config (startBlock + BitVec.ofNat 64 n) b =
        some (.error status)) :
      Ends engine c config startBlock tables n b ⟨status, lastOf startBlock n, tables⟩

theorem Buffered.ends {n rounds : ℕ} {b : Buffer} {result : CallResult}
    (h : Buffered engine c config startBlock tables n b)
    (hloop : Db.executeLoop engine c config tables rounds (startBlock + BitVec.ofNat 64 n)
      (lastOf startBlock n) b = some result) :
    ∃ m b', m < n + rounds ∧ Buffered engine c config startBlock tables m b' ∧
      Ends engine c config startBlock tables m b' result := by
  induction rounds generalizing n b with
  | zero => cases hloop
  | succ rounds ih =>
    rw [Db.executeLoop] at hloop
    split_ifs at hloop with hmax
    · cases hloop
      exact ⟨n, b, by omega, h, .reached hmax⟩
    · obtain ⟨outcome, hexec, hloop⟩ := Option.bind_eq_some_iff.mp hloop
      cases outcome with
      | error status =>
        cases hloop
        exact ⟨n, b, by omega, h, .failed hmax hexec⟩
      | ok b' =>
        dsimp only at hloop
        split_ifs at hloop with hbatch
        · cases hloop
          exact ⟨n, b, by omega, h, .full hexec⟩
        · rw [add_ofNat_succ] at hloop
          obtain ⟨m, b'', hm, h', hends⟩ := ih (.block h hmax hexec hbatch) hloop
          exact ⟨m, b'', by omega, h', hends⟩

end Loops

section Effects

variable {engine : Engine} {c : ExecuteCall} {config : ChainConfig} {startBlock : Uint64}
  {tables : Tables} {result : CallResult}

end Effects

section Programs

variable (engine : Engine)

def CommitStep (db : Committed) (c : ExecuteCall) (db' : Committed) : Prop :=
  ∃ status, callAndCommit engine db c = some (status, db')

/-- The chain of a call is a part of another one. -/
structure ExecuteCall.ReadsFrom (c whole : ExecuteCall) : Prop where
  chainId : c.chainId = whole.chainId
  writeReceipts : c.writeReceipts = whole.writeReceipts
  block : ∀ n block, readBlock c.chain n = pure (some block) →
    readBlock whole.chain n = pure (some block)

variable {engine} {c whole : ExecuteCall} {db db' first : Committed} {cs : List ExecuteCall}

/-- A block that is executed with a part of the chain is executed with the whole. -/
theorem ExecuteCall.ReadsFrom.executeNumber (h : c.ReadsFrom whole) {config : ChainConfig}
    {blockNumber : Uint64} {b b' : Buffer}
    (hexec : executeNumber engine c config blockNumber b = some (.ok b')) :
    executeNumber engine whole config blockNumber b = some (.ok b') := by
  obtain ⟨outcome, hread, hrest⟩ := Option.bind_eq_some_iff.mp hexec
  cases outcome with
  | error e => cases hrest
  | ok block =>
    cases block with
    | none => cases hrest
    | some block =>
      refine Option.bind_eq_some_iff.mpr ⟨.ok (some block), h.block blockNumber block hread, ?_⟩
      simpa only [h.writeReceipts] using hrest

theorem ExecuteCall.ReadsFrom.executeNumbers (h : c.ReadsFrom whole) {config : ChainConfig} {n : ℕ}
    {blockNumber : Uint64} {b b' : Buffer}
    (hexec : executeNumbers engine c config n blockNumber b = some b') :
    executeNumbers engine whole config n blockNumber b = some b' := by
  induction n generalizing blockNumber b with
  | zero => exact hexec
  | succ n ih =>
    rw [Db.executeNumbers] at hexec ⊢
    split at hexec
    · rename_i b'' hone
      rw [h.executeNumber hone]
      exact ih hexec
    · cases hexec

/-- The commits of the program are a run. -/
theorem exists_run_of_executeProgram {rounds : ℕ} (h : executeProgram engine c rounds db = some db') :
    ∃ n, Run (CommitStep engine) db (List.replicate n c) db' := by
  induction rounds generalizing db with
  | zero => cases h
  | succ rounds ih =>
    rw [executeProgram] at h
    split_ifs at h with hmax
    · cases h
      exact ⟨0, .nil _⟩
    · obtain ⟨⟨status, next⟩, hstep, h⟩ := Option.bind_eq_some_iff.mp h
      dsimp only at h
      split_ifs at h with hs
      · obtain ⟨n, hrun⟩ := ih h
        exact ⟨n + 1, .cons ⟨status, hstep⟩ hrun⟩
      · cases h
        exact ⟨1, .cons ⟨status, hstep⟩ (.nil _)⟩

end Programs

section Examples

def idleEngine : Engine where
  keccak _ := default
  precompiledGas _ _ _ := 0
  precompiledRun _ _ := none
  daoChildren := []
  daoWithdraw := default
  interpreter _ _ _ _ := none
  cbor := ⟨[], fun _ => [], fun _ => [], id⟩

end Examples

end Silkworm.Db
