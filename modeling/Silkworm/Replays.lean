import Silkworm.Runs
import Silkworm.SenderNonces

/-!
# Replayed transactions

Blocks are executed and written one after the other. The transactions of an account without code
have consecutive nonces, so that none of them is executed twice.
-/

namespace Silkworm

namespace ExecutionProcessor
open StateBuffer IntraBlockState Evm

variable {B : Type} [StateBuffer B]

section Payments

variable {db : B} {I : IntraBlockState → Prop} {s : IntraBlockState}

theorem keeps_applyRewards (h : KeptByPayments db I) (x : ExecutionContext) (hs : I s) :
    I (applyRewards x db s) := by
  rw [applyRewards_eq]
  generalize rewards x = l
  induction l generalizing s with
  | nil => exact hs
  | cons e l ih => exact ih (h.addToBalance e.1 e.2 hs)

theorem keeps_transferBalances (h : KeptByPayments db I) (x : ExecutionContext) (hs : I s) :
    I (transferBalances x db s) := by
  rw [transferBalances]
  generalize x.daoChildren = as
  induction as generalizing s with
  | nil => exact hs
  | cons a as ih =>
    have hread := h.same (sameAccounts_getBalance db a s) hs
    rw [List.foldl_cons]
    dsimp only
    generalize getBalance db a s = y at hread ⊢
    exact ih (h.setBalance a 0 (h.addToBalance x.daoWithdraw y.1 hread))

end Payments

section Events

/-- The processor before the first transaction of a block. -/
def enter (x : ExecutionContext) (db : B) : ExecutionProcessor :=
  { ({} : ExecutionProcessor).setState (if some x.block.header.number = x.config.daoBlock then
      transferBalances x db {} else {}) with cumulativeGasUsed := 0 }

variable (B) in
/-- A chain while a block is executed. -/
structure Chain where
  context : ExecutionContext
  db : B
  processor : ExecutionProcessor

inductive ChainEvent
  | transaction (txn : Transaction) (b : Behaviour)
  | block (next : ExecutionContext)

/-- A transaction is checked and executed. A block is rewarded and written, and the next one is
entered. -/
def Chain.step (c : Chain B) : ChainEvent → Option (Chain B)
  | .transaction txn b => do
    let (err, p) := validateTransaction c.context c.db txn c.processor
    if err ≠ .ok then none
    else do
      let (_, p) ← executeTransaction c.context c.db txn (b.runWatched .own c.context.evm c.db) p
      some { c with processor := p }
  | .block next =>
    let s := applyRewards c.context c.db c.processor.state
    let db := (s.writeToDb c.context.block.header.number c.db).1
    some ⟨next, db, enter next db⟩

abbrev ChainRun (B : Type) [StateBuffer B] : Chain B → List ChainEvent → Chain B → Prop :=
  Run fun c e c' => c.step e = some c'

def ChainEvent.nonceOf (a : Address) : ChainEvent → Option Uint64
  | .transaction txn _ => if txn.sender = some a then some txn.nonce else none
  | .block _ => none

def noncesOf (a : Address) (es : List ChainEvent) : List Uint64 := es.filterMap (·.nonceOf a)

/-- What a block and the behaviour of its transactions do to the buffer. -/
def commitBlock (db : B) (e : ExecutionContext × (ℕ → Behaviour)) : Option B := do
  let ((_, err), q) ← executeBlock e.1 db (fun i => (e.2 i).runWatched .own e.1.evm db) {}
  if err ≠ .ok then none else some (q.state.writeToDb e.1.block.header.number db).1

def transactionEvents (b : ℕ → Behaviour) : List Transaction → ℕ → List ChainEvent
  | [], _ => []
  | txn :: txns, i => .transaction txn (b i) :: transactionEvents b txns (i + 1)

/-- The blocks of a chain after the one that has been entered. -/
def blockEvents (last : ExecutionContext) :
    List (ExecutionContext × (ℕ → Behaviour)) → List ChainEvent
  | [] => []
  | e :: es => transactionEvents e.2 e.1.block.transactions 0 ++
      .block ((es.head?.map Prod.fst).getD last) :: blockEvents last es

def entered (last : ExecutionContext) (db : B) (es : List (ExecutionContext × (ℕ → Behaviour))) :
    Chain B :=
  ⟨(es.head?.map Prod.fst).getD last, db, enter ((es.head?.map Prod.fst).getD last) db⟩

theorem run_of_executeTransactions {x : ExecutionContext} {db : B} {b : ℕ → Behaviour}
    {txns : List Transaction} {i : ℕ} {receipts receipts' : List Receipt}
    {p q : ExecutionProcessor}
    (h : executeTransactions x db (fun i => (b i).runWatched .own x.evm db) txns i receipts p =
      some ((receipts', .ok), q)) :
    ChainRun B ⟨x, db, p⟩ (transactionEvents b txns i) ⟨x, db, q⟩ := by
  induction txns generalizing i receipts p with
  | nil =>
    cases h
    exact .nil _
  | cons txn txns ih =>
    rw [executeTransactions] at h
    cases hv : validateTransaction x db txn p with
    | mk err p₁ =>
      rw [hv] at h
      dsimp only at h
      split_ifs at h with herr
      · cases h
        exact absurd rfl herr
      · obtain ⟨⟨receipt, p₂⟩, htxn, h⟩ := Option.bind_eq_some_iff.mp h
        refine .cons ?_ (ih h)
        rw [Chain.step, hv]
        dsimp only
        rw [if_neg herr, htxn]
        rfl

/-- The blocks that are committed are a run of the chain. -/
theorem run_of_commitBlocks {last : ExecutionContext} {db db' : B}
    {es : List (ExecutionContext × (ℕ → Behaviour))} (h : es.foldlM commitBlock db = some db') :
    ChainRun B (entered last db es) (blockEvents last es) (entered last db' []) := by
  induction es generalizing db with
  | nil =>
    cases h
    exact .nil _
  | cons e es ih =>
    rw [List.foldlM_cons] at h
    obtain ⟨db₁, hcommit, h⟩ := Option.bind_eq_some_iff.mp h
    obtain ⟨⟨⟨receipts, err⟩, q⟩, hq, hcommit⟩ := Option.bind_eq_some_iff.mp hcommit
    dsimp only at hcommit
    split_ifs at hcommit with herr
    rw [not_not.mp herr] at hq
    cases hcommit
    obtain ⟨⟨⟨receipts', err'⟩, p⟩, hp, hq⟩ := Option.bind_eq_some_iff.mp hq
    dsimp only at hq
    split_ifs at hq with herr'
    · cases hq
      exact absurd rfl herr'
    rw [not_not.mp herr'] at hp
    cases hq
    have hblock := run_of_executeTransactions hp
    exact hblock.append (.cons rfl (ih h))

end Events

section Nonces

variable {a : Address} {n : Uint64} {c c' : Chain B} {e : ChainEvent} {es : List ChainEvent}
  {x : ExecutionContext} {db : B}

theorem keeps_enter {I : IntraBlockState → Prop} (hI : KeptByPayments db I) (h : I {}) :
    I (enter x db).state := by
  change I (if some x.block.header.number = x.config.daoBlock then transferBalances x db {} else {})
  split_ifs
  · exact keeps_transferBalances hI x h
  · exact h

variable (a n) in
/-- The account is settled, and the buffer has what the accounts were before the block. -/
structure Chain.Holds (c : Chain B) : Prop where
  settled : Settled c.db a n c.processor.state
  starts : StartsFrom c.db c.processor.state

theorem startsFrom_enter (x : ExecutionContext) (db : B) : StartsFrom db (enter x db).state :=
  keeps_enter (startsFrom_frameInvariant db x.evm).toKeptByPayments (startsFrom_empty db)

/-- An account of the buffer is settled when a block is entered. -/
theorem settled_enter (x : ExecutionContext) {db : B}
    (hnonce : ((readAccount db a).getD {}).nonce = n)
    (hcode : ((readAccount db a).getD {}).codeHash = kEmptyHash) :
    Settled db a n (enter x db).state := by
  refine keeps_enter (settled_keptByPayments db a n) ⟨?_, ?_⟩
  · rw [viewAccount_initial]
    exact hnonce
  · rw [viewAccount_initial]
    exact hcode

theorem Chain.step_transaction {txn : Transaction} {b : Behaviour}
    (h : c.step (.transaction txn b) = some c') : ∃ p receipt q,
      validateTransaction c.context c.db txn c.processor = (.ok, p) ∧
      executeTransaction c.context c.db txn (b.runWatched .own c.context.evm c.db) p =
        some (receipt, q) ∧ c' = { c with processor := q } := by
  rw [Chain.step] at h
  cases hv : validateTransaction c.context c.db txn c.processor with
  | mk err p =>
    rw [hv] at h
    dsimp only at h
    split_ifs at h with herr
    obtain ⟨⟨receipt, q⟩, hq, h⟩ := Option.bind_eq_some_iff.mp h
    exact ⟨p, receipt, q, by rw [not_not.mp herr], hq, (Option.some.inj h).symm⟩

theorem startsFrom_step (hs : StartsFrom c.db c.processor.state) (h : c.step e = some c') :
    StartsFrom c'.db c'.processor.state := by
  cases e with
  | transaction txn b =>
    obtain ⟨p, receipt, q, hv, hq, rfl⟩ := Chain.step_transaction h
    exact startsFrom_executeTransaction hs hv hq
  | block next =>
    cases h
    exact startsFrom_enter _ _

theorem startsFrom_run (h : ChainRun B ⟨x, db, enter x db⟩ es c) :
    StartsFrom c.db c.processor.state :=
  Run.preserves (P := fun c : Chain B => StartsFrom c.db c.processor.state)
    (fun _ _ _ hs hstep => startsFrom_step hs hstep) h (startsFrom_enter x db)

variable [LawfulAccounts B]

/-- One event: a transaction of the account has its nonce, which it increases by one. -/
theorem Chain.Holds.step (hc : c.Holds a n) (hn : e.nonceOf a = none → n ≠ 0)
    (hsucc : e.nonceOf a ≠ none → n + 1 ≠ 0) (h : c.step e = some c') :
    (∀ nonce, e.nonceOf a = some nonce → nonce = n) ∧
      c'.Holds a (if e.nonceOf a = none then n else n + 1) := by
  have hstarts := startsFrom_step hc.starts h
  cases e with
  | transaction txn b =>
    obtain ⟨p, receipt, q, hv, hq, rfl⟩ := Chain.step_transaction h
    by_cases ha : txn.sender = some a
    · simp only [ChainEvent.nonceOf, if_pos ha] at hsucc ⊢
      obtain ⟨hnonce, hsettled⟩ := settled_executeTransaction hc.settled
        (fun hne => absurd ha hne) (fun _ => hsucc nofun) hv hq
      rw [if_pos ha] at hsettled
      refine ⟨fun nonce heq => (Option.some.inj heq).symm.trans (hnonce ha), ?_⟩
      rw [if_neg nofun]
      exact ⟨hsettled, hstarts⟩
    · simp only [ChainEvent.nonceOf, if_neg ha] at hn ⊢
      obtain ⟨-, hsettled⟩ := settled_executeTransaction hc.settled (fun _ => hn trivial)
        (fun heq => absurd heq ha) hv hq
      rw [if_neg ha] at hsettled
      exact ⟨nofun, hsettled, hstarts⟩
  | block next =>
    cases h
    refine ⟨nofun, ?_, hstarts⟩
    have hsettled := keeps_applyRewards (settled_keptByPayments c.db a n) c.context hc.settled
    have hrewarded := keeps_applyRewards (startsFrom_frameInvariant c.db
      c.context.evm).toKeptByPayments c.context hc.starts
    have hread := readAccount_writeToDb hrewarded c.context.block.header.number a
    refine settled_enter next ?_ ?_
    · rw [hread]
      exact hsettled.nonce
    · rw [hread]
      exact hsettled.codeHash

theorem noncesOf_cons (a : Address) (e : ChainEvent) (es : List ChainEvent) :
    noncesOf a (e :: es) = (e.nonceOf a).toList ++ noncesOf a es := by
  rw [noncesOf, List.filterMap_cons]
  cases e.nonceOf a <;> rfl

theorem add_ofNat_add (n : Uint64) (i : ℕ) :
    n + 1 + BitVec.ofNat 64 i = n + BitVec.ofNat 64 (i + 1) := by
  rw [BitVec.add_assoc, BitVec.ofNat_add, BitVec.add_comm (BitVec.ofNat 64 i)]
  rfl

/-- By induction over a run: the nonces of a settled account are consecutive. -/
theorem Chain.Holds.run (h : ChainRun B c es c') (hc : c.Holds a n) (hn : n ≠ 0)
    (hfits : n.toNat + (noncesOf a es).length < 2 ^ 64) :
    noncesOf a es = (List.range (noncesOf a es).length).map (fun i => n + BitVec.ofNat 64 i) ∧
      c'.Holds a (n + BitVec.ofNat 64 (noncesOf a es).length) := by
  induction h generalizing n with
  | nil c => exact ⟨rfl, by simpa [noncesOf] using hc⟩
  | @cons c c₁ c' e es h tail ih =>
    rw [noncesOf_cons] at hfits ⊢
    have hsucc (hne : e.nonceOf a ≠ none) : n.toNat + 1 < 2 ^ 64 := by
      obtain ⟨nonce, hnonce⟩ := Option.ne_none_iff_exists'.mp hne
      rw [hnonce, List.length_append] at hfits
      simp only [Option.toList_some, List.length_singleton] at hfits
      omega
    have hne (hlt : n.toNat + 1 < 2 ^ 64) : n + 1 ≠ 0 := by
      intro hzero
      have heq := congrArg BitVec.toNat hzero
      rw [BitVec.toNat_add, Nat.mod_eq_of_lt (by exact hlt)] at heq
      cases heq
    obtain ⟨hnonce, hc₁⟩ := hc.step (fun _ => hn) (fun hsome => hne (hsucc hsome)) h
    cases he : e.nonceOf a with
    | none =>
      rw [he] at hfits
      simp only [he, if_true] at hc₁
      simpa using ih hc₁ hn (by simpa using hfits)
    | some nonce =>
      have hlt : n.toNat + 1 < 2 ^ 64 := hsucc (by rw [he]; nofun)
      have hsum : (n + 1).toNat = n.toNat + 1 := by
        rw [BitVec.toNat_add]
        exact Nat.mod_eq_of_lt hlt
      rw [he, List.length_append] at hfits
      rw [he, if_neg nofun] at hc₁
      simp only [Option.toList_some, List.length_singleton] at hfits
      obtain ⟨hrest, hc'⟩ := ih hc₁ (hne hlt) (by omega)
      rw [hnonce nonce he]
      simp only [Option.toList_some, List.singleton_append, List.length_cons]
      rw [← add_ofNat_add]
      refine ⟨?_, hc'⟩
      rw [List.range_succ_eq_map, List.map_cons, List.map_map]
      congr 1
      · simp
      · refine hrest.trans (List.map_congr_left fun i _ => ?_)
        exact add_ofNat_add n i

end Nonces

section Blocks

/-- The transactions of an account in some blocks. -/
def sentBy (a : Address) (es : List (ExecutionContext × (ℕ → Behaviour))) : List Transaction :=
  es.flatMap fun e => e.1.block.transactions.filter fun txn => txn.sender = some a

theorem noncesOf_transactionEvents (a : Address) (b : ℕ → Behaviour) (txns : List Transaction)
    (i : ℕ) : noncesOf a (transactionEvents b txns i) =
      (txns.filter fun txn => txn.sender = some a).map Transaction.nonce := by
  induction txns generalizing i with
  | nil => rfl
  | cons txn txns ih =>
    rw [transactionEvents, noncesOf_cons, ih, List.filter_cons]
    by_cases ha : txn.sender = some a
    · simp [ChainEvent.nonceOf, ha]
    · simp [ChainEvent.nonceOf, ha]

theorem noncesOf_blockEvents (a : Address) (last : ExecutionContext)
    (es : List (ExecutionContext × (ℕ → Behaviour))) :
    noncesOf a (blockEvents last es) = (sentBy a es).map Transaction.nonce := by
  induction es with
  | nil => rfl
  | cons e es ih =>
    have happend (l l' : List ChainEvent) : noncesOf a (l ++ l') = noncesOf a l ++ noncesOf a l' :=
      List.filterMap_append
    rw [blockEvents, happend, noncesOf_transactionEvents, noncesOf_cons, ih, sentBy, sentBy,
      List.flatMap_cons, List.map_append]
    rfl

variable {a : Address} {db db' : B} [LawfulAccounts B]

/-- The transactions of an account without code, through any number of blocks: their nonces are
consecutive from that of the account on, which ends with the next one. -/
theorem nonces_of_commitBlocks {es : List (ExecutionContext × (ℕ → Behaviour))} {account : Account}
    (h : es.foldlM commitBlock db = some db') (ha : readAccount db a = some account)
    (hcode : account.codeHash = kEmptyHash) (hn : account.nonce ≠ 0)
    (hfits : account.nonce.toNat + (sentBy a es).length < 2 ^ 64) :
    (sentBy a es).map Transaction.nonce = (List.range (sentBy a es).length).map
      (fun i => account.nonce + BitVec.ofNat 64 i) ∧
    ∃ account', readAccount db' a = some account' ∧ account'.codeHash = kEmptyHash ∧
      account'.nonce = account.nonce + BitVec.ofNat 64 (sentBy a es).length := by
  -- which context follows the last block does not matter: one without the DAO fork will do
  let last : ExecutionContext :=
    { config := {}, block := {}, keccak := fun _ => default, precompiledGas := fun _ _ _ => 0,
      precompiledRun := fun _ _ => none, daoChildren := [], daoWithdraw := default }
  have hrun : ChainRun B (entered last db es) (blockEvents last es) (entered last db' []) :=
    run_of_commitBlocks h
  have hnonces := noncesOf_blockEvents a last es
  have hlength : (noncesOf a (blockEvents last es)).length = (sentBy a es).length := by
    rw [hnonces, List.length_map]
  have hentered : (entered last db es).Holds a account.nonce := by
    refine ⟨settled_enter _ ?_ ?_, startsFrom_enter _ _⟩
    · exact congrArg (fun account => (account.getD {}).nonce) ha
    · exact (congrArg (fun account => (account.getD {}).codeHash) ha).trans hcode
  rw [← hlength] at hfits ⊢
  obtain ⟨hconsecutive, hend⟩ := hentered.run hrun hn hfits
  refine ⟨hnonces ▸ hconsecutive, ?_⟩
  have hview : viewAccount db' (enter last db').state a = readAccount db' a :=
    viewAccount_initial db' a
  have hfits' : account.nonce + BitVec.ofNat 64 (noncesOf a (blockEvents last es)).length ≠ 0 := by
    intro hzero
    have hsum := congrArg BitVec.toNat hzero
    rw [BitVec.toNat_add, BitVec.toNat_ofNat, Nat.add_mod_mod, Nat.mod_eq_of_lt hfits] at hsum
    exact hn (BitVec.eq_of_toNat_eq (Nat.eq_zero_of_add_eq_zero_right hsum))
  obtain ⟨account', hview', hnonce', hcode'⟩ := hend.settled.exists_account hfits'
  exact ⟨account', hview.symm.trans hview', hcode', hnonce'⟩

/-- After a transaction of an account without code the account never uses its nonce again, whatever
it was, in this block or in a later one. -/
theorem nonce_lt_of_chainRun {x : ExecutionContext} {es es' : List ChainEvent} {c c' : Chain B}
    {txn : Transaction} {b : Behaviour} (h : ChainRun B ⟨x, db, enter x db⟩ es c)
    (h' : ChainRun B c (.transaction txn b :: es') c') (ha : txn.sender = some a)
    (hcode : (IntraBlockState.getCodeHash c.db a c.processor.state).1 = kEmptyHash)
    (hfits : txn.nonce.toNat + (noncesOf a es').length + 1 < 2 ^ 64) :
    ∀ nonce ∈ noncesOf a es', txn.nonce < nonce := by
  have hstarts := startsFrom_run h
  have hsettled : c.Holds a (getNonce c.db a c.processor.state).1 := by
    refine ⟨⟨(getNonce_eq_nonce c.db a _).symm, ?_⟩, hstarts⟩
    rw [getCodeHash_fst] at hcode
    cases hview : viewAccount c.db c.processor.state a with
    | none => rfl
    | some account =>
      rw [hview] at hcode
      exact hcode
  cases h' with
  | cons hstep tail =>
    have hnonceOf : ChainEvent.nonceOf a (.transaction txn b) = some txn.nonce := if_pos ha
    have hsum : (txn.nonce + 1).toNat = txn.nonce.toNat + 1 := by
      rw [BitVec.toNat_add]
      exact Nat.mod_eq_of_lt (show txn.nonce.toNat + 1 < 2 ^ 64 by omega)
    have hsucc : txn.nonce + 1 ≠ 0 := by
      intro hzero
      rw [hzero] at hsum
      exact absurd hsum (Nat.succ_ne_zero _).symm
    -- the transaction has been accepted, so that its nonce is that of the account
    have hnonce : (getNonce c.db a c.processor.state).1 = txn.nonce := by
      obtain ⟨p, -, -, hv, -⟩ := Chain.step_transaction hstep
      obtain ⟨sender, hsender, hnonce, -⟩ := validateTransaction_eq_ok hv
      cases hsender.symm.trans ha
      exact hnonce
    rw [hnonce] at hsettled
    obtain ⟨-, hnext⟩ := hsettled.step (fun hnone => by rw [hnonceOf] at hnone; cases hnone)
      (fun _ => hsucc) hstep
    rw [hnonceOf, if_neg nofun] at hnext
    obtain ⟨hconsecutive, -⟩ := hnext.run tail hsucc (by omega)
    intro nonce hin
    rw [hconsecutive] at hin
    obtain ⟨i, hi, rfl⟩ := List.mem_map.mp hin
    have hlt := List.mem_range.mp hi
    rw [BitVec.lt_def, BitVec.toNat_add, hsum, BitVec.toNat_ofNat, Nat.mod_eq_of_lt (a := i) (by omega),
      Nat.mod_eq_of_lt (by omega)]
    omega

section Examples

private def spender : Address := FixedBytes.replicate 20 7

private def expense : Transaction where
  nonce := 1
  gasLimit := 50000
  toAddress := some default
  r := 1
  s := 1
  sender := some spender

private def creation : Transaction := { expense with nonce := 2, gasLimit := 100000, toAddress := none }

private def paying : ExecutionContext where
  config := {}
  block := { header := { number := 1, gasLimit := 1000000 }, transactions := [expense, creation] }
  keccak _ := kEmptyHash
  precompiledGas _ _ _ := 0
  precompiledRun _ _ := none
  daoChildren := []
  daoWithdraw := default

private def purse : MemoryBuffer where
  accounts := HashMap.set ∅ spender { nonce := 1, balance := 10 }

private def restful : Behaviour := .done .success 0 []

/-- A call and a creation of one sender. -/
theorem nonces_of_commitBlocks_purse : ∃ db' account',
    commitBlock purse (paying, fun _ => restful) = some db' ∧
      readAccount db' spender = some account' ∧ account'.nonce = 3 := by
  have hread : readAccount purse spender = some { nonce := 1, balance := 10 } :=
    (HashMap.find_set ∅ spender spender _).trans (if_pos rfl)
  have hsome : (commitBlock purse (paying, fun _ => restful)).isSome = true := by
    decide +kernel
  obtain ⟨db', hdb'⟩ := Option.isSome_iff_exists.mp hsome
  have hblocks : [(paying, fun _ => restful)].foldlM commitBlock purse = some db' := by
    rw [List.foldlM_cons, hdb']
    rfl
  obtain ⟨-, account', hafter, -, hnonce⟩ := nonces_of_commitBlocks hblocks hread rfl (by decide)
    (by decide)
  exact ⟨db', account', hdb', hafter, hnonce⟩

theorem nonce_lt_of_chainRun_purse : ∃ c', ChainRun MemoryBuffer ⟨paying, purse, enter paying purse⟩
    [.transaction expense restful, .transaction creation restful] c' ∧
      ∀ nonce ∈ noncesOf spender [.transaction creation restful], 1 < nonce := by
  have hsome : ([.transaction expense restful, .transaction creation restful].foldlM Chain.step
      (⟨paying, purse, enter paying purse⟩ : Chain MemoryBuffer)).isSome = true := by decide +kernel
  obtain ⟨c', hc'⟩ := Option.isSome_iff_exists.mp hsome
  have hcode : (IntraBlockState.getCodeHash purse spender (enter paying purse).state).1 =
      kEmptyHash := by decide +kernel
  exact ⟨c', .of_foldlM hc', nonce_lt_of_chainRun (.nil _) (.of_foldlM hc') rfl hcode (by decide)⟩

end Examples

end Blocks

end ExecutionProcessor
end Silkworm
