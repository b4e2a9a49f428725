import Silkworm.AccountWrites
import Silkworm.BlockCommits
import Silkworm.ForkChoice
import Silkworm.InterpreterRefinement
import Silkworm.Ommers
import Silkworm.StateCleanliness

/-!
# Empty accounts after a block

The rewards of an accepted block are positive, so that the accounts that get them are not empty,
unless a balance wraps around to 0. So a buffer without empty accounts has none after a block, apart
from those.
-/

namespace Silkworm.ExecutionProcessor
open StateBuffer IntraBlockState Evm Validity

variable {B : Type} [StateBuffer B] {x : ExecutionContext} {db : B} {s : IntraBlockState}

section Rewards

variable (x) in
/-- The rewards of a block, that of the miner last. -/
def rewards : List (Address × Uint256) :=
  x.block.ommers.map (fun ommer => (ommer.beneficiary, ommerReward x ommer)) ++
    [(x.block.header.beneficiary, x.block.ommers.foldl
      (fun minerReward _ => minerReward + blockReward x.evm.revision / 32)
      (blockReward x.evm.revision))]

/-- What an account gets. -/
def received (l : List (Address × Uint256)) (a : Address) : ℕ :=
  ((l.filter fun e => e.1 = a).map fun e => e.2.toNat).sum

variable (x db) in
theorem applyRewards_eq (s : IntraBlockState) :
    applyRewards x db s = (rewards x).foldl (fun s e => addToBalance db e.1 e.2 s) s := by
  have hfold {step : Uint256 × IntraBlockState → BlockHeader → Uint256 × IntraBlockState}
      (hstep : ∀ reward s ommer, step (reward, s) ommer =
        (reward + blockReward x.evm.revision / 32,
          addToBalance db ommer.beneficiary (ommerReward x ommer) s))
      (reward : Uint256) (s : IntraBlockState) (ommers : List BlockHeader) :
      ommers.foldl step (reward, s) = (ommers.foldl (fun minerReward _ => minerReward + blockReward x.evm.revision / 32) reward,
        (ommers.map fun ommer => (ommer.beneficiary, ommerReward x ommer)).foldl
          (fun s e => addToBalance db e.1 e.2 s) s) := by
    induction ommers generalizing reward s with
    | nil => rfl
    | cons ommer ommers ih => exact (congrArg (ommers.foldl step) (hstep ..)).trans (ih _ _)
  rw [applyRewards]
  dsimp only
  rw [hfold fun reward s ommer => rfl, rewards, List.foldl_append]
  rfl

theorem received_cons (e : Address × Uint256) (l : List (Address × Uint256)) (a : Address) :
    received (e :: l) a = (if e.1 = a then e.2.toNat else 0) + received l a := by
  rw [received, List.filter_cons, received]
  by_cases ha : e.1 = a
  · simp [ha]
  · simp [ha]

theorem received_eq_zero {l : List (Address × Uint256)} {a : Address} (h : a ∉ l.map Prod.fst) :
    received l a = 0 := by
  induction l with
  | nil => rfl
  | cons e l ih =>
    rw [List.map_cons, List.mem_cons, not_or] at h
    rw [received_cons, if_neg (Ne.symm h.1), ih h.2]

theorem received_pos {l : List (Address × Uint256)} {a : Address}
    (hpos : ∀ e ∈ l, 0 < e.2.toNat) (h : a ∈ l.map Prod.fst) : 0 < received l a := by
  induction l with
  | nil => cases h
  | cons e l ih =>
    obtain ⟨he, hl⟩ := List.forall_mem_cons.mp hpos
    rw [received_cons]
    rcases List.mem_cons.mp h with rfl | h
    · rw [if_pos rfl]
      exact Nat.add_pos_left he _
    · exact Nat.add_pos_right _ (ih hl h)

theorem received_le {l : List (Address × Uint256)} {n : ℕ} (h : ∀ e ∈ l, e.2.toNat ≤ n)
    (a : Address) : received l a ≤ l.length * n := by
  induction l with
  | nil => exact Nat.zero_le _
  | cons e l ih =>
    obtain ⟨he, hl⟩ := List.forall_mem_cons.mp h
    have hrest := ih hl
    rw [received_cons, List.length_cons, Nat.succ_mul]
    split_ifs <;> omega

variable (db) in
theorem viewAccount_addToBalance (a : Address) (v : Uint256) (s : IntraBlockState) (a' : Address) :
    viewAccount db (addToBalance db a v s) a' =
      if a' = a then some { (viewAccount db s a).getD {} with
        balance := ((viewAccount db s a).getD {}).balance + v }
      else viewAccount db s a' := by
  rw [addToBalance, viewAccount_touch, viewAccount_updateObject]

variable (db) in
/-- The accounts after some rewards. -/
theorem viewAccount_addRewards (l : List (Address × Uint256)) (s : IntraBlockState) (a : Address) :
    viewAccount db (l.foldl (fun s e => addToBalance db e.1 e.2 s) s) a =
      if a ∈ l.map Prod.fst then some { (viewAccount db s a).getD {} with
        balance := ((viewAccount db s a).getD {}).balance + BitVec.ofNat 256 (received l a) }
      else viewAccount db s a := by
  induction l generalizing s with
  | nil => rfl
  | cons e l ih =>
    rw [List.foldl_cons, ih, viewAccount_addToBalance, received_cons]
    by_cases ha : a = e.1
    · subst ha
      simp only [if_true, Option.getD_some, List.map_cons, List.mem_cons_self]
      rw [BitVec.ofNat_add, BitVec.ofNat_toNat, BitVec.setWidth_eq, BitVec.add_assoc]
      split_ifs with hin
      · rfl
      · rw [received_eq_zero hin, BitVec.add_zero]
    · have hmem : a ∈ (e :: l).map Prod.fst ↔ a ∈ l.map Prod.fst :=
        List.mem_cons.trans (or_iff_right ha)
      rw [if_neg ha, if_neg (Ne.symm ha), Nat.zero_add]
      simp only [hmem]

variable (db) in
theorem viewInitial_addRewards (l : List (Address × Uint256)) (s : IntraBlockState) (a : Address) :
    viewInitial db (l.foldl (fun s e => addToBalance db e.1 e.2 s) s) a = viewInitial db s a := by
  induction l generalizing s with
  | nil => rfl
  | cons e l ih => exact (ih _).trans ((touchesChanges_addToBalance db e.1 e.2 s).initial a)

variable (x db) in
/-- No account without nonce and code gets as much as to wrap its balance around to 0. -/
def RewardsFit (s : IntraBlockState) : Prop :=
  ∀ a, ((viewAccount db s a).getD {}).nonce = 0 →
    ((viewAccount db s a).getD {}).codeHash = kEmptyHash →
    ((viewAccount db s a).getD {}).balance.toNat + received (rewards x) a ≠ 2 ^ 256

/-- Positive rewards leave empty accounts where a balance wraps around to 0, and only there. -/
theorem noEmptyAccounts_applyRewards_iff (hpos : ∀ e ∈ rewards x, 0 < e.2.toNat)
    (hlt : ∀ a, received (rewards x) a < 2 ^ 256) (hs : NoEmptyAccounts db s) :
    NoEmptyAccounts db (applyRewards x db s) ↔ RewardsFit x db s := by
  have hwrap (a : Address) : ((viewAccount db s a).getD {}).balance +
      BitVec.ofNat 256 (received (rewards x) a) = 0 ↔
      (((viewAccount db s a).getD {}).balance.toNat + received (rewards x) a) % 2 ^ 256 = 0 := by
    rw [← BitVec.toNat_inj, BitVec.toNat_add, BitVec.toNat_ofNat, Nat.add_mod_mod]
    rfl
  rw [applyRewards_eq]
  constructor
  · intro h a hnonce hcode hsum
    have hbalance := ((viewAccount db s a).getD {}).balance.isLt
    have hin : a ∈ (rewards x).map Prod.fst := by
      by_contra hnot
      rw [received_eq_zero hnot] at hsum
      omega
    have hview := viewAccount_addRewards db (rewards x) s a
    rw [if_pos hin] at hview
    refine h a _ hview ⟨hnonce, (hwrap a).mpr ?_, hcode⟩
    rw [hsum, Nat.mod_self]
  · intro h a account haccount hempty
    rw [viewAccount_addRewards] at haccount
    split_ifs at haccount with hin
    · cases haccount
      have hbalance := ((viewAccount db s a).getD {}).balance.isLt
      have hzero := (hwrap a).mp hempty.2.1
      have hreceived := received_pos hpos hin
      have hbound := hlt a
      exact h a hempty.1 hempty.2.2 (by omega)
    · exact hs a account haccount hempty

theorem toNat_blockReward (rev : Revision) :
    ∃ n, 2 ≤ n ∧ n ≤ 5 ∧ (blockReward rev).toNat = n * 10 ^ 18 := by
  unfold blockReward
  split_ifs
  · exact ⟨2, le_rfl, by omega, rfl⟩
  · exact ⟨3, by omega, by omega, rfl⟩
  · exact ⟨5, by omega, le_rfl, rfl⟩

theorem toNat_ommerReward {ommer : BlockHeader} {n : ℕ}
    (h : (8 + ommer.number - x.block.header.number).toNat = n) (hn : n ≤ 7) :
    (ommerReward x ommer).toNat = n * (blockReward x.evm.revision).toNat / 8 := by
  obtain ⟨m, -, hm, hreward⟩ := toNat_blockReward x.evm.revision
  have hsmall : n * (m * 10 ^ 18) ≤ 7 * (5 * 10 ^ 18) :=
    Nat.mul_le_mul hn (Nat.mul_le_mul_right _ hm)
  rw [ommerReward, BitVec.toNat_ushiftRight, BitVec.toNat_mul, BitVec.toNat_setWidth, h, hreward,
    Nat.shiftRight_eq_div_pow, Nat.mod_eq_of_lt (a := n) (by omega), Nat.mod_eq_of_lt (by omega)]

theorem toNat_minerReward {c r : Uint256} {l : List BlockHeader}
    (h : r.toNat + l.length * c.toNat < 2 ^ 256) :
    (l.foldl (fun minerReward _ => minerReward + c) r).toNat = r.toNat + l.length * c.toNat := by
  induction l generalizing r with
  | nil => simp
  | cons _ l ih =>
    rw [List.length_cons, Nat.succ_mul] at h ⊢
    have hadd : (r + c).toNat = r.toNat + c.toNat := by
      rw [BitVec.toNat_add]
      exact Nat.mod_eq_of_lt (by omega)
    rw [List.foldl_cons, ih (by omega), hadd]
    omega

/-- The rewards of an accepted block are positive and small. -/
theorem rewards_of_preValidateBlock {S : Type} [BlockReader S] {chain : S} {rules : ChainRules}
    {keccak : Bytes → Bytes32} (hchain : WellKeyed keccak chain)
    (h : preValidateBlock rules chain x.block = .ok) :
    (∀ e ∈ rewards x, 0 < e.2.toNat ∧ e.2.toNat ≤ 10 ^ 19) ∧ (rewards x).length ≤ 3 := by
  obtain ⟨hlength, -, hommers⟩ := preValidateBlock_ommers hchain h
  obtain ⟨n, hn, hn', hreward⟩ := toNat_blockReward x.evm.revision
  constructor
  · intro e he
    rcases List.mem_append.mp he with he | he
    · obtain ⟨ommer, hommer, rfl⟩ := List.mem_map.mp he
      obtain ⟨k, hk, hk', -, -, hfactor, -⟩ := hommers ommer hommer
      dsimp only
      rw [toNat_ommerReward hfactor (by omega), hreward]
      have hlow : 2 * (2 * 10 ^ 18) ≤ (8 - k) * (n * 10 ^ 18) :=
        Nat.mul_le_mul (by omega) (Nat.mul_le_mul_right _ hn)
      have hhigh : (8 - k) * (n * 10 ^ 18) ≤ 7 * (5 * 10 ^ 18) :=
        Nat.mul_le_mul (by omega) (Nat.mul_le_mul_right _ hn')
      omega
    · cases List.mem_singleton.mp he
      have hpart : (blockReward x.evm.revision / 32).toNat = n * 10 ^ 18 / 32 := by
        rw [BitVec.toNat_udiv, hreward]
        rfl
      have hparts : x.block.ommers.length * (n * 10 ^ 18 / 32) ≤ 2 * (n * 10 ^ 18 / 32) :=
        Nat.mul_le_mul_right _ hlength
      dsimp only
      rw [toNat_minerReward (by rw [hpart, hreward]; omega), hpart, hreward]
      omega
  · rw [rewards, List.length_append, List.length_map, List.length_singleton]
    exact Nat.succ_le_succ hlength

end Rewards

section Blocks

variable (db) in
def CleanBuffer : Prop := ∀ a account, readAccount db a = some account → ¬account.IsEmpty

/-- Behind an accepted block other than that of the DAO fork a buffer without empty accounts has
none, unless the rewards wrap a balance around to 0. No message was sent on behalf of others. -/
theorem executeBlock_cleanBuffer_iff [LawfulAccounts B] {S : Type} [BlockReader S] {chain : S}
    {rules : ChainRules} {keccak : Bytes → Bytes32} {b : ℕ → Behaviour} {receipts : List Receipt}
    {q : ExecutionProcessor} (hrev : .spuriousDragon ≤ x.evm.revision) (hdb : CleanBuffer db)
    (hchain : WellKeyed keccak chain) (hblock : preValidateBlock rules chain x.block = .ok)
    (hdao : some x.block.header.number ≠ x.config.daoBlock)
    (h : executeBlock x db (fun i => (b i).runWith (.own db) x.evm db) {} =
      some ((receipts, .ok), q)) (n : Uint64) :
    executeBlock x db (fun i => (b i).run x.evm db) {} = some ((receipts, .ok), q) ∧
    ∃ p, executeTransactions x db (fun i => (b i).run x.evm db) x.block.transactions 0 [] {} =
        some ((receipts, .ok), p) ∧
      (CleanBuffer (q.state.writeToDb n db).1 ↔ RewardsFit x db p.state) := by
  have hrefines (i : ℕ) := (b i).runWith_own_refines x.evm db
  refine ⟨executeBlock_refines hrefines h, ?_⟩
  have hstart : NoEmptyAccounts db {} := fun a account haccount =>
    hdb a account ((viewAccount_initial db a).symm.trans haccount)
  obtain ⟨hrewards, hlength⟩ := rewards_of_preValidateBlock hchain hblock
  have hlt (a : Address) : received (rewards x) a < 2 ^ 256 := by
    have hle := received_le (fun e he => (hrewards e he).2) a
    omega
  rw [executeBlock, if_neg hdao] at h
  obtain ⟨⟨⟨receipts', err⟩, p⟩, hp, h⟩ := Option.bind_eq_some_iff.mp h
  dsimp only at h
  split_ifs at h with herr
  · cases h
    exact absurd rfl herr
  rw [not_not.mp herr] at hp
  cases h
  refine ⟨p, executeTransactions_refines hrefines hp, ?_⟩
  have htransactions := cleans_executeTransactions hrev hstart hp
  have hinitial (a : Address) : viewInitial db (applyRewards x db p.state) a = readAccount db a := by
    rw [applyRewards_eq, viewInitial_addRewards, htransactions.initial]
    change ((readAccount db a).map fun account => (⟨some account, some account⟩ : Object)).bind
      Object.initial = readAccount db a
    cases readAccount db a <;> rfl
  refine Iff.trans ?_ (noEmptyAccounts_applyRewards_iff (fun e he => (hrewards e he).1) hlt
    htransactions.noEmptyAccounts)
  change CleanBuffer ((applyRewards x db p.state).writeToDb n db).1 ↔ _
  simp only [CleanBuffer, readAccount_writeToDb hinitial n, NoEmptyAccounts]

section Examples
open Blockchain (genesisBlock genesisHash emptyBlock)

/-- Rules for empty blocks that follow within ten seconds. -/
private def quickRules : ChainRules where
  keccak bytes := if bytes = [0xc0] then kEmptyListHash else genesisHash
  canonicalDifficulty _ _ parentDifficulty _ _ := parentDifficulty + parentDifficulty >>> 11
  daoBlock := none
  isValidSeal _ := true
  transactionsRoot _ := Trie.kEmptyRoot
  preValidateTransaction _ _ := .ok

private def genesisChain : ListedBlocks := ⟨quickRules.keccak, [(genesisBlock.header, {})]⟩

private def rewarding : ExecutionContext where
  config := { forkBlock := fun rev => if rev = .spuriousDragon then some 0 else none }
  block := emptyBlock genesisHash 1 1 131136
  keccak := quickRules.keccak
  precompiledGas _ _ _ := 0
  precompiledRun _ _ := none
  daoChildren := []
  daoWithdraw := default

private def idle : Behaviour := .done .success 0 []

set_option maxRecDepth 10000 in
private theorem preValidateBlock_rewarding :
    preValidateBlock quickRules genesisChain rewarding.block = .ok := by decide

/-- What is left of the highest balance before a reward. -/
private def almostFull : MemoryBuffer where
  accounts := (∅ : HashMap Address Account).set default { balance := 0 - 5000000000000000000 }

private def donor : Address := FixedBytes.replicate 20 1

private def heir : Address := FixedBytes.replicate 20 2

private def donation : Transaction where
  gasLimit := 21000
  gasPrice := 2
  toAddress := some heir
  value := 5
  r := 1
  s := 1
  sender := some donor

private def donating : ExecutionContext :=
  { rewarding with
    block :=
      { header := { rewarding.block.header with gasLimit := 100000 }
        transactions := [donation] } }

private def roomyChain : ListedBlocks where
  keccak := quickRules.keccak
  blocks := [({ genesisBlock.header with gasLimit := 100000 }, {})]

private def estate : MemoryBuffer where
  accounts := HashMap.set ∅ donor { balance := 1000000 }

set_option maxRecDepth 10000 in
private theorem preValidateBlock_donating :
    preValidateBlock quickRules roomyChain donating.block = .ok := by decide

private theorem readAccount_estate {a : Address} {account : Account}
    (h : readAccount estate a = some account) : account = { balance := 1000000 } := by
  have hfind : (if a = donor then some ({ balance := 1000000 } : Account) else none) =
      some account := by
    rw [← h]
    exact (HashMap.find_set ∅ donor a _).symm
  split_ifs at hfind
  exact (Option.some.inj hfind).symm

/-- Nobody has more than what the buffer and the objects of a state hold. -/
private theorem balance_le_estate {s : IntraBlockState}
    (hs : ∀ e ∈ s.objects.toList, ∀ account ∈ e.2.current, account.balance.toNat ≤ 1000000)
    (a : Address) : ((viewAccount estate s a).getD {}).balance.toNat ≤ 1000000 := by
  cases hview : viewAccount estate s a with
  | none => exact Nat.zero_le _
  | some account =>
    obtain ⟨obj, hobj, hcurrent⟩ := Option.bind_eq_some_iff.mp hview
    rw [viewObject] at hobj
    split at hobj
    · rename_i obj' hfind
      cases hobj
      exact hs _ (HashMap.mem_toList.mpr hfind) account hcurrent
    · obtain ⟨account', hread, rfl⟩ := Option.map_eq_some_iff.mp hobj
      cases hcurrent
      rw [readAccount_estate hread]
      exact le_rfl

/-- A payment to a new account, and the reward of a miner without an account. -/
theorem executeBlock_cleanBuffer_iff_donation :
    preValidateBlock quickRules roomyChain donating.block = .ok ∧ CleanBuffer estate ∧
    ∃ (receipts : List Receipt) (q : ExecutionProcessor),
      executeBlock donating estate (fun _ => idle.runWith (.own estate) donating.evm estate) {} =
          some ((receipts, .ok), q) ∧
      (readAccount (q.state.writeToDb 1 estate).1 heir).isSome ∧
      CleanBuffer (q.state.writeToDb 1 estate).1 := by
  have hclean : CleanBuffer estate := by
    intro a account haccount hempty
    rw [readAccount_estate haccount] at hempty
    exact absurd hempty.2.1 (by decide)
  have hrun : (executeBlock donating estate
      (fun _ => idle.runWith (.own estate) donating.evm estate) {}).any (fun out =>
        out.1.2 = .ok ∧ (readAccount (out.2.state.writeToDb 1 estate).1 heir).isSome) = true := by
    decide +kernel
  have hbalances : (executeTransactions donating estate
      (fun _ => idle.run donating.evm estate) [donation] 0 [] {}).all (fun out =>
        ∀ e ∈ out.2.state.objects.toList, ∀ account ∈ e.2.current,
          account.balance.toNat ≤ 1000000) = true := by
    decide +kernel
  obtain ⟨⟨⟨receipts, err⟩, q⟩, hq, hout⟩ := (Option.any_eq_true _ _).mp hrun
  obtain ⟨rfl, hheir⟩ := of_decide_eq_true hout
  refine ⟨preValidateBlock_donating, hclean, receipts, q, hq, hheir, ?_⟩
  obtain ⟨-, p, hp, hfit⟩ := executeBlock_cleanBuffer_iff (n := 1) (b := fun _ => idle)
    (by decide) hclean (wellKeyed_listedBlocks roomyChain) preValidateBlock_donating nofun hq
  refine hfit.mpr fun a _ _ hsum => ?_
  obtain ⟨hrewards, hlength⟩ :=
    rewards_of_preValidateBlock (wellKeyed_listedBlocks roomyChain) preValidateBlock_donating
  have hreceived := received_le (fun e he => (hrewards e he).2) a
  have hobjects := of_decide_eq_true ((Option.all_eq_true _ _).mp hbalances _ hp)
  have hheld := balance_le_estate (s := p.state) hobjects a
  omega

/-- The miner of an empty block has almost the highest balance, which the reward wraps to 0. -/
theorem not_cleanBuffer_executeBlock_almostFull :
    ¬∀ (rules : ChainRules) (chain : ListedBlocks) (x : ExecutionContext) (db : MemoryBuffer)
      (b : ℕ → Behaviour) (receipts : List Receipt) (q : ExecutionProcessor),
      .spuriousDragon ≤ x.evm.revision → CleanBuffer db → WellKeyed rules.keccak chain →
      preValidateBlock rules chain x.block = .ok →
      some x.block.header.number ≠ x.config.daoBlock →
      executeBlock x db (fun i => (b i).runWith (.own db) x.evm db) {} =
        some ((receipts, .ok), q) → ∀ n, CleanBuffer (q.state.writeToDb n db).1 := by
  intro h
  have hclean : CleanBuffer almostFull := by
    intro a account haccount hempty
    have hfind : (if a = default then some { balance := 0 - 5000000000000000000 } else none) =
        some account := by
      rw [← haccount]
      exact (HashMap.find_set ∅ default a _).symm
    split_ifs at hfind
    cases hfind
    exact absurd hempty.2.1 (by decide)
  have hwrapped := h quickRules genesisChain rewarding almostFull (fun _ => idle) [] _ (by decide)
    hclean (wellKeyed_listedBlocks genesisChain) preValidateBlock_rewarding nofun rfl 1 default {}
    (by decide)
  exact hwrapped ⟨rfl, rfl, rfl⟩

end Examples

end Blocks

end Silkworm.ExecutionProcessor
