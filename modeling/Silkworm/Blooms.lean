import Silkworm.ExecutionStage

/-!
# Blooms

A bloom is a set of numbers. The bloom of a block that is executed has the numbers of the addresses
and of the topics of all logs of its receipts, and no others.
-/

namespace Silkworm

section Bits

/-- The bits are counted from the end. -/
def Bloom.bit (bloom : Bloom) (n : ℕ) : Bool :=
  (bloom.val.getD (kBloomByteLength - 1 - n / 8) 0).toNat.testBit (n % 8)

@[simp]
theorem Bloom.bit_default (n : ℕ) : Bloom.bit default n = false := by
  have hzero : (default : Bloom).val.getD (kBloomByteLength - 1 - n / 8) 0 = 0 := by
    change (List.replicate kBloomByteLength (0 : UInt8)).getD _ 0 = 0
    rw [List.getD_eq_getElem?_getD, List.getElem?_replicate]
    split_ifs <;> rfl
  rw [Bloom.bit, hzero]
  exact Nat.zero_testBit _

theorem testBit_or_shiftLeft (x : UInt8) {i : ℕ} (hi : i < 8) (j : ℕ) :
    (x ||| 1 <<< UInt8.ofNat i).toNat.testBit j = (x.toNat.testBit j || decide (j = i)) := by
  have hshift : (1 <<< UInt8.ofNat i : UInt8).toNat = 2 ^ i := by
    interval_cases i <;> rfl
  rw [UInt8.toNat_or, Nat.testBit_or, hshift, Nat.testBit_two_pow, decide_eq_decide.mpr eq_comm]

theorem Bloom.bit_setBit (bloom : Bloom) {k n : ℕ} (hk : k < 2048) (hn : n < 2048) :
    (bloom.setBit k).bit n = (bloom.bit n || decide (n = k)) := by
  have hlength : bloom.val.length = 256 := bloom.property
  rw [Bloom.bit, Bloom.setBit, Bloom.bit]
  dsimp only
  rw [List.getD_eq_getElem?_getD, List.getElem?_modify, List.getD_eq_getElem?_getD]
  have hin : kBloomByteLength - 1 - n / 8 < bloom.val.length := by
    rw [hlength]
    exact Nat.lt_of_le_of_lt (Nat.sub_le _ _) (by decide)
  rw [List.getElem?_eq_getElem hin]
  by_cases hbyte : k / 8 = n / 8
  · simp only [hbyte, if_true, Option.map_eq_map, Option.map_some, Option.getD_some]
    rw [testBit_or_shiftLeft _ (Nat.mod_lt _ (by decide))]
    congr 1
    rw [decide_eq_decide]
    omega
  · have hne : ¬255 - k / 8 = 255 - n / 8 := by omega
    have hother : n ≠ k := fun heq => hbyte (heq ▸ rfl)
    simp [hne, hother]

theorem Bloom.bit_joinBlooms (sum addend : Bloom) (n : ℕ) :
    (Db.joinBlooms sum addend).bit n = (sum.bit n || addend.bit n) := by
  have hsum : sum.val.length = 256 := sum.property
  have haddend : addend.val.length = 256 := addend.property
  have hlt : kBloomByteLength - 1 - n / 8 < 256 :=
    Nat.lt_of_le_of_lt (Nat.sub_le _ _) (by decide)
  rw [Bloom.bit, Db.joinBlooms, Bloom.bit, Bloom.bit]
  dsimp only
  rw [List.getD_eq_getElem?_getD, List.getD_eq_getElem?_getD, List.getD_eq_getElem?_getD,
    List.getElem?_zipWith, List.getElem?_eq_getElem (hsum ▸ hlt),
    List.getElem?_eq_getElem (haddend ▸ hlt)]
  simp only [Option.getD_some]
  rw [UInt8.toNat_or, Nat.testBit_or]

end Bits

section Items

variable (keccak : Bytes → Bytes32)

/-- The numbers of an address or a topic. -/
def bloomBits (x : Bytes) : List ℕ :=
  [0, 2, 4].map fun i => (((keccak x).val.getD (i + 1) 0).toNat +
    ((keccak x).val.getD i 0).toNat * 2 ^ 8) % 2 ^ 11

/-- What can be looked for in a log. -/
def Log.items (log : Log) : List Bytes := log.address.val :: log.topics.map (·.val)

variable {keccak}

theorem bit_m32048 (bloom : Bloom) (x : Bytes) {n : ℕ} (hn : n < 2048) :
    (m32048 keccak bloom x).bit n = true ↔ bloom.bit n = true ∨ n ∈ bloomBits keccak x := by
  have hlt (m : ℕ) : m % 2 ^ 11 < 2048 := Nat.mod_lt _ (by decide)
  rw [m32048, bloomBits]
  simp only [List.foldl_cons, List.foldl_nil, Bloom.bit_setBit _ (hlt _) hn, List.map_cons,
    List.map_nil, List.mem_cons, List.not_mem_nil, Bool.or_eq_true, decide_eq_true_eq, or_assoc,
    or_false]

theorem bit_foldl {α : Type} {step : Bloom → α → Bloom} {P : α → Prop} {n : ℕ}
    (hstep : ∀ bloom x, (step bloom x).bit n = true ↔ bloom.bit n = true ∨ P x) (l : List α)
    (bloom : Bloom) : (l.foldl step bloom).bit n = true ↔ bloom.bit n = true ∨ ∃ x ∈ l, P x := by
  induction l generalizing bloom with
  | nil => simp
  | cons x l ih => simp [ih, hstep, or_assoc]

/-- The bloom of some logs has the numbers of all that can be looked for in them. -/
theorem bit_logsBloom (logs : List Log) {n : ℕ} (hn : n < 2048) :
    (logsBloom keccak logs).bit n = true ↔ ∃ log ∈ logs, ∃ x ∈ log.items, n ∈ bloomBits keccak x := by
  rw [logsBloom, bit_foldl (P := fun log : Log => ∃ x ∈ log.items, n ∈ bloomBits keccak x)]
  · simp
  · intro bloom log
    rw [bit_foldl (P := fun topic : Bytes32 => n ∈ bloomBits keccak topic.val) fun bloom topic =>
      bit_m32048 bloom topic.val hn, bit_m32048 _ _ hn]
    simp [Log.items, or_assoc]

end Items

namespace ExecutionProcessor

variable {B : Type} [StateBuffer B] {x : ExecutionContext} {db : B}

theorem bloom_of_executeTransaction {txn : Transaction} {interpreter : Evm.Interpreter}
    {p q : ExecutionProcessor} {receipt : Receipt}
    (h : executeTransaction x db txn interpreter p = some (receipt, q)) :
    receipt.bloom = logsBloom x.keccak receipt.logs := by
  obtain ⟨sender, -, h⟩ := Option.bind_eq_some_iff.mp h
  obtain ⟨r, -, h⟩ := Option.bind_eq_some_iff.mp h
  cases h
  rfl

theorem bloom_of_executeTransactions {is : ℕ → Evm.Interpreter} {txns : List Transaction} {i : ℕ}
    {receipts : List Receipt} {p : ExecutionProcessor}
    {r : (List Receipt × ValidationResult) × ExecutionProcessor}
    (h : executeTransactions x db is txns i receipts p = some r)
    (hreceipts : ∀ receipt ∈ receipts, receipt.bloom = logsBloom x.keccak receipt.logs) :
    ∀ receipt ∈ r.1.1, receipt.bloom = logsBloom x.keccak receipt.logs := by
  induction txns generalizing i receipts p with
  | nil =>
    cases h
    exact hreceipts
  | cons txn txns ih =>
    rw [executeTransactions] at h
    dsimp only at h
    split_ifs at h
    · cases h
      exact hreceipts
    · obtain ⟨⟨receipt, q⟩, hq, h⟩ := Option.bind_eq_some_iff.mp h
      refine ih h fun receipt' hin => ?_
      rcases List.mem_append.mp hin with hin | hin
      · exact hreceipts receipt' hin
      · cases List.mem_singleton.mp hin
        exact bloom_of_executeTransaction hq

theorem bloom_of_executeBlock {is : ℕ → Evm.Interpreter} {p : ExecutionProcessor}
    {r : (List Receipt × ValidationResult) × ExecutionProcessor}
    (h : executeBlock x db is p = some r) :
    ∀ receipt ∈ r.1.1, receipt.bloom = logsBloom x.keccak receipt.logs := by
  obtain ⟨⟨⟨receipts, err⟩, q⟩, hq, h⟩ := Option.bind_eq_some_iff.mp h
  have hreceipts := bloom_of_executeTransactions hq nofun
  dsimp only at h
  split_ifs at h
  · cases h
    exact hreceipts
  · cases h
    exact hreceipts

end ExecutionProcessor

namespace Db

variable {engine : Engine} {config : ChainConfig} {block : Block} {b b' : Buffer}
  {receipts : List Receipt}

/-- What a block that is executed has been checked for. -/
theorem executeBlock_eq_ok (h : executeBlock engine config block b = some ((receipts, .ok), b')) :
    ∃ p, ExecutionProcessor.executeBlock (engine.context config block) b
        (engine.interpreter block b) {} = some ((receipts, .ok), p) ∧
      (receipts.map Receipt.bloom).foldl joinBlooms default = block.header.logsBloom ∧
      b' = (p.state.writeToDb block.header.number b).1 := by
  obtain ⟨⟨⟨receipts', err⟩, p⟩, hp, h⟩ := Option.bind_eq_some_iff.mp h
  dsimp only at h
  by_cases herr : err = .ok
  swap
  · rw [if_pos herr] at h
    cases h
    exact absurd rfl herr
  rw [if_neg (not_not.mpr herr)] at h
  by_cases hgas : (receipts'.getLast?.map Receipt.cumulativeGasUsed).getD 0 = block.header.gasUsed
  swap
  · rw [if_pos hgas] at h
    cases h
  rw [if_neg (not_not.mpr hgas)] at h
  have hchecked : ∃ receiptRoot, (if receiptRoot ≠ block.header.receiptsRoot then
        some ((receipts', ValidationResult.wrongReceiptsRoot), b)
      else if (receipts'.map Receipt.bloom).foldl joinBlooms default ≠ block.header.logsBloom then
        some ((receipts', .wrongLogsBloom), b)
      else some ((receipts', .ok), (p.state.writeToDb block.header.number b).1)) =
        some ((receipts, ValidationResult.ok), b') := by
    by_cases hrev : .byzantium ≤ config.revision block.header.number
    · rw [if_pos hrev] at h
      obtain ⟨receiptRoot, -, h⟩ := Option.bind_eq_some_iff.mp h
      exact ⟨receiptRoot, h⟩
    · rw [if_neg hrev] at h
      exact ⟨block.header.receiptsRoot, h⟩
  obtain ⟨receiptRoot, h⟩ := hchecked
  split_ifs at h with hroot hbloom
  · cases h
  · cases h
  · cases h
    exact ⟨p, herr ▸ hp, not_not.mp hbloom, rfl⟩

/-- The bloom in the header of an executed block has the numbers of what can be looked for in the
logs, so that nothing is missed, and no others. -/
theorem bit_logsBloom_of_executeBlock
    (h : executeBlock engine config block b = some ((receipts, .ok), b')) {n : ℕ} (hn : n < 2048) :
    block.header.logsBloom.bit n = true ↔ ∃ receipt ∈ receipts, ∃ log ∈ receipt.logs,
      ∃ x ∈ log.items, n ∈ bloomBits engine.keccak x := by
  obtain ⟨p, hp, hbloom, -⟩ := executeBlock_eq_ok h
  have hblooms := ExecutionProcessor.bloom_of_executeBlock hp
  rw [← hbloom, List.foldl_map, bit_foldl (P := fun receipt : Receipt => receipt.bloom.bit n = true)]
  · simp only [Bloom.bit_default, Bool.false_eq_true, false_or]
    refine exists_congr fun receipt => and_congr_right fun hin => ?_
    rw [hblooms receipt hin]
    exact bit_logsBloom receipt.logs hn
  · intro bloom receipt
    rw [Bloom.bit_joinBlooms, Bool.or_eq_true]

section Examples
open Evm (Behaviour)

/-- A contract that is created without code and logs something. -/
private def logger : Behaviour := .host (.emitLog default [1] [default]) fun _ => .done .success 0 []

private def bloomingEngine : Engine where
  keccak _ := default
  precompiledGas _ _ _ := 0
  precompiledRun _ _ := none
  daoChildren := []
  daoWithdraw := default
  interpreter _ b _ := logger.run
    { revision := .frontier, keccak := fun _ => default, precompiledGas := fun _ _ _ => 0,
      precompiledRun := fun _ _ => none } b
  cbor := ⟨[], fun _ => [], fun _ => [], id⟩

private def bloomingBlock : Block where
  header := { number := 1, gasLimit := 100000, gasUsed := 30000,
              logsBloom := logsBloom (fun _ => default) [⟨default, [default], [1]⟩] }
  transactions := [{ gasLimit := 30000, r := 1, s := 1, sender := some kRipemdAddress }]

/-- The first bit of the bloom stands for something in a log. -/
theorem bit_logsBloom_of_executeBlock_logger : ∃ receipts b',
    executeBlock bloomingEngine {} bloomingBlock {} = some ((receipts, .ok), b') ∧
      ∃ receipt ∈ receipts, ∃ log ∈ receipt.logs,
        ∃ x ∈ log.items, 0 ∈ bloomBits bloomingEngine.keccak x := by
  have hok : (executeBlock bloomingEngine {} bloomingBlock {}).map (fun r => r.1.2) = some .ok := by
    decide +kernel
  obtain ⟨⟨⟨receipts, err⟩, b'⟩, h, herr⟩ := Option.map_eq_some_iff.mp hok
  cases herr
  have hbit : bloomingBlock.header.logsBloom.bit 0 = true := by decide +kernel
  exact ⟨receipts, b', h, (bit_logsBloom_of_executeBlock h (by decide)).mp hbit⟩

end Examples

end Db
end Silkworm
