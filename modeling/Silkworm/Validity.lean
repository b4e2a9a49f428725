import Silkworm.MemoryBuffer

/-!
# Validity of blocks

The checks that a block passes before it is executed. The difficulty formula, the seal, the
root of the transactions and the checks of a single transaction are given by the chain.
-/

namespace Silkworm

inductive ValidationResult where
  | ok | wrongStateRoot | wrongOmmersHash | wrongTransactionsRoot | wrongReceiptsRoot
  | wrongLogsBloom | unknownParent | wrongDifficulty | gasAboveLimit | invalidGasLimit
  | invalidTimestamp | extraDataTooLong | wrongDaoExtraData | invalidSeal | missingSender
  | wrongNonce | intrinsicGas | insufficientFunds | blockGasLimitExceeded | tooManyOmmers
  | invalidOmmerHeader | notAnOmmer | duplicateOmmer | wrongBlockGas | invalidSignature
  | wrongChainId | unsupportedEip2718Type
  deriving DecidableEq, Repr

abbrev kEmptyListHash : Bytes32 :=
  ⟨[0x1d, 0xcc, 0x4d, 0xe8, 0xde, 0xc7, 0x5d, 0x7a, 0xab, 0x85, 0xb5, 0x67, 0xb6, 0xcc, 0xd4, 0x1a,
    0xd3, 0x12, 0x45, 0x1b, 0x94, 0x8a, 0x74, 0x13, 0xf0, 0xa1, 0x42, 0xfd, 0x40, 0xd4, 0x93, 0x47],
    rfl⟩

/-- What the checks take from the chain and from cryptography. -/
structure ChainRules where
  keccak : Bytes → Bytes32
  canonicalDifficulty : (blockNumber blockTimestamp : Uint64) → (parentDifficulty : Uint256) →
    (parentTimestamp : Uint64) → (parentHasUncles : Bool) → Uint256
  daoBlock : Option Uint64
  isValidSeal : BlockHeader → Bool
  transactionsRoot : List Transaction → Bytes32
  preValidateTransaction : Transaction → Uint64 → ValidationResult

/-- The part of the buffer interface through which blocks are read. -/
class BlockReader (S : Type) where
  readHeader : S → Uint64 → Bytes32 → Option BlockHeader
  readBody : S → Uint64 → Bytes32 → Option BlockBody

instance : BlockReader MemoryBuffer := ⟨MemoryBuffer.readHeader, MemoryBuffer.readBody⟩

namespace Validity
open BlockReader

variable {S : Type} [BlockReader S] (rules : ChainRules) (state : S)

def getParent (header : BlockHeader) : Option BlockHeader :=
  readHeader state (header.number - 1) header.parentHash

def kDaoExtraData : Bytes :=
  [0x64, 0x61, 0x6f, 0x2d, 0x68, 0x61, 0x72, 0x64, 0x2d, 0x66, 0x6f, 0x72, 0x6b]

def isDaoHeader (header : BlockHeader) : Bool :=
  match rules.daoBlock with
  | some n => n.toNat ≤ header.number.toNat ∧ header.number.toNat ≤ (n + 9).toNat
  | none => false

def gasDelta (header parent : BlockHeader) : ℕ :=
  max header.gasLimit.toNat parent.gasLimit.toNat - min header.gasLimit.toNat parent.gasLimit.toNat

def validateBlockHeader (header : BlockHeader) : ValidationResult :=
  if header.gasLimit.toNat < header.gasUsed.toNat then .gasAboveLimit
  else if header.gasLimit.toNat < 5000 then .invalidGasLimit
  else if 0x7fffffffffffffff < header.gasLimit.toNat then .invalidGasLimit
  else if 32 < header.extraData.length then .extraDataTooLong
  else match getParent state header with
    | none => .unknownParent
    | some parent =>
      if header.timestamp.toNat ≤ parent.timestamp.toNat then .invalidTimestamp
      else if parent.gasLimit.toNat / 1024 ≤ gasDelta header parent then .invalidGasLimit
      else if rules.canonicalDifficulty header.number header.timestamp parent.difficulty
          parent.timestamp (parent.ommersHash ≠ kEmptyListHash) ≠ header.difficulty then
        .wrongDifficulty
      else if isDaoHeader rules header ∧ header.extraData ≠ kDaoExtraData then .wrongDaoExtraData
      else if ¬rules.isValidSeal header then .invalidSeal
      else .ok

/-- Whether the branch is kin of the mainline, and the ommers met on the way. -/
def isKin (branchHeader : BlockHeader) :
    ℕ → (mainlineHeader : BlockHeader) → (mainlineHash : Bytes32) → (oldOmmers : List BlockHeader) →
      Bool × List BlockHeader
  | 0, _, _, oldOmmers => (false, oldOmmers)
  | n + 1, mainlineHeader, mainlineHash, oldOmmers =>
    if branchHeader = mainlineHeader then (false, oldOmmers)
    else match readBody state mainlineHeader.number mainlineHash with
      | none => (false, oldOmmers)
      | some mainlineBody =>
        let oldOmmers := oldOmmers ++ mainlineBody.ommers
        match getParent state mainlineHeader with
        | none => (false, oldOmmers)
        | some mainlineParent =>
          if getParent state branchHeader = some mainlineParent then (true, oldOmmers)
          else isKin branchHeader n mainlineParent mainlineHeader.parentHash oldOmmers

def validateOmmers (parent : BlockHeader) (parentHash : Bytes32) :
    List BlockHeader → ValidationResult
  | [] => .ok
  | ommer :: ommers =>
    if validateBlockHeader rules state ommer ≠ .ok then .invalidOmmerHeader
    else
      let (kin, oldOmmers) := isKin state ommer 6 parent parentHash []
      if ¬kin then .notAnOmmer
      else if ommer ∈ oldOmmers then .duplicateOmmer
      else validateOmmers parent parentHash ommers

def validateTransactions (blockNumber : Uint64) : List Transaction → ValidationResult
  | [] => .ok
  | txn :: txns =>
    if rules.preValidateTransaction txn blockNumber ≠ .ok then
      rules.preValidateTransaction txn blockNumber
    else validateTransactions blockNumber txns

def preValidateBlock (block : Block) : ValidationResult :=
  let header := block.header
  if validateBlockHeader rules state header ≠ .ok then validateBlockHeader rules state header
  else if rules.keccak (Rlp.encodeVector Rlp.lengthBlockHeader Rlp.encodeBlockHeader block.ommers) ≠
      header.ommersHash then .wrongOmmersHash
  else if rules.transactionsRoot block.transactions ≠ header.transactionsRoot then
    .wrongTransactionsRoot
  else if 2 < block.ommers.length then .tooManyOmmers
  else if block.ommers.length = 2 ∧ block.ommers[0]? = block.ommers[1]? then .duplicateOmmer
  else
    let parent := (getParent state header).getD {}
    let err := validateOmmers rules state parent header.parentHash block.ommers
    if err ≠ .ok then err else validateTransactions rules header.number block.transactions

/-- A block is only accepted above a stored one. -/
theorem getParent_isSome_of_preValidateBlock {rules : ChainRules} {state : S}
    {block : Block} (h : preValidateBlock rules state block = .ok) :
    (getParent state block.header).isSome := by
  by_contra hn
  have hp : getParent state block.header = none := by simpa using hn
  have hh : validateBlockHeader rules state block.header ≠ .ok := by
    unfold validateBlockHeader
    rw [hp]
    split_ifs <;> nofun
  rw [preValidateBlock, if_pos hh] at h
  exact hh h

/-- What the checks of a block say if it passes all of them. -/
structure Accepted (rules : ChainRules) (state : S) (block : Block) : Prop where
  header : validateBlockHeader rules state block.header = .ok
  length : block.ommers.length ≤ 2
  distinct : ¬(block.ommers.length = 2 ∧ block.ommers[0]? = block.ommers[1]?)
  ommers : ∃ parent, getParent state block.header = some parent ∧
    validateOmmers rules state parent block.header.parentHash block.ommers = .ok
  transactions : validateTransactions rules block.header.number block.transactions = .ok

theorem accepted_of_preValidateBlock {rules : ChainRules} {state : S} {block : Block}
    (h : preValidateBlock rules state block = .ok) : Accepted rules state block := by
  obtain ⟨parent, hparent⟩ := Option.isSome_iff_exists.mp (getParent_isSome_of_preValidateBlock h)
  unfold preValidateBlock at h
  dsimp only at h
  rw [hparent, Option.getD_some] at h
  split_ifs at h with hheader hhash hroot htwo hsame hommers
  · exact absurd h hheader
  · exact absurd h hommers
  · exact ⟨not_not.mp hheader, Nat.not_lt.mp htwo, hsame, ⟨parent, hparent, not_not.mp hommers⟩, h⟩

theorem gasLimit_lt_of_validateBlockHeader {rules : ChainRules} {state : S} {header : BlockHeader}
    (h : validateBlockHeader rules state header = .ok) : header.gasLimit.toNat < 2 ^ 63 := by
  unfold validateBlockHeader at h
  by_contra hlimit
  rw [if_pos (show 0x7fffffffffffffff < header.gasLimit.toNat by omega)] at h
  split_ifs at h

theorem preValidateTransaction_of_validateTransactions {rules : ChainRules} {n : Uint64}
    {txns : List Transaction} (h : validateTransactions rules n txns = .ok) {txn : Transaction}
    (ht : txn ∈ txns) : rules.preValidateTransaction txn n = .ok := by
  induction txns with
  | nil => cases ht
  | cons txn' txns ih =>
    rw [validateTransactions] at h
    split_ifs at h with hfirst
    · exact absurd h hfirst
    · rcases List.mem_cons.mp ht with rfl | ht
      · exact not_not.mp hfirst
      · exact ih h ht

end Validity
end Silkworm
