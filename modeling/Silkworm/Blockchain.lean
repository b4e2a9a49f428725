import Silkworm.Validity

/-!
# The chain of blocks

Blocks are inserted one by one. The state is unwound to the last common block, the branch of
the new block is executed, and the heavier branch wins. A call that does not return, because
an optional without value is read or a vector gets a negative length, is `none`; assertions
are not evaluated.
-/

namespace Silkworm

/-- The calls with which a block writes to the buffer. -/
inductive Update where
  | account (a : Address) (initial current : Option Account)
  | code (a : Address) (incarnation : Uint64) (codeHash : Bytes32) (code : Bytes)
  | storage (a : Address) (incarnation : Uint64) (location initial current : Bytes32)

def Update.apply (b : MemoryBuffer) : Update → MemoryBuffer
  | .account a initial current => b.updateAccount a initial current
  | .code a incarnation codeHash bytes => b.updateAccountCode a incarnation codeHash bytes
  | .storage a incarnation location initial current =>
    b.updateStorage a incarnation location initial current

abbrev BlockError := {err : ValidationResult // err ≠ .ok}

/-- The rules of the chain, and how a block is executed: it fails without a write, or it
begins a block and updates the buffer. -/
structure Execution extends ChainRules where
  recoverSender : Transaction → Option Address
  execute : MemoryBuffer → Block → Except BlockError (List Update)

structure Blockchain where
  state : MemoryBuffer
  badBlocks : HashMap Bytes32 ValidationResult := ∅

namespace Blockchain
open MemoryBuffer Validity

variable (ex : Execution)

def hash (header : BlockHeader) : Bytes32 := ex.keccak (Rlp.encodeBlockHeader header)

def recoverSenders (block : Block) : Block :=
  { block with
    transactions := block.transactions.map fun txn => { txn with sender := ex.recoverSender txn } }

def init (state : MemoryBuffer) (genesisBlock : Block) : Blockchain :=
  let h := hash ex genesisBlock.header
  { state := (state.insertBlock genesisBlock h).canonizeBlock genesisBlock.header.number h }

/-- `silkworm::execute_block` on the buffer. -/
def writeBlock (block : Block) (updates : List Update) (b : MemoryBuffer) : MemoryBuffer :=
  updates.foldl Update.apply (b.beginBlock block.header.number)

def executeBlock (block : Block) (checkStateRoot : Bool) (b : MemoryBuffer) :
    Option (ValidationResult × MemoryBuffer) :=
  match ex.execute b block with
  | .error err => some (err.val, b)
  | .ok updates =>
    let b := writeBlock block updates b
    if checkStateRoot then do
      let stateRoot ← stateRootHash ex.keccak b
      if stateRoot ≠ block.header.stateRoot then
        some (.wrongStateRoot, b.unwindStateChanges block.header.number)
      else some (.ok, b)
    else some (.ok, b)

def readBlock (b : MemoryBuffer) (blockNumber : Uint64) (blockHash : Bytes32) : Option Block := do
  let body ← b.readBody blockNumber blockHash
  let header ← b.readHeader blockNumber blockHash
  some { header, toBlockBody := body }

/-- The loop over the block numbers above `ancestor`, of which `count` are left. -/
def reExecuteCanonicalChain (ancestor : Uint64) : ℕ → MemoryBuffer → Option MemoryBuffer
  | 0, b => some b
  | count + 1, b => do
    let b ← reExecuteCanonicalChain ancestor count b
    let blockNumber := ancestor + BitVec.ofNat 64 (count + 1)
    let h ← b.canonicalHash blockNumber
    let block ← readBlock b blockNumber h
    let (_, b) ← executeBlock ex block false b
    some b

/-- The loop down from `ancestor + count`. -/
def unwindLastChanges (ancestor : Uint64) : ℕ → MemoryBuffer → MemoryBuffer
  | 0, b => b
  | count + 1, b =>
    unwindLastChanges ancestor count
      (b.unwindStateChanges (ancestor + BitVec.ofNat 64 (count + 1)))

/-- The blocks above the ancestor up to the given one, of which there are `count`. -/
def intermediateChain (b : MemoryBuffer) : ℕ → Uint64 → Bytes32 → Option (List BlockWithHash)
  | 0, _, _ => some []
  | count + 1, blockNumber, h => do
    let block ← readBlock b blockNumber h
    let chain ← intermediateChain b count (blockNumber - 1) block.header.parentHash
    some (chain ++ [⟨block, h⟩])

/-- Recursion up the parents, of which there are as many as the block number says. -/
def canonicalAncestor (b : MemoryBuffer) : ℕ → BlockHeader → Bytes32 → Option Uint64
  | 0, header, h => if b.canonicalHash header.number = some h then some header.number else none
  | n + 1, header, h =>
    if b.canonicalHash header.number = some h then some header.number
    else do
      let parent ← b.readHeader (header.number - 1) header.parentHash
      canonicalAncestor b n parent header.parentHash

/-- Execute blocks up to the first that fails. Returns the error, the number of blocks that
were executed and the buffer. -/
def executeChain (checkStateRoot : Bool) :
    List BlockWithHash → ℕ → MemoryBuffer → Option (ValidationResult × ℕ × MemoryBuffer)
  | [], n, b => some (.ok, n, b)
  | x :: chain, n, b => do
    let (err, b) ← executeBlock ex x.block checkStateRoot b
    if err ≠ .ok then some (err, n, b) else executeChain checkStateRoot chain (n + 1) b

def canonizeChain (ancestor current : Uint64) (chain : List BlockWithHash) (b : MemoryBuffer) :
    MemoryBuffer :=
  let b := (List.range (current.toNat - ancestor.toNat)).foldl
    (fun b i => b.decanonizeBlock (current - BitVec.ofNat 64 i)) b
  chain.foldl (fun b x => b.canonizeBlock x.block.header.number x.hash) b

/-- Back to the old chain after the execution of another one. -/
def restoreCanonicalChain (ancestor current : Uint64) (executed : ℕ) (b : MemoryBuffer) :
    Option MemoryBuffer :=
  reExecuteCanonicalChain ex ancestor (current.toNat - ancestor.toNat)
    (unwindLastChanges ancestor executed b)

def insertBlock (block : Block) (checkStateRoot : Bool) (c : Blockchain) :
    Option (ValidationResult × Blockchain) := do
  let err := preValidateBlock ex.toChainRules c.state block
  if err ≠ .ok then some (err, c)
  else
    let h := hash ex block.header
    match c.badBlocks.find h with
    | some err => some (err, c)
    | none =>
      let block := recoverSenders ex block
      let blockNumber := block.header.number
      let ancestor ← canonicalAncestor c.state blockNumber.toNat block.header h
      let current := c.state.currentCanonicalBlock
      let b := unwindLastChanges ancestor (current.toNat - ancestor.toNat) c.state
      -- The vector of the chain has the length `block_number - 1 - ancestor`.
      if (blockNumber - 1).toNat < ancestor.toNat then none
      else
        let chain ← intermediateChain b ((blockNumber - 1).toNat - ancestor.toNat) (blockNumber - 1)
          block.header.parentHash
        let chain := chain ++ [⟨block, h⟩]
        let (err, executed, b) ← executeChain ex checkStateRoot chain 0 b
        if err ≠ .ok then
          let b ← restoreCanonicalChain ex ancestor current executed b
          some (err, { state := b, badBlocks := c.badBlocks.set h err })
        -- The tables cannot grow any more.
        else if blockNumber.toNat + 1 = 2 ^ 64 then none
        else
          let b := b.insertBlock block h
          let currentHash ← b.canonicalHash current
          let currentTotalDifficulty ← b.totalDifficulty current currentHash
          let totalDifficulty := b.totalDifficulty blockNumber h
          if currentTotalDifficulty.toNat < (totalDifficulty.map BitVec.toNat).getD 0 then
            some (.ok, { c with state := canonizeChain ancestor current chain b })
          else
            let b ← restoreCanonicalChain ex ancestor current executed b
            some (.ok, { c with state := b })

end Blockchain
end Silkworm
