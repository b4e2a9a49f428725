import Silkworm.AnnouncedLengths
import Silkworm.DbBuffer
import Silkworm.StoredBlocks
import Silkworm.VectorRoots

/-!
# The execution stage

A call executes blocks in turn, from a number on, and collects their changes in a buffer, which is
written to the tables when it is full or when the last block is reached. The program around it
stores how far it has got and commits after every call.
-/

namespace Silkworm.Db
open SortedTables

/-- What an encoder of CBOR appends for an item. -/
structure CborEncoder where
  null : Bytes
  array : ℕ → Bytes
  int : Uint64 → Bytes
  bytes : Bytes → Bytes

namespace CborEncoder

variable (cbor : CborEncoder)

def encodeReceipts (v : List Receipt) : Bytes :=
  (if v.isEmpty then cbor.null else cbor.array v.length) ++ v.flatMap fun r =>
    cbor.array 3 ++ cbor.null ++ cbor.int (if r.success then 1 else 0) ++ cbor.int r.cumulativeGasUsed

def encodeLogs (v : List Log) : Bytes :=
  cbor.array v.length ++ v.flatMap fun l =>
    cbor.array 3 ++ cbor.bytes l.address.val ++ cbor.array l.topics.length ++
      l.topics.flatMap (fun t => cbor.bytes t.val) ++ cbor.bytes l.data

end CborEncoder

/-- The functions that the execution of blocks needs, and what the interpreter does in the
transactions of a block. -/
structure Engine where
  keccak : Bytes → Bytes32
  precompiledGas : ℕ → Bytes → Revision → Uint64
  precompiledRun : ℕ → Bytes → Option Bytes
  daoChildren : List Address
  daoWithdraw : Address
  interpreter : Block → Buffer → ℕ → Evm.Interpreter
  cbor : CborEncoder

section Blocks

variable (engine : Engine)

def Engine.context (config : ChainConfig) (block : Block) : ExecutionContext where
  config
  block
  keccak := engine.keccak
  precompiledGas := engine.precompiledGas
  precompiledRun := engine.precompiledRun
  daoChildren := engine.daoChildren
  daoWithdraw := engine.daoWithdraw

def joinBlooms (sum addend : Bloom) : Bloom :=
  ⟨List.zipWith (· ||| ·) sum.val addend.val, by
    rw [List.length_zipWith, sum.property, addend.property, Nat.min_self]⟩

/-- The checks of the receipts, and what is written if they succeed. -/
def executeBlock (config : ChainConfig) (block : Block) (b : Buffer) :
    Option ((List Receipt × ValidationResult) × Buffer) := do
  let header := block.header
  let ((receipts, err), p) ← ExecutionProcessor.executeBlock (engine.context config block) b
    (engine.interpreter block b) {}
  if err ≠ .ok then some ((receipts, err), b)
  else
    let gasUsed := (receipts.getLast?.map Receipt.cumulativeGasUsed).getD 0
    if gasUsed ≠ header.gasUsed then some ((receipts, .wrongBlockGas), b)
    else
      let receiptRoot ← if .byzantium ≤ config.revision header.number then
          Trie.vectorRootHash engine.keccak receipts Rlp.encodeReceipt
        else some header.receiptsRoot
      if receiptRoot ≠ header.receiptsRoot then some ((receipts, .wrongReceiptsRoot), b)
      else if (receipts.map Receipt.bloom).foldl joinBlooms default ≠ header.logsBloom then
        some ((receipts, .wrongLogsBloom), b)
      else some ((receipts, .ok), (p.state.writeToDb header.number b).1)

def Buffer.insertLogs (blockNumber : Uint64) (b : Buffer) (r : Receipt × ℕ) : Buffer :=
  if r.1.logs.isEmpty then b
  else
    let key := logKey blockNumber (BitVec.ofNat 32 r.2)
    let value := engine.cbor.encodeLogs r.1.logs
    bumpBatchSize { b with logs := b.logs.set key value } (b.logs.find key).isNone key.length
      value.length

def Buffer.insertReceipts (blockNumber : Uint64) (receipts : List Receipt) (b : Buffer) : Buffer :=
  let b := receipts.zipIdx.foldl (insertLogs engine blockNumber) b
  let key := blockKey blockNumber
  let value := engine.cbor.encodeReceipts receipts
  bumpBatchSize { b with receipts := b.receipts.set key value } (b.receipts.find key).isNone
    key.length value.length

end Blocks

section Configs

/-- The blocks of the forks from Homestead to Berlin. -/
def forkBlocks (blocks : List Uint64) (rev : Revision) : Option Uint64 :=
  ([Revision.homestead, .tangerineWhistle, .spuriousDragon, .byzantium, .constantinople,
    .petersburg, .istanbul, .berlin].zip blocks).lookup rev

def kMainnetConfig : ChainConfig where
  chainId := 1
  forkBlock := forkBlocks
    [1150000, 2463000, 2675000, 4370000, 7280000, 7280000, 9069000, 12244000]
  daoBlock := some 1920000

def kRopstenConfig : ChainConfig where
  chainId := 3
  forkBlock := forkBlocks [0, 0, 10, 1700000, 4230000, 4939394, 6485846, 9812189]

def kRinkebyConfig : ChainConfig where
  chainId := 4
  forkBlock := forkBlocks [1, 2, 3, 1035301, 3660663, 4321234, 5435345, 8290928]

def kGoerliConfig : ChainConfig where
  chainId := 5
  forkBlock := forkBlocks [0, 0, 0, 0, 0, 0, 1561651, 4460644]

def lookupChainConfig (chainId : Uint64) : Option ChainConfig :=
  [kMainnetConfig, kRopstenConfig, kRinkebyConfig, kGoerliConfig].find? fun config =>
    config.chainId = chainId

end Configs

inductive SilkwormStatusCode
  | success | blockNotFound | unknownChainId | lmdbError | missingSenders | invalidBlock
  | decodingError | incompatibleDbFormat | unknownError
  deriving DecidableEq

def ReadError.status : ReadError → SilkwormStatusCode
  | .missingSenders => .missingSenders
  | .decodingError => .decodingError
  | .decodingResult => .unknownError

/-- What a call takes: the tables of the chain, which it only reads, and its arguments. -/
structure ExecuteCall where
  chain : ChainTables
  chainId : Uint64
  maxBlock : Uint64
  batchSize : Uint64
  writeReceipts : Bool

/-- What a call leaves: its status, the number that was written last to `last_executed_block`, and
the tables. -/
structure CallResult where
  status : SilkwormStatusCode
  lastExecutedBlock : Option Uint64
  tables : Tables

section Calls

variable (engine : Engine) (c : ExecuteCall)

/-- The block of a number is executed; the status is that of the return in between. -/
def executeNumber (config : ChainConfig) (blockNumber : Uint64) (b : Buffer) :
    Option (Except SilkwormStatusCode Buffer) := do
  match ← (readBlock c.chain blockNumber).run with
  | .error e => some (.error e.status)
  | .ok none => some (.error .blockNotFound)
  | .ok (some block) =>
    let ((receipts, err), b) ← executeBlock engine config block b
    if err ≠ .ok then some (.error .invalidBlock)
    else some (.ok (if c.writeReceipts then b.insertReceipts engine blockNumber receipts else b))

/-- The loop over the blocks, with a bound on its rounds. The tables are those at its entry; a return
with `success` writes to them. -/
def executeLoop (config : ChainConfig) (tables : Tables) :
    ℕ → Uint64 → Option Uint64 → Buffer → Option CallResult
  | 0, _, _, _ => none
  | rounds + 1, blockNumber, lastExecutedBlock, b =>
    if c.maxBlock < blockNumber then some ⟨.success, lastExecutedBlock, b.flush tables⟩
    else do
      match ← executeNumber engine c config blockNumber b with
      | .error status => some ⟨status, lastExecutedBlock, tables⟩
      | .ok b =>
        if c.batchSize ≤ b.batchSize then some ⟨.success, some blockNumber, b.flush tables⟩
        else executeLoop config tables rounds (blockNumber + 1) (some blockNumber) b

/-- The ASCII text of a migration. -/
def ExecuteCall.migrationHappened (name : String) : Bool :=
  (c.chain.migrations.get (name.toList.map fun ch => UInt8.ofNat ch.toNat)).isSome

/-- A call that goes on after as many blocks as there are numbers is taken not to return. -/
def silkwormExecuteBlocks (startBlock : Uint64) (tables : Tables) : Option CallResult :=
  match lookupChainConfig c.chainId with
  | none => some ⟨.unknownChainId, none, tables⟩
  | some config =>
    if c.writeReceipts ∧ ¬(c.migrationHappened "receipts_cbor_encode" ∧
        c.migrationHappened "receipts_store_logs_separately") then
      some ⟨.incompatibleDbFormat, none, tables⟩
    else if ¬(c.migrationHappened "acc_change_set_dup_sort_18" ∧
        c.migrationHappened "storage_change_set_dup_sort_22") then
      some ⟨.incompatibleDbFormat, none, tables⟩
    else if ¬c.migrationHappened "tx_table_4" then some ⟨.incompatibleDbFormat, none, tables⟩
    else executeLoop engine c config tables (2 ^ 64) startBlock none { txn := some tables }

end Calls

/-- What is committed: the tables of the state with the progress of the stage. -/
structure Committed where
  tables : Tables
  executionProgress : Uint64

section Program

variable (engine : Engine)

/-- A call of the program, which continues after the progress and stores the new progress with what
the call has written, unless the call fails. -/
def callAndCommit (db : Committed) (c : ExecuteCall) : Option (SilkwormStatusCode × Committed) := do
  let result ← silkwormExecuteBlocks engine c (db.executionProgress + 1) db.tables
  if result.status = .success ∨ result.status = .blockNotFound then
    some (result.status,
      ⟨result.tables, result.lastExecutedBlock.getD db.executionProgress⟩)
  else some (result.status, db)

/-- The loop of `cmd/execute` up to a block, with a bound on its rounds. -/
def executeProgram (c : ExecuteCall) : ℕ → Committed → Option Committed
  | 0, _ => none
  | rounds + 1, db =>
    if c.maxBlock < db.executionProgress + 1 then some db
    else do
      let (status, db) ← callAndCommit engine db c
      if status = .success then executeProgram c rounds db else some db

end Program

end Silkworm.Db
