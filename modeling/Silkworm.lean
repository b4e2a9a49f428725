import Silkworm.BigEndian
import Silkworm.ViewParsers
import Silkworm.RlpEncoding
import Silkworm.RlpDecoding
import Silkworm.RlpCanonicalForms
import Silkworm.RlpBounds
import Silkworm.Transactions
import Silkworm.Blocks
import Silkworm.TransactionCodec
import Silkworm.TransactionBounds
import Silkworm.BlockCodec
import Silkworm.ConsensusObjectCanonicity
import Silkworm.ConsensusObjectRoundTrips
import Silkworm.ConsensusObjectBounds
import Silkworm.EntriesUnderPrefix
import Silkworm.MerklePatriciaTrie
import Silkworm.HashBuilder
import Silkworm.HashBuilderNodes
import Silkworm.HashBuilderSpine
import Silkworm.HashBuilderCorrectness
import Silkworm.HashBuilderRuns
import Silkworm.FinishedBranches
import Silkworm.CollectedNodes
import Silkworm.CollectingRuns
import Silkworm.HashMaps
import Silkworm.UndoLogs
import Silkworm.StateBuffers
import Silkworm.IntraBlockState
import Silkworm.MemoryBufferUpdates
import Silkworm.StateViews
import Silkworm.MemoryBuffer
import Silkworm.JournaledOperations
import Silkworm.OperationViews
import Silkworm.Snapshots
import Silkworm.ObjectHistories
import Silkworm.SnapshotReverts
import Silkworm.Incarnations
import Silkworm.CoherentStates
import Silkworm.OriginalStorage
import Silkworm.Evm
import Silkworm.EvmFrames
import Silkworm.FailedMessages
import Silkworm.Refunds
import Silkworm.Validity
import Silkworm.Ommers
import Silkworm.TransactionValidity
import Silkworm.ExecutionProcessor
import Silkworm.WatchedExecution
import Silkworm.GasAccounting
import Silkworm.Blockchain
import Silkworm.BlockTables
import Silkworm.ChainBranches
import Silkworm.BlockInsertions
import Silkworm.InsertedBlocks
import Silkworm.ForkChoice
import Silkworm.StateChanges
import Silkworm.StateTrails
import Silkworm.CanonicalStates
import Silkworm.StateRoots
import Silkworm.StateUnwinds
import Silkworm.RepeatedInsertions
import Silkworm.SortedTables
import Silkworm.RunMerging
import Silkworm.EtlCollector
import Silkworm.CollectedEntries
import Silkworm.AccountCodec
import Silkworm.DbTables
import Silkworm.DbBuffer
import Silkworm.DbBufferUpdates
import Silkworm.WrittenUpdates
import Silkworm.BlockCommits
import Silkworm.BufferAgreement
import Silkworm.StateRootAgreement
import Silkworm.StateTables
import Silkworm.BatchFlushes
import Silkworm.HashedState
import Silkworm.HashedStateChecks
import Silkworm.DbTrieLoader
import Silkworm.PromotedRoots
import Silkworm.NodeCodec
import Silkworm.RecordedChanges
import Silkworm.ExecutedBatches
import Silkworm.IncrementalPromotion
import Silkworm.PromotionAgreement
import Silkworm.ChunkedSets
import Silkworm.HistoryIndex
import Silkworm.HistoryLoads
import Silkworm.AccountHistory
import Silkworm.HistoryReads
import Silkworm.HistoryRounds
import Silkworm.StorageHistory
import Silkworm.TransactionChecks
import Silkworm.Difficulty
import Silkworm.VectorRoots
import Silkworm.AnnouncedLengths
import Silkworm.Bitmaps
import Silkworm.PaddedViews
import Silkworm.Expmod
import Silkworm.ExpmodRun
import Silkworm.ChangeSets
import Silkworm.Runs
import Silkworm.SenderRecovery
import Silkworm.SenderBatches
import Silkworm.SenderAssignments
import Silkworm.SenderRecoveryRuns
import Silkworm.StoredBlocks
import Silkworm.ExecutionStage
import Silkworm.ExecutionProgress
import Silkworm.Ledgers
import Silkworm.Balances
import Silkworm.BalanceConservation
import Silkworm.AccountBounds
import Silkworm.SenderReports
import Silkworm.SenderUnwinding
import Silkworm.HeaderRanges
import Silkworm.BlockHashes
import Silkworm.WorkerBuffers
import Silkworm.CollectorReuse
import Silkworm.RecencyLists
import Silkworm.LruCache
import Silkworm.AnalysisCache
import Silkworm.Genesis
import Silkworm.ChunkUnions
import Silkworm.LogIndex
import Silkworm.LogChunks
import Silkworm.StoredLogs
import Silkworm.IndexedLogs
import Silkworm.LogIndexRuns
import Silkworm.SmallLogRuns
import Silkworm.LogIndexExactness
import Silkworm.BlockCleanliness
import Silkworm.FrameInvariants
import Silkworm.SenderNonces
import Silkworm.Replays
import Silkworm.DeployedCode
import Silkworm.Blooms
import Silkworm.IncrementalIndexes
import Silkworm.LoadedTables
import Silkworm.HeaderNumbers
import Silkworm.TransactionLookups
import Silkworm.Workers
import Silkworm.PaddedBlocks
import Silkworm.SlidingWindows
import Silkworm.Sha256
import Silkworm.LittleEndian
import Silkworm.Ripemd160
import Silkworm.Blake2
import Silkworm.Keccak
import Silkworm.EpochSizes
import Silkworm.Ethash
