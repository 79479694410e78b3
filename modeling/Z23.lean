import Z23.Bloom.Bloom
import Z23.Bloom.Merkle
import Z23.Bloom.MerkleBlock
import Z23.Bloom.MerkleSound
import Z23.Chain.BlockIndex
import Z23.Chain.Mmb
import Z23.Chain.MmbProof
import Z23.Chain.MmbSound
import Z23.Chain.Mmr
import Z23.Chain.SkipList
import Z23.Coins.CoinsMap
import Z23.Coins.CoinsMapAlloc
import Z23.Coins.CoinsViewCache
import Z23.Coins.Undo
import Z23.Coins.UtxoCommitment
import Z23.Coins.UtxoSha3
import Z23.Commons.JsonGrammar
import Z23.Commons.ZDiff
import Z23.Commons.ZGlob
import Z23.Commons.ZJsonp
import Z23.Commons.ZJsonpAccepts
import Z23.Commons.ZJsonpMachine
import Z23.Commons.ZJsonpScan
import Z23.Commons.ZLru
import Z23.Commons.ZMap
import Z23.Commons.ZTrie
import Z23.Commons.ZU256
import Z23.Commons.ZUtf8
import Z23.Consensus.BlockProof
import Z23.Consensus.Coinbase
import Z23.Consensus.CoinsMath
import Z23.Consensus.Compact
import Z23.Consensus.Pow
import Z23.Consensus.SigHash
import Z23.Consensus.SigHashCommits
import Z23.Consensus.Subsidy
import Z23.Consensus.SupplyCap
import Z23.Consensus.TxStructural
import Z23.Consensus.TxStructuralLoops
import Z23.Consensus.TxStructuralRules
import Z23.Core.ArithUint256
import Z23.Core.Serialize
import Z23.Core.Varint
import Z23.Crypto.Blake2b
import Z23.Crypto.Equihash
import Z23.Crypto.EquihashBijection
import Z23.Crypto.EquihashPack
import Z23.Crypto.EquihashSolve
import Z23.Crypto.EquihashVerify
import Z23.Jobs.AddedIndex
import Z23.Jobs.UtxoApplyConservation
import Z23.Jobs.UtxoApplyDb
import Z23.Jobs.UtxoApplyDelta
import Z23.Jobs.UtxoApplyDrain
import Z23.Jobs.UtxoApplyFold
import Z23.Jobs.UtxoApplyInverse
import Z23.Jobs.UtxoApplyLive
import Z23.Jobs.UtxoApplyReorg
import Z23.Jobs.UtxoApplyRollback
import Z23.Jobs.UtxoApplyStage
import Z23.Lib.AppendDisk
import Z23.Lib.BitGroups
import Z23.Lib.Bytes
import Z23.Lib.Codec
import Z23.Lib.CommonSublist
import Z23.Lib.Failing
import Z23.Lib.FiniteMap
import Z23.Lib.FoldM
import Z23.Lib.KeyedRows
import Z23.Lib.LeadingBits
import Z23.Lib.Limbs
import Z23.Lib.LinearProbing
import Z23.Lib.LinkedList
import Z23.Lib.Matching
import Z23.Lib.MerkleTree
import Z23.Lib.Mixing
import Z23.Lib.Mountains
import Z23.Lib.OpenTable
import Z23.Lib.OrderedGraph
import Z23.Lib.PairTree
import Z23.Lib.ProbeGap
import Z23.Lib.ProbeTable
import Z23.Lib.Recency
import Z23.Lib.Scan
import Z23.Lib.Smallest
import Z23.Lib.SortedArray
import Z23.Lib.Spans
import Z23.Lib.Sql
import Z23.Lib.TombTable
import Z23.Lib.Tombstones
import Z23.Lib.Transactions
import Z23.Lib.WagnerTree
import Z23.Lib.Watching
import Z23.Market.ZswapYardsale
import Z23.Math.Varint
import Z23.Net.AddrMan
import Z23.Net.AddrManCapacity
import Z23.Net.AddrManInvariant
import Z23.Net.AddrManMoves
import Z23.Net.AddrManStore
import Z23.Net.AddrManTables
import Z23.Net.BlockSwarm
import Z23.Net.CompactBlocks
import Z23.Net.CompactBlocksRebuild
import Z23.Net.CompactBlocksRelay
import Z23.Net.CompactBlocksTable
import Z23.Net.Download
import Z23.Net.DownloadAssign
import Z23.Net.DownloadAttempt
import Z23.Net.DownloadCooldown
import Z23.Net.DownloadEffect
import Z23.Net.DownloadGreedy
import Z23.Net.DownloadInvariant
import Z23.Net.DownloadParkedRuns
import Z23.Net.DownloadParking
import Z23.Net.DownloadQset
import Z23.Net.DownloadQueue
import Z23.Net.DownloadSelection
import Z23.Net.DownloadSlots
import Z23.Net.DownloadStage
import Z23.Net.DownloadTaken
import Z23.Net.FlyClient
import Z23.Net.NetAddr
import Z23.Noise.SessionNonces
import Z23.Noise.SessionReceiver
import Z23.Noise.SessionTransport
import Z23.Primitives
import Z23.Primitives.TransactionCanonical
import Z23.Primitives.TransactionGuards
import Z23.Primitives.TransactionWire
import Z23.Reducer.Frontier
import Z23.Reducer.ItagWatermark
import Z23.Reducer.ProvableFrontier
import Z23.Rvemu.MulDiv
import Z23.Rvemu.TranslateSv39
import Z23.Sapling.IncrementalSerialize
import Z23.Sapling.IncrementalTree
import Z23.Sapling.IncrementalWitness
import Z23.Script.Aborts
import Z23.Script.Envelope
import Z23.Script.Interpreter
import Z23.Script.Multisig
import Z23.Script.P2shSigOps
import Z23.Script.PushOnly
import Z23.Script.Script
import Z23.Script.ScriptNum
import Z23.Script.SigEncoding
import Z23.Script.SigOps
import Z23.Script.SoftFork
import Z23.Script.Standard
import Z23.Script.Watch
import Z23.Storage.ChainLog
import Z23.Storage.ChainLogBinding
import Z23.Storage.ChainLogCrash
import Z23.Storage.ChainLogFrames
import Z23.Storage.ChainLogTampering
import Z23.Storage.CoinsKv
import Z23.Storage.CoinsRam
import Z23.Storage.CoinsRamCommitment
import Z23.Storage.CoinsRamFlush
import Z23.Storage.CoinsRamRefines
import Z23.Sync.Stage
import Z23.Sync.StageLcc
import Z23.Sync.SyncReduce
import Z23.Sync.SyncSession
import Z23.Validation.ActiveChainAncestry
import Z23.Validation.ActiveChainWindow
import Z23.Validation.BlockMap
import Z23.Validation.ChainSupply
import Z23.Validation.CheckBlock
import Z23.Validation.CoinsValue
import Z23.Validation.ConnectBlock
import Z23.Validation.ConnectBlockConservation
import Z23.Validation.DisconnectBlock
import Z23.Validation.InvalidateBlock
import Z23.Validation.MerkleRoot
import Z23.Validation.MostWork
import Z23.Validation.ReconsiderBlock
import Z23.Validation.TxMempool
import Z23.Validation.TxMempoolIndex
import Z23.Validation.TxMempoolRun
import Z23.Validation.UpdateCoins
import Z23.Vcs.PackageDeps
import Z23.Vcs.PackageDepsDepths
import Z23.Vcs.PackageDepsWalk
import Z23.Vcs.PackageLock
import Z23.Vcs.PackageLockWire
