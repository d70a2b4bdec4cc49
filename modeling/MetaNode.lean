import MetaNode.AccountBalance
import MetaNode.AccountCopy
import MetaNode.AccountProto
import MetaNode.AccountStateChan
import MetaNode.ArgumentEncode
import MetaNode.BadgerDB
import MetaNode.BatchStore
import MetaNode.BlockHashWatch
import MetaNode.CircuitBreaker
import MetaNode.ClientHandler
import MetaNode.Complier
import MetaNode.ConnectionCalls
import MetaNode.ConnectionIO
import MetaNode.ConnectionSend
import MetaNode.ConnectionsStats
import MetaNode.EthSigner
import MetaNode.ExecuteSCResults
import MetaNode.FileDownload
import MetaNode.FileLogger
import MetaNode.FullDb
import MetaNode.GenesisConfig
import MetaNode.LevelDBManager
import MetaNode.LogCleaner
import MetaNode.LoggerOutputs
import MetaNode.MemoryDBLocks
import MetaNode.NodeSetOps
import MetaNode.NonceCache
import MetaNode.ProofVerifier
import MetaNode.ReceiptWaiters
import MetaNode.ReceiptsGas
import MetaNode.ReceiptsStore
import MetaNode.RemoteStorageResponses
import MetaNode.RemoteStorageWire
import MetaNode.SimpleDBBatch
import MetaNode.SimpleDBConcurrent
import MetaNode.SocketServer
import MetaNode.TransactionCache
import MetaNode.TrieAtomic
import MetaNode.TrieAuthentic
import MetaNode.TrieCount
import MetaNode.TrieOldKeys
import MetaNode.TrieRootHash
import MetaNode.TrieStorageKeys
import MetaNode.TrieTracer
import MetaNode.WaitReceipt
import MetaNode.Web3Transaction
