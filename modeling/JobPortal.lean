import JobPortal.PbftOrder
import JobPortal.PbftFifo
import JobPortal.PaxosQuorum
import JobPortal.PaxosCatchUp
import JobPortal.PaxosAnnounce
import JobPortal.PaxosDecided
import JobPortal.PaxosBlockchain
import JobPortal.Resolve
import JobPortal.PaxosNames
import JobPortal.PbftBindings
import JobPortal.PbftIDs
import JobPortal.PbftLock
import JobPortal.PbftPrepared
import JobPortal.PbftPhases
import JobPortal.PbftQuorums
import JobPortal.PbftTagged
import JobPortal.PbftIndex
import JobPortal.PbftCheckpoints
import JobPortal.BlockHashes
import JobPortal.GossipNetwork
import JobPortal.TreeLocks
import JobPortal.PlumTree
import JobPortal.LazyQueue
import JobPortal.SearchFlood
import JobPortal.BlobWrites
import JobPortal.EncryptedUpload
import JobPortal.ThresholdDecryption
import JobPortal.HrDownload
import JobPortal.HandlerPanics
import JobPortal.RequestRecords
import JobPortal.RequestAccess
import JobPortal.RumorDissemination
import JobPortal.RumorAcks
import JobPortal.Texts
import JobPortal.GraftLoops
import JobPortal.Grafts
import JobPortal.Relaying
import JobPortal.TreeTables
import JobPortal.LinkedLists
import JobPortal.MsgQueues
import JobPortal.RumorQueue
import JobPortal.DataRequests
import JobPortal.SearchRequests
import JobPortal.Overdue
import JobPortal.FetchRetries
import JobPortal.SearchRounds
import JobPortal.GraftNetwork
import JobPortal.SearchBudgets
import JobPortal.FullMatches
import JobPortal.RumorOrder
import JobPortal.Fetching
import JobPortal.AntiEntropy
import JobPortal.FileReturns
import JobPortal.NodeStop
import JobPortal.PbftProgress
