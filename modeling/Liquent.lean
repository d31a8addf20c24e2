import Liquent.SafetyRules.EpochIsolation
import Liquent.SafetyRules.Agreement
import Liquent.BlockBuffer.GapFree
import Liquent.Pipeline.CanonicalLedgerInfo
import Liquent.BlockBuffer.CommitAtomicity
import Liquent.Mempool.BestTxns
import Liquent.Dag.NoHoles
import Liquent.QuorumStore.Availability
import Liquent.BlockStorage.EpochDelivery
import Liquent.BlockStorage.NumberLaw
import Liquent.Rand.Transparent
import Liquent.BlockStorage.SendOnce
import Liquent.Pipeline.VoteCache
import Liquent.Pipeline.VoteOrder
import Liquent.BlockBuffer.PersistNotifier
import Liquent.PendingVotes.TimeoutCerts
import Liquent.Pipeline.CommitReport
import Liquent.BlockStorage.NumberedRandomness
import Liquent.BlockStorage.LatestLedgerInfo
import Liquent.BlockStorage.Paths
import Liquent.BlockBuffer.TxnBuffer
import Liquent.QuorumStore.SoftLimit
import Liquent.QuorumStore.Expiry
import Liquent.Liveness.ProposalLimits
import Liquent.Liveness.ProposerElection
import Liquent.QuorumStore.Quota
