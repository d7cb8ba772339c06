import HotstuffDag.Proof.Quorum
import HotstuffDag.Proof.Domains
import HotstuffDag.Proof.Contents
import HotstuffDag.Proof.Assembled
import HotstuffDag.Proof.VoteOnce
import HotstuffDag.Proof.ProposeOnce
import HotstuffDag.Proof.CertificateUnique
import HotstuffDag.Proof.AbaValidity
import HotstuffDag.Proof.AbaAgreement
import HotstuffDag.Proof.CommitOnce
import HotstuffDag.Proof.ViewChange
import HotstuffDag.Proof.Heights
import HotstuffDag.Proof.HashLinks
import HotstuffDag.Proof.CommitTermination
import HotstuffDag.Proof.NoPanic
import HotstuffDag.Proof.StoreTask
import HotstuffDag.Proof.PayloadContents
import HotstuffDag.Proof.Availability
import HotstuffDag.Proof.MempoolWait
import HotstuffDag.Proof.SyncTask
import HotstuffDag.Proof.KeyText
import HotstuffDag.Proof.PayloadRequests
import HotstuffDag.Proof.SpentPayloads
import HotstuffDag.Proof.TimeoutLock
import HotstuffDag.Proof.ChainOrder
import HotstuffDag.Proof.HeightSums
import HotstuffDag.Proof.AbaPace
import HotstuffDag.Proof.Stages
import HotstuffDag.Proof.RoundChange
import HotstuffDag.Proof.CoinAgreement
import HotstuffDag.Proof.AbaVotes
import HotstuffDag.Proof.CoinPhase
import HotstuffDag.Proof.Output
import HotstuffDag.Proof.CommitFailure
import HotstuffDag.Proof.CommitOrder
import HotstuffDag.Proof.FutureMessages
import HotstuffDag.Proof.LaterStages
import HotstuffDag.Proof.ValQuorums
import HotstuffDag.Proof.AuxValue
import HotstuffDag.Proof.Silence
import HotstuffDag.Proof.DecisiveProof
import HotstuffDag.Proof.ShareRelease
import HotstuffDag.Proof.MadeOnce
import HotstuffDag.Proof.Verification
import HotstuffDag.Proof.Collected
import HotstuffDag.Proof.Thresholds
import HotstuffDag.Proof.LocalPayloads
import HotstuffDag.Proof.MempoolRetry
import HotstuffDag.Proof.VoteTermination
import HotstuffDag.Proof.LeaderRotation
import HotstuffDag.Proof.Batching
import HotstuffDag.Proof.ProcessedBlocks
import HotstuffDag.Proof.FastPath
import HotstuffDag.Proof.TotalOrder
import HotstuffDag.Proof.Retrieval
import HotstuffDag.Proof.Network
import HotstuffDag.Proof.Quorate
import HotstuffDag.Proof.Epochs
import HotstuffDag.Proof.Supply
import HotstuffDag.Library.Symmetry
import HotstuffDag.Proof.Blind
import HotstuffDag.Cluster
import HotstuffDag.Proof.Cluster
import HotstuffDag.Proof.PayloadHolders
