import MassBFT.Chaincode.SmallBank
import MassBFT.Client.AcknowledgedCounter
import MassBFT.Client.LightClient
import MassBFT.Common.PortPlan
import MassBFT.Consensus.ModuleCoordinator
import MassBFT.Consensus.ProposalSignatures
import MassBFT.Consensus.RequestReplicator
import MassBFT.Exec.SerialCoordinator
import MassBFT.Exec.Threads
import MassBFT.Exec.WriteBasedSerial
import MassBFT.Mix.Repeated
import MassBFT.Order.AssignerCalls
import MassBFT.Order.CellIndex
import MassBFT.Order.Epochs
import MassBFT.Order.GeoBFT
import MassBFT.Order.LeaderLog
import MassBFT.Order.Report
import MassBFT.Order.RoundScan
import MassBFT.Replication.FragmentPlan
import MassBFT.Replication.HostileMessages
import MassBFT.Replication.Overlap
import MassBFT.Replication.ParallelProofs
import MassBFT.Replication.Rejected
import MassBFT.Replication.RingBuffer
import MassBFT.Replication.SeveralInstances
import MassBFT.TPCC.OrderLines
import MassBFT.TPCC.Replicas
