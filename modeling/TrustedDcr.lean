import TrustedDcr.Daemon.Configuration
import TrustedDcr.Daemon.Convert
import TrustedDcr.Daemon.History
import TrustedDcr.Daemon.Network
import TrustedDcr.Daemon.Snapshots
import TrustedDcr.Daemon.Wire
import TrustedDcr.Dcr.Intermediate
import TrustedDcr.Dcr.Locks
import TrustedDcr.Dcr.Records
import TrustedDcr.Dcr.Refinement
import TrustedDcr.Dcr.Semantics
import TrustedDcr.Dcr.Views
import TrustedDcr.Dcr.Workflow
import TrustedDcr.Enclave.Aborts
import TrustedDcr.Enclave.Bounds
import TrustedDcr.Enclave.Checkpoints
import TrustedDcr.Enclave.Clocks
import TrustedDcr.Enclave.Commands
import TrustedDcr.Enclave.Commits
import TrustedDcr.Enclave.Ecalls
import TrustedDcr.Enclave.Filing
import TrustedDcr.Enclave.Following
import TrustedDcr.Enclave.Frame
import TrustedDcr.Enclave.Histories
import TrustedDcr.Enclave.Leading
import TrustedDcr.Enclave.LockIndex
import TrustedDcr.Enclave.Memory
import TrustedDcr.Enclave.Moves
import TrustedDcr.Enclave.Outstanding
import TrustedDcr.Enclave.Parts
import TrustedDcr.Enclave.Patience
import TrustedDcr.Enclave.Peer
import TrustedDcr.Enclave.Quorum
import TrustedDcr.Enclave.Replication
import TrustedDcr.Enclave.Resolution
import TrustedDcr.Enclave.Returns
import TrustedDcr.Enclave.Tenure
import TrustedDcr.Enclave.Timers
import TrustedDcr.Enclave.Walk
import TrustedDcr.Msg.Authentic
import TrustedDcr.Msg.Mac
import TrustedDcr.Msg.Nested
import TrustedDcr.Msg.Types
import TrustedDcr.Msg.Uid
import TrustedDcr.System.Acknowledgements
import TrustedDcr.System.Alone
import TrustedDcr.System.Attempts
import TrustedDcr.System.Bounds
import TrustedDcr.System.Checkpoints
import TrustedDcr.System.Clocks
import TrustedDcr.System.Cluster
import TrustedDcr.System.Commitment
import TrustedDcr.System.Completeness
import TrustedDcr.System.Election
import TrustedDcr.System.Execution
import TrustedDcr.System.Foreign
import TrustedDcr.System.Growth
import TrustedDcr.System.Hosts
import TrustedDcr.System.Informing
import TrustedDcr.System.Leaders
import TrustedDcr.System.LockIndex
import TrustedDcr.System.Locking
import TrustedDcr.System.Logs
import TrustedDcr.System.Matching
import TrustedDcr.System.Memory
import TrustedDcr.System.Network
import TrustedDcr.System.Outstanding
import TrustedDcr.System.Polls
import TrustedDcr.System.Refusals
import TrustedDcr.System.Releases
import TrustedDcr.System.Replicas
import TrustedDcr.System.Requests
import TrustedDcr.System.Routing
import TrustedDcr.System.Run
import TrustedDcr.System.Serial
import TrustedDcr.System.Simulation
import TrustedDcr.System.Sole
import TrustedDcr.System.Stability
import TrustedDcr.System.Stalemate
import TrustedDcr.System.Start
import TrustedDcr.System.Step
import TrustedDcr.System.Synchronisation
import TrustedDcr.System.Terms
import TrustedDcr.System.Timeouts
import TrustedDcr.System.Timers
import TrustedDcr.System.Votes
import TrustedDcr.Theory.Blind
import TrustedDcr.Theory.Codes
import TrustedDcr.Theory.Compositional
import TrustedDcr.Theory.DcrGraph
import TrustedDcr.Theory.DcrViews
import TrustedDcr.Theory.Ledger
import TrustedDcr.Theory.Logs
import TrustedDcr.Theory.Program
import TrustedDcr.Theory.Quorum
import TrustedDcr.Theory.Raft.Matching
import TrustedDcr.Theory.Raft.Model
import TrustedDcr.Theory.Raft.Safety
import TrustedDcr.Theory.Record
