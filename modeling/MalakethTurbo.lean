import MalakethTurbo.Wire.Field
import MalakethTurbo.Data.OrderedMap
import MalakethTurbo.Types.Signing
import MalakethTurbo.App.Streaming
import MalakethTurbo.App.Store
import MalakethTurbo.App.Ledger
import MalakethTurbo.Logic.Action
import MalakethTurbo.Logic.Transition
import MalakethTurbo.App.State
import MalakethTurbo.App.Methods
import MalakethTurbo.App.Run
import MalakethTurbo.App.Handover
import MalakethTurbo.App.Decisions
import MalakethTurbo.App.Proposals
import MalakethTurbo.App.RoundTrip
import MalakethTurbo.App.Network
import MalakethTurbo.App.Agreement
import MalakethTurbo.App.Binding
import MalakethTurbo.App.Execution
import MalakethTurbo.Codec.Schema
import MalakethTurbo.Codec.Messages
import MalakethTurbo.Codec.RoundTrip
import MalakethTurbo.Codec.Canonical
import MalakethTurbo.Codec.Totality
import MalakethTurbo.App.Calls
import MalakethTurbo.App.Slots
import MalakethTurbo.App.Notes
import MalakethTurbo.App.History
import MalakethTurbo.App.StreamIds
import MalakethTurbo.App.Blocks
import MalakethTurbo.App.Delivery
import MalakethTurbo.App.Arrivals
import MalakethTurbo.App.Pruning
import MalakethTurbo.App.Serving
import MalakethTurbo.Data.Repetition
import MalakethTurbo.Types.ProposerSelector
import MalakethTurbo.Types.ValidatorOrder
import MalakethTurbo.App.BlockFile
import MalakethTurbo.App.BlockExecutor
import MalakethTurbo.App.BlockLog
import MalakethTurbo.App.BlockRecords
import MalakethTurbo.App.LogReport
import MalakethTurbo.Logic.Tickets
import MalakethTurbo.Logic.Quorum
import MalakethTurbo.App.BlockGenerator
import MalakethTurbo.App.Nonces
import MalakethTurbo.App.Interleaving
import MalakethTurbo.App.Restarts
import MalakethTurbo.Cli.Init
import MalakethTurbo.Cli.Start
import MalakethTurbo.Logic.Refinement
import MalakethTurbo.Logic.TotalOrder
import MalakethTurbo.Logic.Interruption
import MalakethTurbo.App.Recovery
import MalakethTurbo.App.Transport
import MalakethTurbo.App.Provenance
import MalakethTurbo.App.Accountability
import MalakethTurbo.App.Chain
import MalakethTurbo.App.Cluster
import MalakethTurbo.App.Progress
import MalakethTurbo.App.Numbers
