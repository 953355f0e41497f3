import Rensa.Common.Rose
import Rensa.Common.Descent
import Rensa.Common.Tally
import Rensa.Common.Bytes
import Rensa.Common.Borsh
import Rensa.Common.Float
import Rensa.Common.Handed
import Rensa.Common.Trace
import Rensa.Common.Causal
import Rensa.Common.Tree
import Rensa.Common.Batch
import Rensa.Common.Keyed
import Rensa.Common.Along
import Rensa.Common.SelfDelimiting
import Rensa.Common.InStep
import Rensa.Common.Loop
import Rensa.Common.Cascade
import Rensa.Common.Numeral
import Rensa.Common.Base58
import Rensa.Common.Sql
import Rensa.Common.BinarySearch
import Rensa.Common.Reorder
import Rensa.Common.Flood
import Rensa.Common.Line
import Rensa.Common.Book
import Rensa.Primitives.Model
import Rensa.Primitives.Address
import Rensa.Vm.Model.State
import Rensa.Vm.State
import Rensa.Vm.Model.Contract
import Rensa.Vm.Model.Unit
import Rensa.Vm.Model.Machine
import Rensa.Vm.Model.Ledger
import Rensa.Vm.Model.Currency
import Rensa.Vm.Model.Output
import Rensa.Vm.Unit
import Rensa.Vm.Nested
import Rensa.Vm.Ownership
import Rensa.Vm.Sequential
import Rensa.Vm.Replay
import Rensa.Vm.Rejected
import Rensa.Vm.Diffs
import Rensa.Vm.Nonces
import Rensa.Vm.Outcomes
import Rensa.Vm.Termination
import Rensa.Vm.OutputLimits
import Rensa.Vm.Panics
import Rensa.Vm.Deploy
import Rensa.Vm.Conservation
import Rensa.Vm.Writes
import Rensa.Vm.Supply
import Rensa.Vm.Authorization
import Rensa.Vm.Kinds
import Rensa.Vm.Persistence
import Rensa.Vm.Signing
import Rensa.Vm.Identity
import Rensa.Vm.Commitment
import Rensa.Vm.Derived
import Rensa.Vm.Accepted
import Rensa.Vm.Coins
import Rensa.Vm.Model.Abi
import Rensa.Vm.Model.Runtime
import Rensa.Vm.Runtime
import Rensa.Sdk.Model
import Rensa.Sdk.Abi
import Rensa.Producer.Model
import Rensa.Producer.Order
import Rensa.Producer.Documented
import Rensa.Producer.PayerOrder
import Rensa.Producer.Taken
import Rensa.Consensus.Model.Block
import Rensa.Consensus.Model.ForkTree
import Rensa.Consensus.Model.Orphans
import Rensa.Consensus.Model.Chain
import Rensa.Consensus.Model.Genesis
import Rensa.Consensus.Acts
import Rensa.Consensus.Moves
import Rensa.Consensus.ForkTree
import Rensa.Consensus.WellFormed
import Rensa.Consensus.Links
import Rensa.Consensus.Ghost
import Rensa.Consensus.Issued
import Rensa.Consensus.Deeds
import Rensa.Consensus.Finality
import Rensa.Consensus.Ancestry
import Rensa.Consensus.Hashes
import Rensa.Consensus.Fingerprint
import Rensa.Consensus.Lifecycle
import Rensa.Consensus.OwnVotes
import Rensa.Consensus.EventOrder
import Rensa.Consensus.Stakes
import Rensa.Consensus.Votes
import Rensa.Consensus.Quorum
import Rensa.Consensus.Confirmations
import Rensa.Consensus.VoteOrder
import Rensa.Consensus.Offers
import Rensa.Consensus.Certificates
import Rensa.Consensus.Net
import Rensa.Consensus.Agreement
import Rensa.Consensus.Replicas
import Rensa.Consensus.Transparency
import Rensa.Consensus.Ledger
import Rensa.Consensus.Arrival
import Rensa.Consensus.Repeat
import Rensa.Consensus.Window
import Rensa.Consensus.Flatten
import Rensa.Consensus.Line
import Rensa.Consensus.Upright
import Rensa.Consensus.Closing
import Rensa.Consensus.Liveness
import Rensa.Consensus.Model.Schedule
import Rensa.Consensus.Schedule
import Rensa.Consensus.SlotClock
import Rensa.Storage.Model
import Rensa.Storage.Pruning
import Rensa.Storage.Coherence
import Rensa.Storage.Replayable
import Rensa.Storage.Lookup
import Rensa.Producer.Mempool
import Rensa.Producer.Votes
import Rensa.Rpc.Model
import Rensa.Rpc.Accounts
import Rensa.Rpc.Nonces
import Rensa.Node.Model
import Rensa.Node.Crash
import Rensa.Validator.Model
import Rensa.Validator.Turns
import Rensa.Validator.Honest
import Rensa.Validator.Payload
import Rensa.Validator.Clients
import Rensa.Network.Model.Rpc
import Rensa.Network.Model.View
import Rensa.Network.Model.Tree
import Rensa.Network.Model.Topic
import Rensa.Network.Model.Overlay
import Rensa.Network.Views
import Rensa.Network.ActiveBound
import Rensa.Network.Separation
import Rensa.Network.Symmetry
import Rensa.Network.Broadcast
import Rensa.Network.Cache
import Rensa.Network.Model.Behaviour
import Rensa.Network.Panic
import Rensa.Network.PassiveView
import Rensa.Network.Cascade
import Rensa.Network.Delivery
import Rensa.Network.Model.Mesh
import Rensa.Network.Flooding
import Rensa.Network.Spanning
import Rensa.Network.Model.Handler
import Rensa.Network.Handler
import Rensa.Network.Model.Responder
import Rensa.Network.Responder
import Rensa.Dbsync.Model
import Rensa.Dbsync.Statements
import Rensa.Consensus.Limits
import Rensa.Client.Model
import Rensa.Client.Transactions
import Rensa.Client.Calls
import Rensa.Client.Book
