import TorusRouting.Adjacency
import TorusRouting.CommandLine.Arguments
import TorusRouting.CommandLine.Help
import TorusRouting.CommandLine.Result
import TorusRouting.CommandLine.RouteFile
import TorusRouting.CommandLine.Setting
import TorusRouting.CommandLine.Synthesize
import TorusRouting.Config
import TorusRouting.Epoch.Basic
import TorusRouting.Epoch.Buffer
import TorusRouting.Epoch.Op
import TorusRouting.Epoch.Pipe
import TorusRouting.Epoch.Validity
import TorusRouting.Failure
import TorusRouting.File.Codec
import TorusRouting.File.Format
import TorusRouting.L1
import TorusRouting.Loopback
import TorusRouting.Main
import TorusRouting.Mesh.Core
import TorusRouting.Mesh.Device
import TorusRouting.Mesh.Network
import TorusRouting.Pass
import TorusRouting.PipeClass
import TorusRouting.Randomness.Draw
import TorusRouting.Randomness.Keystream
import TorusRouting.Relay.Candidate
import TorusRouting.Relay.Greedy
import TorusRouting.Relay.Grouping
import TorusRouting.Relay.Growth
import TorusRouting.Relay.Sizes
import TorusRouting.Relay.Targets
import TorusRouting.Relay.Upsizing
import TorusRouting.Route.Box
import TorusRouting.Route.Overlap
import TorusRouting.Route.Selection
import TorusRouting.Synthesis.Builder
import TorusRouting.Synthesis.Chain
import TorusRouting.Synthesis.Placement
import TorusRouting.Table
import TorusRouting.Total
import TorusRouting.Word
import TorusRouting.Proofs.Keyed
import TorusRouting.Proofs.Outcome
import TorusRouting.Proofs.Relay.Grouping
import TorusRouting.Proofs.Relay.History
import TorusRouting.Proofs.Relay.Sizes
import TorusRouting.Proofs.L1.Accounting
import TorusRouting.Proofs.L1.Growth
import TorusRouting.Proofs.L1.Upsizing
import TorusRouting.Proofs.Routing.Frame
import TorusRouting.Proofs.L1.Capacity
import TorusRouting.Proofs.Routing.Assignment
import TorusRouting.Proofs.Routing.Balance
import TorusRouting.Proofs.Routing.AllOrNothing
import TorusRouting.Proofs.Mesh.Distance
import TorusRouting.Proofs.Mesh.Overlap
import TorusRouting.Proofs.Mesh.Sweep
import TorusRouting.Proofs.Routing.Validity
import TorusRouting.Proofs.Routing.Classification
import TorusRouting.Proofs.Routing.Selection
import TorusRouting.Proofs.Routing.Failures
import TorusRouting.Proofs.Routing.Tally
import TorusRouting.Proofs.Routing.Moves
import TorusRouting.Proofs.Routing.Traffic
import TorusRouting.Proofs.File.Laws
import TorusRouting.Proofs.File.RoundTrip
import TorusRouting.Proofs.Routing.Commute
import TorusRouting.Proofs.L1.Isolation
import TorusRouting.Proofs.Routing.BestEffort
import TorusRouting.Proofs.WriteOnce
import TorusRouting.Proofs.Routing.Faults
import TorusRouting.Proofs.Randomness.Ranges
import TorusRouting.Proofs.Synthesis.Placement
import TorusRouting.Proofs.Routing.Success
import TorusRouting.Proofs.Synthesis.Building
import TorusRouting.Proofs.Synthesis.Wiring
import TorusRouting.Proofs.Synthesis.Chain
import TorusRouting.Proofs.L1.Totals
import TorusRouting.Proofs.Synthesis.Routable
import TorusRouting.Proofs.Mesh.Closest
import TorusRouting.Proofs.Routing.Evening
import TorusRouting.Proofs.Routing.Flips
import TorusRouting.Proofs.Relay.Rounds
import TorusRouting.Proofs.L1.Refusal
import TorusRouting.Proofs.L1.Turns
import TorusRouting.Proofs.L1.Maximal
import TorusRouting.Proofs.L1.Evenness
import TorusRouting.Proofs.Mesh.Walk
import TorusRouting.Proofs.Mesh.Adjacency
import TorusRouting.Proofs.Routing.OffChip
import TorusRouting.Proofs.L1.Proportion
import TorusRouting.Proofs.Routing.DirectMulticast
import TorusRouting.Proofs.Routing.Statistics
import TorusRouting.Proofs.L1.Exactness
import TorusRouting.Proofs.Synthesis.Laying
import TorusRouting.Proofs.Routing.RowMulticast
import TorusRouting.Proofs.Synthesis.DirectFeed
import TorusRouting.Proofs.Mesh.Paths
import TorusRouting.Proofs.Relay.Ending
import TorusRouting.Proofs.Relay.Partition
import TorusRouting.Proofs.Relay.Search
import TorusRouting.Proofs.Mesh.LeastHops
