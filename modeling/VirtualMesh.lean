import VirtualMesh.Count
import VirtualMesh.Time.Delay
import VirtualMesh.Time.Instant
import VirtualMesh.Binary64
import VirtualMesh.Decimal.Layout
import VirtualMesh.Address
import VirtualMesh.Config
import VirtualMesh.Consensus.State
import VirtualMesh.Latency
import VirtualMesh.Shutdown
import VirtualMesh.Stats
import VirtualMesh.Random.Layers
import VirtualMesh.Random.Normal
import VirtualMesh.Json.Basic
import VirtualMesh.Json.Literal
import VirtualMesh.Json.Numeral
import VirtualMesh.Json.Parser
import VirtualMesh.Scheduler.Basic
import VirtualMesh.Scheduler.Plan
import VirtualMesh.Scheduler.Timers
import VirtualMesh.Ticker
import VirtualMesh.Consensus.Basic
import VirtualMesh.Engine.Basic
import VirtualMesh.Mesh
import VirtualMesh.Peer
import VirtualMesh.Simulation.Basic
import VirtualMesh.Simulation.Command
import VirtualMesh.Json.Coded
import VirtualMesh.Json.Values
import VirtualMesh.Scenario.Summary
import VirtualMesh.Proofs.Simulation.Messages
import VirtualMesh.Proofs.Simulation.Statistics
import VirtualMesh.Proofs.Time.Sums
import VirtualMesh.Proofs.Decimal
import VirtualMesh.Proofs.Time.Reading
import VirtualMesh.Proofs.Latency
import VirtualMesh.Proofs.Simulation.Order
import VirtualMesh.Proofs.Gossip
import VirtualMesh.Proofs.Simulation.Flooding
import VirtualMesh.Proofs.Simulation.Convergence
import VirtualMesh.Proofs.Simulation.Timing
import VirtualMesh.Proofs.Simulation.Closing
import VirtualMesh.Proofs.Simulation.Holding
import VirtualMesh.Proofs.Simulation.Ticks
import VirtualMesh.Proofs.Simulation.Rate
import VirtualMesh.Proofs.Simulation.Updates
import VirtualMesh.Proofs.Merging
import VirtualMesh.Proofs.Simulation.Flights
import VirtualMesh.Proofs.Simulation.Draining
import VirtualMesh.Proofs.Simulation.Report
import VirtualMesh.Proofs.Simulation.Reordering
import VirtualMesh.Proofs.Scheduler.Parallel
import VirtualMesh.Proofs.Scheduler.Picking
import VirtualMesh.Proofs.Scheduler.Firing
import VirtualMesh.Proofs.Scheduler.Balance
import VirtualMesh.Proofs.Scheduler.Stepping
import VirtualMesh.Proofs.Simulation.Kinship
import VirtualMesh.Proofs.Simulation.Verdicts
import VirtualMesh.Proofs.Simulation.Isolation
import VirtualMesh.Proofs.Simulation.Starting
import VirtualMesh.Proofs.Simulation.Joining
import VirtualMesh.Proofs.Scenario.Interleaving
import VirtualMesh.Proofs.Scenario.Playing
import VirtualMesh.Proofs.Scenario.Accounting
import VirtualMesh.Proofs.Receiving
import VirtualMesh.Proofs.Simulation.Scheduling
import VirtualMesh.Proofs.Simulation.Settling
import VirtualMesh.Proofs.Simulation.Building
import VirtualMesh.Proofs.Simulation.Drawing
import VirtualMesh.Proofs.Turns
import VirtualMesh.Proofs.Simulation.Attaching
import VirtualMesh.Proofs.Simulation.Contention
import VirtualMesh.Proofs.Mean
import VirtualMesh.Proofs.Json.Grammar
import VirtualMesh.Proofs.Json.Literals
import VirtualMesh.Proofs.Json.Parsing
import VirtualMesh.Proofs.Json.Records
import VirtualMesh.Proofs.Json.Values
