import FlowAssembly.Graph.Descriptor
import FlowAssembly.Graph.Dot
import FlowAssembly.Json.Printer
import FlowAssembly.Json.Reader
import FlowAssembly.Render
import FlowAssembly.Workbench
import FlowAssembly.Proofs.Outcome
import FlowAssembly.Proofs.ClaimCounts
import FlowAssembly.Proofs.Making
import FlowAssembly.Proofs.Operations
import FlowAssembly.Proofs.Programs
import FlowAssembly.Proofs.Accounts
import FlowAssembly.Proofs.Drawing
import FlowAssembly.Proofs.Finishing
import FlowAssembly.Proofs.FlowOrder
import FlowAssembly.Proofs.Frames
import FlowAssembly.Proofs.SingleWiring
import FlowAssembly.Proofs.Stock
import FlowAssembly.Proofs.Turns
import FlowAssembly.Proofs.StepTurns
import FlowAssembly.Proofs.Histories
import FlowAssembly.Proofs.Reaching
import FlowAssembly.Proofs.Deals
import FlowAssembly.Proofs.Tidiness
import FlowAssembly.Proofs.Custody
import FlowAssembly.Proofs.Outputs
import FlowAssembly.Proofs.Chain
import FlowAssembly.Proofs.Readers
import FlowAssembly.Proofs.Consumers
import FlowAssembly.Proofs.Visits
import FlowAssembly.Proofs.Ledger
import FlowAssembly.Proofs.Transfers
import FlowAssembly.Proofs.Interceptions
import FlowAssembly.Proofs.Binding
import FlowAssembly.Proofs.Calls
import FlowAssembly.Proofs.Gathering
import FlowAssembly.Proofs.Convergence
import FlowAssembly.Proofs.Origins
import FlowAssembly.Proofs.Extension
import FlowAssembly.Proofs.Conclusions
import FlowAssembly.Proofs.Unawaited
import FlowAssembly.Proofs.InputChannel
import FlowAssembly.Proofs.FlowInput
import FlowAssembly.Proofs.NamedInput
import FlowAssembly.Proofs.RouterOrder
import FlowAssembly.Proofs.Precedence
import FlowAssembly.Proofs.Mentions
import FlowAssembly.Proofs.Charting
import FlowAssembly.Proofs.ChartedSteps
import FlowAssembly.Proofs.Cyclicity
import FlowAssembly.Proofs.Acyclicity
import FlowAssembly.Proofs.Takers
import FlowAssembly.Proofs.Handover
import FlowAssembly.Proofs.Aftermath
import FlowAssembly.Proofs.Subscribers
import FlowAssembly.Proofs.IndexedRegistry
import FlowAssembly.Proofs.EntryNames
import FlowAssembly.Proofs.Views
import FlowAssembly.Proofs.RegisteredChannels
import FlowAssembly.Proofs.SideFlows
import FlowAssembly.Proofs.Paths
import FlowAssembly.Proofs.Numerals
import FlowAssembly.Proofs.Addresses
import FlowAssembly.Proofs.References
import FlowAssembly.Proofs.Labels
import FlowAssembly.Proofs.Records
import FlowAssembly.Proofs.RouterOptions
import FlowAssembly.Proofs.Strictness
import FlowAssembly.Proofs.LastEntries
import FlowAssembly.Proofs.Cursors
