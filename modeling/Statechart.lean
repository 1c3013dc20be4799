import Statechart.Action.Basic
import Statechart.Action.Codec
import Statechart.Action.Collection
import Statechart.Action.Resolved
import Statechart.Association
import Statechart.Chart.Basic
import Statechart.Chart.Compile
import Statechart.Chart.Layout
import Statechart.Checksum
import Statechart.Clock
import Statechart.CommandLine.Arguments
import Statechart.CommandLine.Execution
import Statechart.CommandLine.Help
import Statechart.Configuration
import Statechart.Decimal.Layout
import Statechart.Decimal.Natural
import Statechart.Decimal.Reading
import Statechart.Decimal.Shortest
import Statechart.Diagnostic
import Statechart.Document.Basic
import Statechart.Document.Builder
import Statechart.Document.Printer
import Statechart.Document.Reader
import Statechart.Event
import Statechart.Expression.Basic
import Statechart.Expression.Codec
import Statechart.Fault
import Statechart.Guard.Basic
import Statechart.Guard.Evaluation
import Statechart.Guard.Reader
import Statechart.Json.Basic
import Statechart.Json.Printer
import Statechart.Json.Reader
import Statechart.Json.Record
import Statechart.Listeners
import Statechart.Lookup
import Statechart.Machine
import Statechart.Mailbox
import Statechart.Main
import Statechart.NodeSet
import Statechart.Resolution.Entry
import Statechart.Resolution.Macrostep
import Statechart.Resolution.Microstep
import Statechart.Resolution.Selection
import Statechart.Session.Basic
import Statechart.Session.Operations
import Statechart.Session.Service
import Statechart.Session.Step
import Statechart.Settings.Basic
import Statechart.Settings.Yaml
import Statechart.Snapshot
import Statechart.StateValue
import Statechart.Text.Alphanumeric
import Statechart.Text.Blank
import Statechart.Text.Segments
import Statechart.Yaml.Node.Basic
import Statechart.Yaml.Node.Reader
import Statechart.Yaml.Scalar.Basic
import Statechart.Yaml.Scalar.Block
import Statechart.Yaml.Scalar.Plain
import Statechart.Yaml.Scalar.Quoted
import Statechart.Yaml.Source
import Statechart.Yaml.Tag
import Statechart.Yaml.Token.Basic
import Statechart.Yaml.Token.Layout
import Statechart.Proofs.Chart.Layout
import Statechart.Proofs.Outcome
import Statechart.Proofs.Chart.Ancestry
import Statechart.Proofs.Configuration.Branch
import Statechart.Proofs.Configuration.Named
import Statechart.Proofs.Machine.Isolation
import Statechart.Proofs.Machine.Regions
import Statechart.Proofs.Configuration.Address
import Statechart.Proofs.Configuration.Leaves
import Statechart.Proofs.Machine.Alternation
import Statechart.Proofs.Machine.Restoration
import Statechart.Proofs.Machine.Targets
import Statechart.Proofs.Machine.Bound
import Statechart.Proofs.Machine.Persistence
import Statechart.Proofs.Machine.Quiescence
import Statechart.Proofs.Session.Refinement
import Statechart.Proofs.Session.Disposal
import Statechart.Proofs.Session.Failure
import Statechart.Proofs.Session.Standing
import Statechart.Proofs.Machine.Delays
import Statechart.Proofs.Clock.Timers
import Statechart.Proofs.Clock.Advance
import Statechart.Proofs.Mailbox.Drain
import Statechart.Proofs.Session.Timetable
import Statechart.Proofs.Document.Action
import Statechart.Proofs.Document.RoundTrip
import Statechart.Proofs.Guard.Grammar
import Statechart.Proofs.Guard.Reading
import Statechart.Proofs.Session.Arming
import Statechart.Proofs.Session.Lapse
import Statechart.Proofs.Session.Lone
import Statechart.Proofs.Session.Operated
import Statechart.Proofs.Session.Punctual
import Statechart.Proofs.Machine.Termination
import Statechart.Proofs.Machine.Parallel
import Statechart.Proofs.Machine.Queue
import Statechart.Proofs.Machine.Order
import Statechart.Proofs.Resolution.Internal
import Statechart.Proofs.Guard.Comparison
import Statechart.Proofs.Document.Wire
import Statechart.Proofs.Chart.Path
import Statechart.Proofs.Machine.Offering
import Statechart.Proofs.Json.Merged
import Statechart.Proofs.Document.Builder
import Statechart.Proofs.Document.Listing
import Statechart.Proofs.Chart.Listing
import Statechart.Proofs.Document.Assignment
import Statechart.Proofs.Configuration.Paths
import Statechart.Proofs.Chart.Preorder
