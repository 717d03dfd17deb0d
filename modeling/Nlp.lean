import Nlp.Ascending
import Nlp.Complex
import Nlp.Decimal.Numeral
import Nlp.Decimal.Shortest
import Nlp.Decimal.Style
import Nlp.Derivative.Engine
import Nlp.Derivative.Jacobian
import Nlp.Derivative.Kernel
import Nlp.Derivative.Method
import Nlp.Derivative.Partition
import Nlp.Derivative.Session
import Nlp.Double
import Nlp.Error
import Nlp.Event
import Nlp.Formula.Basic
import Nlp.Formula.Model
import Nlp.Group.Endpoint
import Nlp.Group.Endpoints
import Nlp.Group.Mailbox
import Nlp.Group.Network
import Nlp.Group.Parts
import Nlp.Group.Run
import Nlp.Group.Script
import Nlp.Group.Single
import Nlp.Group.Task
import Nlp.History.Codec
import Nlp.History.Report
import Nlp.History.Solution
import Nlp.Json.Basic
import Nlp.Json.Parser
import Nlp.Json.Printer
import Nlp.Linear
import Nlp.Options.Record
import Nlp.Options.Schema
import Nlp.Options.Store
import Nlp.Options.Table
import Nlp.Options.Value
import Nlp.Problem.Basic
import Nlp.Problem.Evaluation
import Nlp.Problem.Kind
import Nlp.Problem.Model
import Nlp.Program
import Nlp.Proofs.Contract
import Nlp.Proofs.Decimal
import Nlp.Proofs.Derivative.Columns
import Nlp.Proofs.Derivative.Commands
import Nlp.Proofs.Derivative.Engine
import Nlp.Proofs.Derivative.Expense
import Nlp.Proofs.Derivative.Fallback
import Nlp.Proofs.Derivative.Handshake
import Nlp.Proofs.Derivative.Jacobian
import Nlp.Proofs.Derivative.Local
import Nlp.Proofs.Derivative.Modes
import Nlp.Proofs.Derivative.Nearby
import Nlp.Proofs.Derivative.Partition
import Nlp.Proofs.Derivative.Polynomial
import Nlp.Proofs.Derivative.Reports
import Nlp.Proofs.Derivative.Round
import Nlp.Proofs.Derivative.Safety
import Nlp.Proofs.Derivative.Session
import Nlp.Proofs.Derivative.Unaided
import Nlp.Proofs.Double
import Nlp.Proofs.Exact
import Nlp.Proofs.Extended
import Nlp.Proofs.Group.Collectives
import Nlp.Proofs.Group.Conclusion
import Nlp.Proofs.Group.Conduct
import Nlp.Proofs.Group.Conformance
import Nlp.Proofs.Group.Crew
import Nlp.Proofs.Group.Deadlock
import Nlp.Proofs.Group.Exchange
import Nlp.Proofs.Group.Invariant
import Nlp.Proofs.Group.Ledger
import Nlp.Proofs.Group.Lockstep
import Nlp.Proofs.Group.Loss
import Nlp.Proofs.Group.Mailbox
import Nlp.Proofs.Group.Progress
import Nlp.Proofs.Group.Schedule
import Nlp.Proofs.Group.Transfer
import Nlp.Proofs.Group.Turns
import Nlp.Proofs.History.Stored
import Nlp.Proofs.Json.Layout
import Nlp.Proofs.Json.Scalar
import Nlp.Proofs.Likeness
import Nlp.Proofs.Linear
import Nlp.Proofs.Options.Admission
import Nlp.Proofs.Options.Store
import Nlp.Proofs.Options.Stored
import Nlp.Proofs.Order
import Nlp.Proofs.Problem.Registry
import Nlp.Proofs.Run
import Nlp.Proofs.Solve.Asking
import Nlp.Proofs.Solve.Baseline
import Nlp.Proofs.Solve.Box
import Nlp.Proofs.Solve.Completeness
import Nlp.Proofs.Solve.History
import Nlp.Proofs.Solve.Joint
import Nlp.Proofs.Solve.Mirror
import Nlp.Proofs.Solve.Modes
import Nlp.Proofs.Solve.Statistics
import Nlp.Proofs.Solve.Tally
import Nlp.Proofs.Solve.Values
import Nlp.Proofs.Solve.Watched
import Nlp.Proofs.Solver.Acceptable
import Nlp.Proofs.Solver.Basic
import Nlp.Proofs.Solver.Box
import Nlp.Proofs.Solver.Callbacks
import Nlp.Proofs.Solver.Certificate
import Nlp.Proofs.Solver.Codes
import Nlp.Proofs.Solver.Confinement
import Nlp.Proofs.Solver.Consistency
import Nlp.Proofs.Solver.Curvature
import Nlp.Proofs.Solver.Descent
import Nlp.Proofs.Solver.Expansion
import Nlp.Proofs.Solver.Heeding
import Nlp.Proofs.Solver.Inner
import Nlp.Proofs.Solver.Iterates
import Nlp.Proofs.Solver.Lengths
import Nlp.Proofs.Solver.Merit
import Nlp.Proofs.Solver.Minimize
import Nlp.Proofs.Solver.Multipliers
import Nlp.Proofs.Solver.Outer
import Nlp.Proofs.Solver.Record
import Nlp.Proofs.Solver.Secant
import Nlp.Proofs.Solver.Stall
import Nlp.Proofs.Solver.StepCap
import Nlp.Proofs.Solver.Strict
import Nlp.Proofs.Solver.Unconstrained
import Nlp.Proofs.Solver.Verbosity
import Nlp.Proofs.Solver.Walk
import Nlp.Proofs.Wire.RoundTrip
import Nlp.Proofs.Wire.Unambiguous
import Nlp.Proofs.Wire.Utf8
import Nlp.Scalar
import Nlp.Solve.Adapter
import Nlp.Solve.Bridge
import Nlp.Solve.Probe
import Nlp.Solve.Record
import Nlp.Solve.Workbench
import Nlp.Solver.AugmentedLagrangian
import Nlp.Solver.Basic
import Nlp.Solver.Config
import Nlp.Solver.Minimize
import Nlp.Solver.ProjectedBfgs
import Nlp.Status
import Nlp.Text.Column
import Nlp.Text.Escaped
import Nlp.Text.Hex
import Nlp.Text.Lower
import Nlp.Text.Printable
import Nlp.Text.Utf8
import Nlp.Version
import Nlp.Wire.Codec
import Nlp.Wire.Fault
import Nlp.Wire.Message
