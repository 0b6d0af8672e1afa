import Reckoner.Builtin
import Reckoner.Cartesian
import Reckoner.Decimal.Basic
import Reckoner.Decimal.Reader
import Reckoner.Decimal.Shortest
import Reckoner.Double.Basic
import Reckoner.Double.Text
import Reckoner.Error
import Reckoner.Evaluation
import Reckoner.Gamma
import Reckoner.Loop
import Reckoner.Machine
import Reckoner.Node
import Reckoner.Number.Basic
import Reckoner.Number.Factorial
import Reckoner.Operator
import Reckoner.Proofs.Arithmetic
import Reckoner.Proofs.Canonical
import Reckoner.Proofs.Correspondence
import Reckoner.Proofs.Course
import Reckoner.Proofs.Definedness
import Reckoner.Proofs.Effect
import Reckoner.Proofs.Failure
import Reckoner.Proofs.Growth
import Reckoner.Proofs.Incremental
import Reckoner.Proofs.Journal
import Reckoner.Proofs.Nearest
import Reckoner.Proofs.Nesting
import Reckoner.Proofs.Positions
import Reckoner.Proofs.Preservation
import Reckoner.Proofs.Program
import Reckoner.Proofs.Reading
import Reckoner.Proofs.Renaming
import Reckoner.Proofs.Rendering
import Reckoner.Proofs.Rounding
import Reckoner.Proofs.Shadowing
import Reckoner.Proofs.Shortest
import Reckoner.Proofs.Simulation
import Reckoner.Proofs.Store
import Reckoner.Proofs.Timeless
import Reckoner.Proofs.Tree
import Reckoner.Proofs.Visibility
import Reckoner.Proofs.WriteSet
import Reckoner.Scalar
import Reckoner.Scope
import Reckoner.Session
import Reckoner.State
import Reckoner.Table
import Reckoner.Value.Basic
import Reckoner.Value.Text
import Reckoner.Vec
import Reckoner.Proofs.Iteration
import Reckoner.Proofs.Totals
import Reckoner.Proofs.Sums
import Reckoner.Proofs.Ending
import Reckoner.Proofs.Counting
import Reckoner.Proofs.Writing
import Reckoner.Proofs.Binding
import Reckoner.Proofs.Overwriting
import Reckoner.Proofs.Assignment
import Reckoner.Proofs.Editing
import Reckoner.Proofs.Operands
import Reckoner.Proofs.Factorial
