import ArrayExpr.Capability
import ArrayExpr.Capability.Run
import ArrayExpr.CommandLine.Arguments
import ArrayExpr.CommandLine.Folder
import ArrayExpr.CommandLine.Run
import ArrayExpr.CommandLine.Switch
import ArrayExpr.CommandLine.Usage
import ArrayExpr.CommandLine.Word
import ArrayExpr.Decimal.Binary64
import ArrayExpr.Decimal.Fraction
import ArrayExpr.Decimal.Notation
import ArrayExpr.Decimal.Shortest
import ArrayExpr.Evaluation
import ArrayExpr.Fault
import ArrayExpr.Json.Basic
import ArrayExpr.Json.Display
import ArrayExpr.Json.Reader
import ArrayExpr.Key
import ArrayExpr.Machine
import ArrayExpr.Main
import ArrayExpr.Outcome
import ArrayExpr.Proofs.Appending
import ArrayExpr.Proofs.Assignments
import ArrayExpr.Proofs.Blame
import ArrayExpr.Proofs.BreakingOff
import ArrayExpr.Proofs.Broadcasting
import ArrayExpr.Proofs.CallOrder
import ArrayExpr.Proofs.Causes
import ArrayExpr.Proofs.CommandEndings
import ArrayExpr.Proofs.Commuting
import ArrayExpr.Proofs.Composition
import ArrayExpr.Proofs.Contract
import ArrayExpr.Proofs.Correspondence
import ArrayExpr.Proofs.Data
import ArrayExpr.Proofs.Defects
import ArrayExpr.Proofs.Desugaring
import ArrayExpr.Proofs.Doubles
import ArrayExpr.Proofs.Encoding
import ArrayExpr.Proofs.Endurance
import ArrayExpr.Proofs.Evaluation
import ArrayExpr.Proofs.FirstDefect
import ArrayExpr.Proofs.Flattening
import ArrayExpr.Proofs.Foreign
import ArrayExpr.Proofs.Grammar
import ArrayExpr.Proofs.Hiding
import ArrayExpr.Proofs.Illustrations
import ArrayExpr.Proofs.Indices
import ArrayExpr.Proofs.IntegerArithmetic
import ArrayExpr.Proofs.Isolation
import ArrayExpr.Proofs.LaterCalls
import ArrayExpr.Proofs.Ledger
import ArrayExpr.Proofs.Likeness
import ArrayExpr.Proofs.Lockstep
import ArrayExpr.Proofs.LockstepEvaluation
import ArrayExpr.Proofs.Logging
import ArrayExpr.Proofs.Markers
import ArrayExpr.Proofs.Marking
import ArrayExpr.Proofs.Matrices
import ArrayExpr.Proofs.NativeData
import ArrayExpr.Proofs.Nesting
import ArrayExpr.Proofs.NoSilentFailure
import ArrayExpr.Proofs.Numerals
import ArrayExpr.Proofs.Operands
import ArrayExpr.Proofs.Orderly
import ArrayExpr.Proofs.Outcome
import ArrayExpr.Proofs.Positions
import ArrayExpr.Proofs.ReadAtoms
import ArrayExpr.Proofs.ReadBack
import ArrayExpr.Proofs.Rectangles
import ArrayExpr.Proofs.Run
import ArrayExpr.Proofs.Scope
import ArrayExpr.Proofs.Shapes
import ArrayExpr.Proofs.Simulation
import ArrayExpr.Proofs.SimulationEvaluation
import ArrayExpr.Proofs.Spans
import ArrayExpr.Proofs.Sums
import ArrayExpr.Proofs.TokenTree
import ArrayExpr.Proofs.Transposition
import ArrayExpr.Proofs.UnknownMembers
import ArrayExpr.Proofs.Unread
import ArrayExpr.Proofs.Verbosity
import ArrayExpr.Proofs.WellFormedRuns
import ArrayExpr.Proofs.WellFormedTensors
import ArrayExpr.Proofs.WellFormedValues
import ArrayExpr.Report
import ArrayExpr.Resolution
import ArrayExpr.Tensor.Arithmetic
import ArrayExpr.Tensor.Basic
import ArrayExpr.Tensor.Kind
import ArrayExpr.Tensor.Layout
import ArrayExpr.Tensor.MatrixProduct
import ArrayExpr.Tensor.Reduce
import ArrayExpr.Tensor.Shape
import ArrayExpr.Tensor.Text
import ArrayExpr.Text.Character
import ArrayExpr.Text.Quoted
import ArrayExpr.Text.Utf8
import ArrayExpr.Token.Basic
import ArrayExpr.Token.Decode
import ArrayExpr.Token.Location
import ArrayExpr.Value.Basic
import ArrayExpr.Value.Display
import ArrayExpr.Value.Merge
import ArrayExpr.Value.ToTensor
