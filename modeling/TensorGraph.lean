import TensorGraph.CommandLine.Command
import TensorGraph.CommandLine.Options
import TensorGraph.CommandLine.Sample
import TensorGraph.CompiledFunction
import TensorGraph.Count
import TensorGraph.Environment
import TensorGraph.Facts.Arith
import TensorGraph.Facts.Basic
import TensorGraph.Facts.Layout
import TensorGraph.Facts.Rule
import TensorGraph.Formula.Basic
import TensorGraph.Formula.Build
import TensorGraph.Formula.InputSpec
import TensorGraph.Formula.Reading
import TensorGraph.Formula.Token
import TensorGraph.Graph.Basic
import TensorGraph.Graph.IdMap
import TensorGraph.Graph.Infer
import TensorGraph.Graph.Node
import TensorGraph.Graph.Order
import TensorGraph.Graph.Outline
import TensorGraph.Graph.Plan
import TensorGraph.Graph.PlanningFault
import TensorGraph.Graph.Sketch
import TensorGraph.Graph.SlotTable
import TensorGraph.Main
import TensorGraph.Mode
import TensorGraph.Operator.Basic
import TensorGraph.Operator.Elementwise
import TensorGraph.Operator.Fused
import TensorGraph.Operator.Inputs
import TensorGraph.Operator.Kernel
import TensorGraph.Operator.Layout
import TensorGraph.Operator.MatMul
import TensorGraph.Operator.Reduce
import TensorGraph.Operator.ScalarExpr
import TensorGraph.Operator.ScalarFn
import TensorGraph.Operator.ShapeAccess
import TensorGraph.Operator.Softmax
import TensorGraph.Program.Check
import TensorGraph.Program.Linking
import TensorGraph.Program.Log
import TensorGraph.Program.Run
import TensorGraph.Program.RunError
import TensorGraph.Program.Timing
import TensorGraph.Proofs.Facts.Acceptance
import TensorGraph.Proofs.Facts.Arithmetic
import TensorGraph.Proofs.Facts.Comparison
import TensorGraph.Proofs.Facts.Concat
import TensorGraph.Proofs.Facts.Description
import TensorGraph.Proofs.Facts.Drawing
import TensorGraph.Proofs.Facts.ExactSizes
import TensorGraph.Proofs.Facts.Layout
import TensorGraph.Proofs.Facts.Operators
import TensorGraph.Proofs.Facts.Reshaping
import TensorGraph.Proofs.Facts.Shapes
import TensorGraph.Proofs.Facts.Supply
import TensorGraph.Proofs.Facts.Targets
import TensorGraph.Proofs.Formula.Building
import TensorGraph.Proofs.Formula.Derivations
import TensorGraph.Proofs.Formula.Grammar
import TensorGraph.Proofs.Formula.Lexemes
import TensorGraph.Proofs.Formula.Meaning
import TensorGraph.Proofs.Formula.Sketches
import TensorGraph.Proofs.Graph.Changes
import TensorGraph.Proofs.Graph.Dependence
import TensorGraph.Proofs.Graph.Edges
import TensorGraph.Proofs.Graph.History
import TensorGraph.Proofs.Graph.Inference
import TensorGraph.Proofs.Graph.Plan
import TensorGraph.Proofs.Graph.Recording
import TensorGraph.Proofs.Graph.Removal
import TensorGraph.Proofs.Graph.Rendering
import TensorGraph.Proofs.Graph.Scheduling
import TensorGraph.Proofs.Graph.Sorting
import TensorGraph.Proofs.Graph.Trace
import TensorGraph.Proofs.Graph.Validity
import TensorGraph.Proofs.Operator.Cells
import TensorGraph.Proofs.Operator.Concatenation
import TensorGraph.Proofs.Operator.ElementwiseKernel
import TensorGraph.Proofs.Operator.Expressions
import TensorGraph.Proofs.Operator.Identities
import TensorGraph.Proofs.Operator.Kernels
import TensorGraph.Proofs.Operator.Lanes
import TensorGraph.Proofs.Operator.NumericEquality
import TensorGraph.Proofs.Operator.Overwriting
import TensorGraph.Proofs.Operator.Pointwise
import TensorGraph.Proofs.Operator.Products
import TensorGraph.Proofs.Operator.Reductions
import TensorGraph.Proofs.Operator.Results
import TensorGraph.Proofs.Program.Binding
import TensorGraph.Proofs.Program.Execution
import TensorGraph.Proofs.Program.Memory
import TensorGraph.Proofs.Program.Reference
import TensorGraph.Proofs.Program.Stability
import TensorGraph.Proofs.Program.Tracking
import TensorGraph.Proofs.Rewrite.Admission
import TensorGraph.Proofs.Rewrite.Aliases
import TensorGraph.Proofs.Rewrite.AssertionRules
import TensorGraph.Proofs.Rewrite.Assertions
import TensorGraph.Proofs.Rewrite.Backtracking
import TensorGraph.Proofs.Rewrite.ChainValues
import TensorGraph.Proofs.Rewrite.Chains
import TensorGraph.Proofs.Rewrite.ElementwiseFusion
import TensorGraph.Proofs.Rewrite.Evaluation
import TensorGraph.Proofs.Rewrite.ExactOptimizing
import TensorGraph.Proofs.Rewrite.ExactRules
import TensorGraph.Proofs.Rewrite.FunctionCounts
import TensorGraph.Proofs.Rewrite.Fusions
import TensorGraph.Proofs.Rewrite.Linkable
import TensorGraph.Proofs.Rewrite.MatchedNodes
import TensorGraph.Proofs.Rewrite.Matching
import TensorGraph.Proofs.Rewrite.Optimizing
import TensorGraph.Proofs.Rewrite.NeutralElements
import TensorGraph.Proofs.Rewrite.Passes
import TensorGraph.Proofs.Rewrite.Proposals
import TensorGraph.Proofs.Rewrite.Pruning
import TensorGraph.Proofs.Rewrite.Simulation
import TensorGraph.Proofs.Rewrite.StandardRules
import TensorGraph.Proofs.Rewrite.Unfolding
import TensorGraph.Proofs.Sequence
import TensorGraph.Proofs.Single.Integers
import TensorGraph.Proofs.Single.Rounding
import TensorGraph.Proofs.Single.Values
import TensorGraph.Proofs.Size.Broadcasts
import TensorGraph.Proofs.Size.Equality
import TensorGraph.Proofs.Size.Extrema
import TensorGraph.Proofs.Size.Meaning
import TensorGraph.Proofs.Size.Products
import TensorGraph.Proofs.Size.Quotients
import TensorGraph.Proofs.Size.Ranges
import TensorGraph.Proofs.Size.Simplification
import TensorGraph.Proofs.Size.Sums
import TensorGraph.Proofs.Size.Termination
import TensorGraph.Proofs.Size.Terms
import TensorGraph.Proofs.Tensor.Indices
import TensorGraph.Proofs.Tensor.Joins
import TensorGraph.Proofs.Tensor.Elements
import TensorGraph.Proofs.Tensor.Offsets
import TensorGraph.Proofs.Tensor.Overwriting
import TensorGraph.Proofs.Tensor.Permutation
import TensorGraph.Report
import TensorGraph.Rewrite.Admission
import TensorGraph.Rewrite.Basic
import TensorGraph.Rewrite.Diagnostics
import TensorGraph.Rewrite.Optimizer
import TensorGraph.Rewrite.Pattern
import TensorGraph.Rewrite.RuleSet
import TensorGraph.Rewrite.Rules.Algebra
import TensorGraph.Rewrite.Rules.Assertion
import TensorGraph.Rewrite.Rules.Elementwise
import TensorGraph.Rewrite.Rules.Folding
import TensorGraph.Rewrite.Rules.Shape
import TensorGraph.Rewrite.Rules.Stable
import TensorGraph.Rewrite.Standard
import TensorGraph.Rewrite.Stats
import TensorGraph.Rewrite.Trail
import TensorGraph.Single.Basic
import TensorGraph.Single.Text
import TensorGraph.Size.Basic
import TensorGraph.Size.Eval
import TensorGraph.Size.Range
import TensorGraph.Size.Simplify
import TensorGraph.Size.Text
import TensorGraph.Tensor.Basic
import TensorGraph.Tensor.Registers
import TensorGraph.Tensor.Shape
import TensorGraph.Tensor.Value
import TensorGraph.Text
import TensorGraph.Text.CharClass
import TensorGraph.Text.CharTable
import TensorGraph.Text.InvisibleTable
import TensorGraph.Text.JsonDoc
import TensorGraph.Text.Numeral
import TensorGraph.Word
import TensorGraph.Proofs.Size.Linear
import TensorGraph.Proofs.Size.Canonical
import TensorGraph.Proofs.Size.Idempotence
import TensorGraph.Proofs.Size.Phrases
import TensorGraph.Proofs.Size.Spelling
import TensorGraph.Proofs.Facts.Symbols
import TensorGraph.Proofs.Graph.Freshness
import TensorGraph.Proofs.Graph.TopologicalOrder
import TensorGraph.Proofs.Rewrite.Completeness
import TensorGraph.Proofs.Graph.Restriction
import TensorGraph.Proofs.Rewrite.PrunedGraphs
import TensorGraph.Proofs.Tensor.Walks
import TensorGraph.Proofs.Rewrite.Transposition
import TensorGraph.Proofs.Operator.TargetShapes
import TensorGraph.Proofs.Program.NamedSizes
import TensorGraph.Proofs.Program.Observations
import TensorGraph.Proofs.Graph.Annotation
import TensorGraph.Proofs.Formula.Declarations
import TensorGraph.Proofs.Graph.Outline
import TensorGraph.Proofs.Graph.OutlineText
