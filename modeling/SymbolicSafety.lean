import SymbolicSafety.Checker.Basic
import SymbolicSafety.Checker.Configuration
import SymbolicSafety.Checker.Run
import SymbolicSafety.Checker.Setup
import SymbolicSafety.Checker.Unrolling
import SymbolicSafety.Checker.Verdict
import SymbolicSafety.Circuit.Basic
import SymbolicSafety.Circuit.Problem
import SymbolicSafety.Domain
import SymbolicSafety.Duration
import SymbolicSafety.Formula.Basic
import SymbolicSafety.Formula.Builders
import SymbolicSafety.Formula.Evaluation
import SymbolicSafety.Formula.Message
import SymbolicSafety.Formula.Printer
import SymbolicSafety.Formula.Transformation
import SymbolicSafety.Formula.Traversal
import SymbolicSafety.Formula.Typing
import SymbolicSafety.Foundation.SortedMap
import SymbolicSafety.Foundation.Word
import SymbolicSafety.Grammar.Lexer
import SymbolicSafety.Grammar.Parser
import SymbolicSafety.Grammar.Token
import SymbolicSafety.Grammar.Tree
import SymbolicSafety.Interval
import SymbolicSafety.Layout.Document
import SymbolicSafety.Layout.Highlight
import SymbolicSafety.Proofs.Absorption
import SymbolicSafety.Proofs.Acceptance
import SymbolicSafety.Proofs.Actions
import SymbolicSafety.Proofs.Assignment
import SymbolicSafety.Proofs.Budgets
import SymbolicSafety.Proofs.BuilderMeaning
import SymbolicSafety.Proofs.CanonicalReading
import SymbolicSafety.Proofs.CheckerRun
import SymbolicSafety.Proofs.Compilation
import SymbolicSafety.Proofs.Completeness
import SymbolicSafety.Proofs.Compression
import SymbolicSafety.Proofs.Contraction
import SymbolicSafety.Proofs.Counterexamples
import SymbolicSafety.Proofs.CubeFormula
import SymbolicSafety.Proofs.CubeUnion
import SymbolicSafety.Proofs.Deadlocks
import SymbolicSafety.Proofs.Decisiveness
import SymbolicSafety.Proofs.DeclaredDomains
import SymbolicSafety.Proofs.Derivations
import SymbolicSafety.Proofs.ElementarySystems
import SymbolicSafety.Proofs.Enclosure
import SymbolicSafety.Proofs.Execution
import SymbolicSafety.Proofs.Exploration
import SymbolicSafety.Proofs.Failures
import SymbolicSafety.Proofs.FixedInputs
import SymbolicSafety.Proofs.FoldUnfold
import SymbolicSafety.Proofs.Folding
import SymbolicSafety.Proofs.ForwardConvergence
import SymbolicSafety.Proofs.FrameStack
import SymbolicSafety.Proofs.GateValues
import SymbolicSafety.Proofs.Growth
import SymbolicSafety.Proofs.Images
import SymbolicSafety.Proofs.IndexingAlgebra
import SymbolicSafety.Proofs.Interpolation
import SymbolicSafety.Proofs.IntervalArithmetic
import SymbolicSafety.Proofs.Junctions
import SymbolicSafety.Proofs.LargerBudgets
import SymbolicSafety.Proofs.Layouts
import SymbolicSafety.Proofs.Lexing
import SymbolicSafety.Proofs.Lookup
import SymbolicSafety.Proofs.Loops
import SymbolicSafety.Proofs.Lowering
import SymbolicSafety.Proofs.Meaning
import SymbolicSafety.Proofs.Narrowing
import SymbolicSafety.Proofs.Occurrence
import SymbolicSafety.Proofs.Precedence
import SymbolicSafety.Proofs.Preorder
import SymbolicSafety.Proofs.ProblemMeaning
import SymbolicSafety.Proofs.Progress
import SymbolicSafety.Proofs.Projection
import SymbolicSafety.Proofs.Refinement
import SymbolicSafety.Proofs.RefinementBound
import SymbolicSafety.Proofs.Relocation
import SymbolicSafety.Proofs.Renaming
import SymbolicSafety.Proofs.RoundTrip
import SymbolicSafety.Proofs.Satisfiability
import SymbolicSafety.Proofs.Saturation
import SymbolicSafety.Proofs.Scopes
import SymbolicSafety.Proofs.SolverAnswers
import SymbolicSafety.Proofs.SortSoundness
import SymbolicSafety.Proofs.Sorting
import SymbolicSafety.Proofs.Soundness
import SymbolicSafety.Proofs.Spelling
import SymbolicSafety.Proofs.StateReading
import SymbolicSafety.Proofs.TokenGaps
import SymbolicSafety.Proofs.TransitionSystem
import SymbolicSafety.Proofs.Unambiguity
import SymbolicSafety.Proofs.Unrollings
import SymbolicSafety.Proofs.Verdicts
import SymbolicSafety.Proofs.Versions
import SymbolicSafety.Proofs.WideRange
import SymbolicSafety.Search.Cube
import SymbolicSafety.Search.Exploration
import SymbolicSafety.Search.Propagation
import SymbolicSafety.Solver.Answer
import SymbolicSafety.Solver.Basic
import SymbolicSafety.System.Action
import SymbolicSafety.System.Indexing
import SymbolicSafety.System.Statement
import SymbolicSafety.System.Unfolding
import SymbolicSafety.Text.CharacterWidth
import SymbolicSafety.Text.DisplayWidth
import SymbolicSafety.Text.Emoji
import SymbolicSafety.Text.Ligature
import SymbolicSafety.Toml.Quoted
import SymbolicSafety.Toml.Reader
import SymbolicSafety.Toml.Scalar
import SymbolicSafety.Toml.Value
import SymbolicSafety.Variable
