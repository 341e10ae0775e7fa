import EqSat.Arguments
import EqSat.CommandLine
import EqSat.Constant
import EqSat.EGraph.Basic
import EqSat.EGraph.Listing
import EqSat.EGraph.Rebuild
import EqSat.EGraph.Update
import EqSat.Expr
import EqSat.Extraction
import EqSat.File
import EqSat.Folding
import EqSat.Leaf
import EqSat.Log
import EqSat.Main
import EqSat.Node
import EqSat.Operator
import EqSat.Pattern
import EqSat.Pattern.Matching
import EqSat.Proofs.AnyRules
import EqSat.Proofs.Cheapest
import EqSat.Proofs.Choices
import EqSat.Proofs.ClosedTerms
import EqSat.Proofs.Closure
import EqSat.Proofs.Conflicts
import EqSat.Proofs.Congruence
import EqSat.Proofs.Costs
import EqSat.Proofs.Defaults
import EqSat.Proofs.EGraph.Calls
import EqSat.Proofs.EGraph.Change
import EqSat.Proofs.EGraph.Enter
import EqSat.Proofs.EGraph.Invariant
import EqSat.Proofs.EGraph.Join
import EqSat.Proofs.EGraph.Rebuild
import EqSat.Proofs.EGraph.Relist
import EqSat.Proofs.EGraph.Repair
import EqSat.Proofs.EGraph.Settle
import EqSat.Proofs.EGraph.Work
import EqSat.Proofs.Evaluation
import EqSat.Proofs.Evaluator
import EqSat.Proofs.Extraction
import EqSat.Proofs.History
import EqSat.Proofs.Loose
import EqSat.Proofs.Matching
import EqSat.Proofs.Models
import EqSat.Proofs.Passes
import EqSat.Proofs.Reachable
import EqSat.Proofs.Represented
import EqSat.Proofs.Rounds
import EqSat.Proofs.Runs
import EqSat.Proofs.Simplification
import EqSat.Proofs.Terms
import EqSat.Proofs.UnionFind.Forest
import EqSat.Proofs.Wrapping
import EqSat.Report
import EqSat.Rule
import EqSat.Rule.Default
import EqSat.Rule.Line
import EqSat.Rule.Listing
import EqSat.Rule.Loading
import EqSat.Runner
import EqSat.Sexpr
import EqSat.Simplify
import EqSat.Term
import EqSat.Text.Blank
import EqSat.Text.Digit
import EqSat.Text.Integer
import EqSat.Text.Line
import EqSat.Text.Printable
import EqSat.Text.Quoted
import EqSat.Text.Range
import EqSat.Text.Word
import EqSat.Tree
import EqSat.UnionFind
import EqSat.Proofs.Indexed
import EqSat.Proofs.Coherent
import EqSat.Proofs.Orderly
import EqSat.Proofs.Operations
import EqSat.Proofs.Classes
import EqSat.Proofs.Remembered
import EqSat.Proofs.Saturated
import EqSat.Proofs.KnownClasses
import EqSat.Proofs.Looping
import EqSat.Proofs.Kinds
import EqSat.Proofs.Occurrences
import EqSat.Proofs.Reading
import EqSat.Proofs.Resimplification
import EqSat.Proofs.Embedding
import EqSat.Proofs.Entering
import EqSat.Proofs.RuleOrder
import EqSat.Proofs.Symbols
import EqSat.Proofs.Renaming.Graph
import EqSat.Proofs.Renaming.Run
import EqSat.Proofs.Renaming.Simplification
import EqSat.Proofs.Renaming.Update
import EqSat.Proofs.Shapes
import EqSat.Proofs.Printing.Sexpr
import EqSat.Proofs.Printing.Tokens
import EqSat.Proofs.Printing.Pattern
import EqSat.Proofs.Printing.Term
import EqSat.Proofs.Printing.Equation
import EqSat.Proofs.Printing.Line
import EqSat.Proofs.Printing.Loaded
import EqSat.Proofs.Printing.Listing
import EqSat.Proofs.Termination.Open
import EqSat.Proofs.Termination.Paths
import EqSat.Proofs.Termination.Calls
import EqSat.Proofs.Termination.Rebuild
import EqSat.Proofs.Termination.Run
import EqSat.Proofs.Termination
import EqSat.Proofs.Search
import EqSat.Proofs.Frame
import EqSat.Proofs.Rebuilding
import EqSat.Proofs.Sharing
import EqSat.Proofs.Ties
import EqSat.Proofs.Files
import EqSat.Proofs.Includes
import EqSat.Proofs.Loading
import EqSat.Proofs.Reads
import EqSat.Proofs.Tallies
import EqSat.Proofs.Names
import EqSat.Proofs.PostOrder
import EqSat.Proofs.Walk
import EqSat.Proofs.Spelling
import EqSat.Proofs.GroundPatterns
import EqSat.Proofs.Conversion
import EqSat.Proofs.Unfolding
import EqSat.Proofs.Printing.Infix
import EqSat.Proofs.Accounts
import EqSat.Proofs.UnionFind.Partition
import EqSat.Proofs.Usages
import EqSat.Proofs.Truncation
