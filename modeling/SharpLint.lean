import SharpLint.Text.Lines
import SharpLint.Text.Span
import SharpLint.Text.Letter
import SharpLint.Text.CharClass
import SharpLint.Text.Quoted
import SharpLint.Tree.NodeKind
import SharpLint.Tree.Token
import SharpLint.Lexeme.Attach
import SharpLint.Tree.Basic
import SharpLint.Grammar.Parse
import SharpLint.Tree.View
import SharpLint.Tree.Build
import SharpLint.Change.Fix
import SharpLint.Binding.Workspace
import SharpLint.Diagnostic.Allow
import SharpLint.Config.Basic
import SharpLint.Rule.Operators
import SharpLint.Rule.Formatting
import SharpLint.Rule.ArraySignature
import SharpLint.Rule.SupportNamespace
import SharpLint.Engine.Repair
import SharpLint.Command.Run
import SharpLint.Main
import SharpLint.File.Pattern
import SharpLint.Proofs.Tree.Replacement
import SharpLint.Proofs.Tree.Search
import SharpLint.Proofs.Tree.Slice
import SharpLint.Proofs.Change.Splice
import SharpLint.Proofs.Change.Edit
import SharpLint.Proofs.Lexeme.Reading
import SharpLint.Proofs.Lexeme.Step
import SharpLint.Proofs.Lexeme.Coverage
import SharpLint.Proofs.Lexeme.Attach
import SharpLint.Proofs.Lexeme.Spelled
import SharpLint.Proofs.Grammar.Exact
import SharpLint.Proofs.Grammar.Makes
import SharpLint.Proofs.Grammar.Alike
import SharpLint.Proofs.Grammar.Expression
import SharpLint.Proofs.Grammar.Declaration
import SharpLint.Proofs.Grammar.CompilationUnit
import SharpLint.Proofs.Engine.Reparse
import SharpLint.Proofs.Grammar.AlikeExpression
import SharpLint.Proofs.Grammar.AlikeUnit
import SharpLint.Proofs.Grammar.Shape
import SharpLint.Proofs.Grammar.ShapeExpression
import SharpLint.Proofs.Grammar.ShapeUnit
import SharpLint.Proofs.Tree.Lookup
import SharpLint.Proofs.Tree.Parts
import SharpLint.Proofs.Tree.Build
import SharpLint.Proofs.Change.Sound
import SharpLint.Document.Order
import SharpLint.Proofs.Document.Sound
import SharpLint.Proofs.Change.Set
import SharpLint.Proofs.Repair.FormatCall
import SharpLint.Proofs.Rule.Formatting
import SharpLint.Proofs.Repair.Proposal
import SharpLint.Proofs.Binding.Host
import SharpLint.Proofs.Repair.Visibility
import SharpLint.Proofs.Engine.Diagnostics
import SharpLint.Proofs.Engine.FixAll
import SharpLint.Proofs.Engine.Rerun
import SharpLint.Proofs.Tree.Descendants
import SharpLint.Proofs.Tree.Layout
import SharpLint.Proofs.Grammar.Rank
import SharpLint.Proofs.Grammar.RankExpression
import SharpLint.Proofs.Grammar.RankUnit
import SharpLint.Proofs.Rule.Implicit
import SharpLint.Proofs.Tree.Nested
import SharpLint.Proofs.Rule.SupportNamespace
import SharpLint.Proofs.Repair.Internal
import SharpLint.Proofs.Engine.Hidden
import SharpLint.Proofs.Tree.Trivia
import SharpLint.Proofs.Repair.Comments
import SharpLint.Proofs.Engine.Comments
import SharpLint.Proofs.Engine.Batches
import SharpLint.Proofs.Binding.Declarations
import SharpLint.Proofs.Grammar.Views
import SharpLint.Proofs.Diagnostic.Order
import SharpLint.Proofs.Engine.Analysis
import SharpLint.Proofs.Tree.Outermost
import SharpLint.Proofs.Change.KeepFirst
import SharpLint.Proofs.Change.Missing
import SharpLint.Proofs.Grammar.Follows
import SharpLint.Proofs.Grammar.FollowsExpression
import SharpLint.Proofs.Grammar.FollowsUnit
import SharpLint.Proofs.Grammar.Operators
import SharpLint.Proofs.Grammar.Precedence
import SharpLint.Proofs.Repair.Modifiers
import SharpLint.Proofs.Tree.Printed
import SharpLint.Proofs.Repair.Wrapped
import SharpLint.Proofs.Engine.Wrapped
import SharpLint.Proofs.Repair.Called
import SharpLint.Proofs.Engine.Called
import SharpLint.Proofs.Text.Lines
import SharpLint.Proofs.Tree.Placed
import SharpLint.Proofs.Diagnostic.Allow
import SharpLint.Proofs.Tree.Position
import SharpLint.Proofs.Change.Disjoint
import SharpLint.Proofs.Binding.TypeOperand
import SharpLint.Proofs.Engine.Stale
import SharpLint.Proofs.Change.Accepted
import SharpLint.Proofs.Engine.Confined
import SharpLint.Proofs.Engine.Counting
import SharpLint.Proofs.Engine.Completed
import SharpLint.Proofs.Engine.Listed
import SharpLint.Proofs.Engine.Sources
import SharpLint.Proofs.Text.Positions
import SharpLint.Proofs.Lexeme.Literal
import SharpLint.Proofs.Tree.Outer
import SharpLint.Proofs.Tree.Traversal
import SharpLint.Proofs.Lexeme.Attached
import SharpLint.Proofs.Lexeme.Bytes
import SharpLint.Proofs.Lexeme.Progress
import SharpLint.Proofs.Grammar.InStep
import SharpLint.Proofs.Grammar.InStepExpression
import SharpLint.Proofs.Grammar.InStepUnit
import SharpLint.Proofs.Grammar.Whole
import SharpLint.Proofs.Grammar.Loops
import SharpLint.Proofs.Grammar.Lookahead
import SharpLint.Proofs.Grammar.Progress
import SharpLint.Proofs.Tree.Skeleton
import SharpLint.Proofs.Binding.Aspect
import SharpLint.Proofs.Rule.Due
import SharpLint.Proofs.Repair.Cleared
import SharpLint.Proofs.Rule.DueNodes
import SharpLint.Proofs.Repair.Clearing
import SharpLint.Proofs.Engine.Reported
import SharpLint.Proofs.Engine.DueFixes
import SharpLint.Proofs.Rule.Agree
import SharpLint.Proofs.Engine.Settled
import SharpLint.Proofs.Engine.Again
import SharpLint.Proofs.Lexeme.Rules
import SharpLint.Proofs.Lexeme.Ahead
import SharpLint.Proofs.Lexeme.Cut
import SharpLint.Proofs.Lexeme.Tokens
import SharpLint.Proofs.Lexeme.Wrap
import SharpLint.Proofs.Lexeme.Exchange
import SharpLint.Proofs.Grammar.Site
import SharpLint.Proofs.Grammar.Path
import SharpLint.Proofs.Grammar.Carry
import SharpLint.Proofs.Grammar.CarrySite
import SharpLint.Proofs.Grammar.CarryExpression
import SharpLint.Proofs.Grammar.CarryUnit
import SharpLint.Proofs.Repair.Readable
import SharpLint.Proofs.Repair.Reread
import SharpLint.Proofs.Repair.Room
import SharpLint.Proofs.Engine.Reread
