import CodeCompletion.Analysis.Return
import CodeCompletion.Analysis.Scope
import CodeCompletion.Analysis.Task
import CodeCompletion.Analysis.TaskSize
import CodeCompletion.Analysis.Value
import CodeCompletion.Analysis.Walk
import CodeCompletion.Candidate.Basic
import CodeCompletion.Candidate.Keyword
import CodeCompletion.Candidate.Lookup
import CodeCompletion.Candidate.Ranking
import CodeCompletion.Caret.Context
import CodeCompletion.Caret.Intent
import CodeCompletion.Caret.Region
import CodeCompletion.CommandLine.Arguments
import CodeCompletion.CommandLine.Folder
import CodeCompletion.CommandLine.Help
import CodeCompletion.CommandLine.Json
import CodeCompletion.CommandLine.Report
import CodeCompletion.CommandLine.Run
import CodeCompletion.Main
import CodeCompletion.Number.Binary64
import CodeCompletion.Number.Layout
import CodeCompletion.Number.Shortest
import CodeCompletion.Parser.Function
import CodeCompletion.Parser.Grammar
import CodeCompletion.Parser.Operator
import CodeCompletion.Parser.State
import CodeCompletion.Parser.Statement
import CodeCompletion.Parser.Value
import CodeCompletion.Program.Tree
import CodeCompletion.Realm.Basic
import CodeCompletion.Realm.Completion
import CodeCompletion.Realm.Reading
import CodeCompletion.Realm.Standard
import CodeCompletion.Session.Basic
import CodeCompletion.Session.Repair
import CodeCompletion.Settings.Basic
import CodeCompletion.Settings.File
import CodeCompletion.Settings.Limits
import CodeCompletion.Settings.Table
import CodeCompletion.Shape.Basic
import CodeCompletion.Shape.Facet
import CodeCompletion.Shape.Merge
import CodeCompletion.SyntaxError
import CodeCompletion.Text.Alphabetic
import CodeCompletion.Text.CharClass
import CodeCompletion.Text.Extending
import CodeCompletion.Text.LineTable
import CodeCompletion.Text.Numeral
import CodeCompletion.Text.Position
import CodeCompletion.Text.Quoted
import CodeCompletion.Text.Ranges
import CodeCompletion.Text.Unprintable
import CodeCompletion.Token.Basic
import CodeCompletion.Token.Gap
import CodeCompletion.Token.NumberLiteral
import CodeCompletion.Token.Punctuation
import CodeCompletion.Token.Reading
import CodeCompletion.Token.RegexLiteral
import CodeCompletion.Token.Stream
import CodeCompletion.Token.StringLiteral
import CodeCompletion.Token.TemplateLiteral
import CodeCompletion.Token.Word
import CodeCompletion.Proofs.Session.Run
import CodeCompletion.Proofs.Session.History
import CodeCompletion.Proofs.Session.Background
import CodeCompletion.Proofs.Text.Place
import CodeCompletion.Proofs.Token.Extent
import CodeCompletion.Proofs.Token.Tiling
import CodeCompletion.Proofs.Parser.Reach
import CodeCompletion.Proofs.Parser.Spans
import CodeCompletion.Proofs.Program.TreeNode
import CodeCompletion.Proofs.Parser.Tidy
import CodeCompletion.Proofs.Parser.Function
import CodeCompletion.Proofs.Parser.Value
import CodeCompletion.Proofs.Parser.Operator
import CodeCompletion.Proofs.Parser.Statement
import CodeCompletion.Proofs.Parser.Nesting
import CodeCompletion.Proofs.Program.Spelling
import CodeCompletion.Proofs.Shape.Declaration
import CodeCompletion.Proofs.Analysis.Visit
import CodeCompletion.Proofs.Analysis.Parts
import CodeCompletion.Proofs.Analysis.Locality
import CodeCompletion.Proofs.Analysis.Parameters
import CodeCompletion.Proofs.Analysis.Return
import CodeCompletion.Proofs.Analysis.Invariant
import CodeCompletion.Proofs.Shape.Names
import CodeCompletion.Proofs.Analysis.Names
import CodeCompletion.Proofs.Token.Spelling
import CodeCompletion.Proofs.Candidate.Origin
import CodeCompletion.Proofs.Session.Placeholder
import CodeCompletion.Proofs.Candidate.Completions
import CodeCompletion.Proofs.Candidate.Lookup
import CodeCompletion.Proofs.Candidate.Ranking
import CodeCompletion.Proofs.Program.Descent
import CodeCompletion.Proofs.Parser.Depth.Mode
import CodeCompletion.Proofs.Parser.Depth.Value
import CodeCompletion.Proofs.Parser.Depth.Statement
import CodeCompletion.Proofs.Token.Settled
import CodeCompletion.Proofs.Parser.Depth.Cap
import CodeCompletion.Proofs.Token.Concatenation
import CodeCompletion.Proofs.Program.Erasure
import CodeCompletion.Proofs.Parser.Lockstep.Twins
import CodeCompletion.Proofs.Parser.Lockstep.Primitives
import CodeCompletion.Proofs.Parser.Lockstep.Function
import CodeCompletion.Proofs.Parser.Lockstep.Value
import CodeCompletion.Proofs.Parser.Lockstep.Operator
import CodeCompletion.Proofs.Parser.Lockstep.Statement
import CodeCompletion.Proofs.Parser.Composition
import CodeCompletion.Proofs.Token.Shape
import CodeCompletion.Proofs.Token.Truncation
import CodeCompletion.Proofs.Caret.Scan
import CodeCompletion.Proofs.Caret.Agreement
import CodeCompletion.Proofs.Shape.Merge
import CodeCompletion.Proofs.Analysis.Budget
import CodeCompletion.Proofs.Candidate.Instances
import CodeCompletion.Proofs.Shape.Join
import CodeCompletion.Proofs.Parser.Layout
import CodeCompletion.Proofs.Analysis.Sequence
import CodeCompletion.Proofs.Parser.Precedence
import CodeCompletion.Proofs.Parser.Course.Basic
import CodeCompletion.Proofs.Parser.Course.Expression
import CodeCompletion.Proofs.Parser.Course.Program
import CodeCompletion.Proofs.Shape.Joined
import CodeCompletion.Proofs.Candidate.Monotonicity
import CodeCompletion.Proofs.Shape.Worklist
import CodeCompletion.Proofs.Analysis.Activity
import CodeCompletion.Proofs.Analysis.Steadiness
import CodeCompletion.Proofs.Analysis.ArrowBody
import CodeCompletion.Proofs.Realm.Inheritance
import CodeCompletion.Proofs.Text.Offset
import CodeCompletion.Proofs.Token.Length
import CodeCompletion.Proofs.Token.Verbatim
import CodeCompletion.Proofs.Analysis.ObjectLiteral
import CodeCompletion.Proofs.Analysis.Callee
import CodeCompletion.Proofs.Token.Escape
import CodeCompletion.Proofs.Token.StringLiteral
import CodeCompletion.Proofs.Caret.Intent
import CodeCompletion.Proofs.Caret.Touched
import CodeCompletion.Proofs.Token.Name
import CodeCompletion.Proofs.Token.Fault
import CodeCompletion.Proofs.Parser.Fault
import CodeCompletion.Proofs.Trace.Plan
import CodeCompletion.Proofs.Trace.Grammar
