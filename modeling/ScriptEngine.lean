import ScriptEngine.Text
import ScriptEngine.Position
import ScriptEngine.Fraction
import ScriptEngine.Double.Basic
import ScriptEngine.Double.Nearest
import ScriptEngine.Double.Numeral
import ScriptEngine.Double.Decimal
import ScriptEngine.Token.Kind
import ScriptEngine.Value
import ScriptEngine.Error
import ScriptEngine.Token.Basic
import ScriptEngine.Token.Lexer
import ScriptEngine.Token.Scanner
import ScriptEngine.Tree.Basic
import ScriptEngine.Tree.Node
import ScriptEngine.Tree.Sexpr
import ScriptEngine.Tree.Parser
import ScriptEngine.Script
import ScriptEngine.NameTable
import ScriptEngine.Run.State
import ScriptEngine.Run.Operator
import ScriptEngine.Run.Interpreter
import ScriptEngine.Host.Routine
import ScriptEngine.Host.Registry
import ScriptEngine.Host.Argument
import ScriptEngine.Host.Stock
import ScriptEngine.Session
import ScriptEngine.Proofs.Grammar.Derivation
import ScriptEngine.Proofs.Grammar.Unambiguity
import ScriptEngine.Proofs.Parser.Reading
import ScriptEngine.Proofs.Parser.Soundness
import ScriptEngine.Proofs.Parser.Completeness
import ScriptEngine.Proofs.Lexer.Progress
import ScriptEngine.Proofs.Parser.Program
import ScriptEngine.Proofs.Run.Ends
import ScriptEngine.Proofs.Run.Safety
import ScriptEngine.Proofs.Run.ValueStack
import ScriptEngine.Proofs.Script.Compile
import ScriptEngine.Proofs.Script.RoundTrip
import ScriptEngine.Proofs.Script.Safety
import ScriptEngine.Proofs.Double.Expansion
import ScriptEngine.Proofs.Lexer.Lexeme
import ScriptEngine.Proofs.Lexer.Layout
import ScriptEngine.Proofs.Lexer.Accounting
import ScriptEngine.Proofs.Grammar.Relabel
import ScriptEngine.Proofs.Tree.WellFormed
import ScriptEngine.Proofs.Tree.Rendering
import ScriptEngine.Proofs.Tree.Faithful
import ScriptEngine.Proofs.Tree.Least
import ScriptEngine.Proofs.Tree.Listing
import ScriptEngine.Proofs.Script.Tokens
import ScriptEngine.Proofs.Lexer.Spacing
import ScriptEngine.Proofs.Run.Course
import ScriptEngine.Proofs.Run.Plan
import ScriptEngine.Proofs.Run.Congruence
import ScriptEngine.Proofs.Run.Cancellation
import ScriptEngine.Proofs.Run.Termination
import ScriptEngine.Proofs.Double.Figure
import ScriptEngine.Proofs.Tree.Decoder
import ScriptEngine.Proofs.Script.Printing
import ScriptEngine.Proofs.Lexer.Joining
import ScriptEngine.Proofs.Run.Relocation
import ScriptEngine.Proofs.Script.Sequence
import ScriptEngine.Proofs.Run.Observation
import ScriptEngine.Proofs.Host.Conduct
import ScriptEngine.Proofs.Run.Blame
import ScriptEngine.Proofs.Script.Blame
import ScriptEngine.Proofs.Lexer.Listing
import ScriptEngine.Proofs.Script.Pipeline
import ScriptEngine.Proofs.Script.Reformatting
import ScriptEngine.Proofs.Run.Footprint
import ScriptEngine.Proofs.Run.Visits
import ScriptEngine.Proofs.Run.Assignments
import ScriptEngine.Proofs.Script.Texts
import ScriptEngine.Proofs.Run.Invariant
import ScriptEngine.Proofs.Run.StackMachine
import ScriptEngine.Proofs.Tree.Height
import ScriptEngine.Proofs.Script.Recursion
import ScriptEngine.Proofs.Run.Milestones
import ScriptEngine.Proofs.Run.Polls
import ScriptEngine.Proofs.Run.CallOrder
import ScriptEngine.Proofs.Host.Backtrace
import ScriptEngine.Proofs.Double.Grid
import ScriptEngine.Proofs.Double.Rounding
import ScriptEngine.Proofs.Double.Range
import ScriptEngine.Proofs.Double.Written
import ScriptEngine.Proofs.Lexer.Literal
import ScriptEngine.Proofs.Lexer.Window
import ScriptEngine.Proofs.Lexer.Scanning
import ScriptEngine.Proofs.Lexer.Restart
import ScriptEngine.Proofs.Script.Numbers
import ScriptEngine.Proofs.Session.History
import ScriptEngine.Proofs.Session.Bindings
import ScriptEngine.Proofs.Host.Dispatch
