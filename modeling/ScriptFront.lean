import ScriptFront.Text.Chars
import ScriptFront.Text.Printable
import ScriptFront.Text.Quoted
import ScriptFront.Text.Blank
import ScriptFront.Text.Line
import ScriptFront.Text.Control
import ScriptFront.Token.Kind
import ScriptFront.Token.Basic
import ScriptFront.Proofs.Token.Lexeme
import ScriptFront.Token.Lexer
import ScriptFront.Tree.Basic
import ScriptFront.Tree.Render
import ScriptFront.Tree.Entries
import ScriptFront.Literal.Integer
import ScriptFront.Literal.Binary64
import ScriptFront.Literal.Decimal
import ScriptFront.Literal.Quoted
import ScriptFront.Diagnostic.Basic
import ScriptFront.Diagnostic.Report
import ScriptFront.Grammar.Power
import ScriptFront.Grammar.Basic
import ScriptFront.Parser.State
import ScriptFront.Parser.Rules
import ScriptFront.Parser.Basic
import ScriptFront.Command.Similar
import ScriptFront.Command.Arguments
import ScriptFront.Command.Run
import ScriptFront.Main
import ScriptFront.Proofs.Token.Tape
import ScriptFront.Proofs.Token.Lexer
import ScriptFront.Proofs.Parser.Cursor
import ScriptFront.Proofs.Parser.Forward
import ScriptFront.Proofs.Parser.Budget
import ScriptFront.Proofs.Parser.Clean
import ScriptFront.Proofs.Parser.Rules
import ScriptFront.Proofs.Parser.Climbing
import ScriptFront.Proofs.Token.Decimal
import ScriptFront.Proofs.Syntax.Derivation
import ScriptFront.Proofs.Syntax.Standard
import ScriptFront.Proofs.Syntax.Soundness
import ScriptFront.Proofs.Syntax.Completeness
import ScriptFront.Proofs.Token.Shape
import ScriptFront.Proofs.Token.Tiling
import ScriptFront.Proofs.Token.Ending
import ScriptFront.Proofs.Tree.Entries
import ScriptFront.Proofs.Tree.Spans
import ScriptFront.Proofs.Parser.Locality
import ScriptFront.Proofs.Syntax.Written
import ScriptFront.Proofs.Syntax.Rendering
import ScriptFront.Proofs.Syntax.RoundTrip
import ScriptFront.Proofs.Parser.Order
import ScriptFront.Proofs.Parser.Stream
import ScriptFront.Proofs.Token.Boundary
import ScriptFront.Proofs.Syntax.Simulation
import ScriptFront.Proofs.Syntax.Semicolons
import ScriptFront.Proofs.Syntax.Sequence
import ScriptFront.Proofs.Parser.Causes
import ScriptFront.Proofs.Parser.Ends
import ScriptFront.Proofs.Token.Forms
import ScriptFront.Proofs.Token.Place
import ScriptFront.Proofs.Literal.Integer
import ScriptFront.Proofs.Tree.Nodes
import ScriptFront.Proofs.Parser.Ensures
import ScriptFront.Proofs.Token.Spacing
import ScriptFront.Proofs.Syntax.Literals
import ScriptFront.Proofs.Text.Line
import ScriptFront.Proofs.Diagnostic.Caret
import ScriptFront.Proofs.Syntax.Blanks
import ScriptFront.Proofs.Syntax.Keys
import ScriptFront.Proofs.Tree.Bill
import ScriptFront.Proofs.Parser.Credit
import ScriptFront.Proofs.Parser.Holdings
