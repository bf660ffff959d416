import ScriptFront.Parser.Rules

/-!
# The parser

A `Parser` is a grammar and a state. What it parses comes with the parser to go on with, whether it
succeeds or not. `none` is no answer: the grammar has a rule that calls itself without reading on,
or reads on behind the end of the input.
-/

namespace ScriptFront

/-- Parses a goal through at most `budget` nested layers. -/
def Grammar.run (g : Grammar) : (budget : Nat) → {α : Type} → Goal α → Parse α
  | 0, _, _ => Parse.starve
  | budget + 1, _, goal => g.layer (g.run budget) goal

structure Parser where
  grammar : Grammar
  state : State

/-- What a call of a parser gives. -/
abbrev Attempt (α : Type) : Type := Option (Except Diagnostic α × Parser)

namespace Parser

/-- A parser of the standard language. -/
def ofLexer (lx : Lexer) : Parser := ⟨.standard, .ofLexer lx⟩

def current (p : Parser) : Token := p.state.current

def peek (p : Parser) : Token := p.state.peek

def diagnostics (p : Parser) : List Diagnostic := p.state.diagnostics.toList

/-- Where the current token starts. -/
def position (p : Parser) : Position := p.current.position

/-- Every token nests four layers at most, and there is no more than one for each character. -/
def budget (p : Parser) : Nat := 4 * p.state.lexer.left + 32

def attempt {α : Type} (p : Parser) (rule : Parses → Parse α) : Attempt α :=
  match rule (p.grammar.run p.budget) p.state with
  | .done a s => some (.ok a, { p with state := s })
  | .failed d s => some (.error d, { p with state := s })
  | .starved => none

def advance (p : Parser) : Parser := { p with state := p.state.advance }

def record (p : Parser) (d : Diagnostic) : Parser := { p with state := p.state.record d }

def expect (p : Parser) (kind : Kind) : Attempt Token := p.attempt fun _ => Parse.expect kind

def expr (p : Parser) (min : Power) : Attempt Expr := p.attempt fun self => self (.expr min)

def slot (p : Parser) (min : Power) : Attempt (Option Expr) :=
  p.attempt fun self => parseSlot self min

def list (p : Parser) (closing : Kind) : Attempt (List Expr) :=
  p.attempt fun self => parseList self closing

def head (p : Parser) (rule : HeadRule) : Attempt Expr := p.attempt fun self => rule.parse self

def tail (p : Parser) (left : Expr) (power : Power) (rule : TailRule) : Attempt Expr :=
  p.attempt fun self => rule.parse self left power

def stmt (p : Parser) (rule : StmtRule) : Attempt Stmt := p.attempt fun self => rule.parse self

/-- All statements up to the end of the input. What is wrong with them is recorded. -/
def program (p : Parser) : Attempt Program :=
  p.attempt fun self => Program.mk <$> self (.stmts .script)

end Parser

/-- Parses a source by the standard grammar. -/
def parse (file source : String) : Attempt Program := (Parser.ofLexer (.ofString file source)).program

end ScriptFront
