import ScriptFront.Grammar.Basic
import ScriptFront.Literal.Decimal
import ScriptFront.Literal.Quoted
import ScriptFront.Parser.State
import ScriptFront.Tree.Entries

/-!
# The rules of parsing

A rule parses with the help of `self`, which parses a part of what the rule is about. On entry the
current token is the first of the construct; on success it is the last.
-/

namespace ScriptFront

/-- Where a run of statements stands: it ends where its surroundings go on. -/
inductive Scope where
  | script | block
  deriving DecidableEq, Repr

def Scope.endsAt : Scope → Kind → Bool
  | script, kind => kind = .eof
  | block, kind => kind = .closeCurly || kind = .eof

/-- What can be parsed, with the type of its tree. -/
inductive Goal : Type → Type where
  /-- An expression whose operators bind tighter than `min`. -/
  | expr (min : Power) : Goal Expr
  /-- The rest of such an expression behind the part that is parsed. -/
  | climb (min : Power) (left : Expr) : Goal Expr
  /-- Expressions that follow one, each behind a comma. -/
  | elements : Goal (List Expr)
  /-- Names that follow one, each behind a comma. -/
  | names : Goal (List Ident)
  | entries : Goal (List (Expr × Expr))
  | stmt : Goal Stmt
  | stmts (scope : Scope) : Goal (List Stmt)

/-- A parser for every goal. -/
abbrev Parses : Type 1 := {α : Type} → Goal α → Parse α

open Parse

/-- A name, ahead. -/
def parseName : Parse Ident := do
  let token ← expect .identifier
  pure ⟨token, token.text⟩

def skipSemicolon : Parse Unit := do
  if (← ahead) = .semicolon then advance

section
variable (self : Parses)

/-- A slot for an expression: a failure is recorded and leaves it empty. -/
def parseSlot (min : Power) : Parse (Option Expr) := recover (self (.expr min))

/-- Expressions between commas, up to `closing`. The current token is the opening one. -/
def parseList (closing : Kind) : Parse (List Expr) := do
  if (← ahead) = closing then
    advance
    pure []
  else
    advance
    let first ← self (.expr .lowest)
    let others ← self .elements
    need closing
    pure (first :: others)

/-- The names between the parentheses of a function. The current token is the opening one. -/
def parseParameters : Parse (List Ident) := do
  if (← ahead) = .closeParen then
    advance
    pure []
  else
    let first ← parseName
    let others ← self .names
    need .closeParen
    pure (first :: others)

/-- Statements up to the closing brace or the end of the input. -/
def parseBlock : Parse Block := do
  let token ← current
  advance
  let body ← self (.stmts .block)
  pure (.mk token body)

def parseElse : Parse (Option Block) := do
  if (← ahead) = .elseWord then
    advance
    need .openCurly
    let block ← parseBlock self
    pure (some block)
  else pure none

def HeadRule.parse : HeadRule → Parse Expr
  | .ident => do
    let token ← current
    pure (.ident ⟨token, token.text⟩)
  | .integer => do
    let token ← current
    match Literal.integer? token.text with
    | some value => pure (.integer token value)
    | none => fail ⟨.badInteger token.text, token.position⟩
  | .float => do
    let token ← current
    match Literal.decimal? token.text with
    | some value => pure (.float token value)
    | none => fail ⟨.badFloat token.text, token.position⟩
  | .boolean => do
    let token ← current
    pure (.boolean token (token.kind = .trueWord))
  | .string => do
    let token ← current
    pure (.string token (Literal.inside token.text))
  | .unary => do
    let token ← current
    advance
    let right ← parseSlot self .unary
    pure (.unary token token.text right)
  | .group => do
    advance
    let inner ← self (.expr .lowest)
    need .closeParen
    pure inner
  | .cond => do
    let token ← current
    need .openParen
    advance
    let condition ← parseSlot self .lowest
    need .closeParen
    need .openCurly
    let consequence ← parseBlock self
    let alternative ← parseElse self
    pure (.cond token condition consequence alternative)
  | .function => do
    let token ← current
    need .openParen
    let parameters ← parseParameters self
    need .openCurly
    let body ← parseBlock self
    pure (.function token parameters body)
  | .array => do
    let token ← current
    let elements ← parseList self .closeBracket
    pure (.array token elements)
  | .hash => do
    let token ← current
    let pairs ← self .entries
    need .closeCurly
    pure (.hash token (Entries.ofPairs pairs))

/-- `left` is the operand before the current token, which holds it by `power`. -/
def TailRule.parse (left : Expr) (power : Power) : TailRule → Parse Expr
  | .binary => do
    let token ← current
    advance
    let right ← parseSlot self power
    pure (.binary token left token.text right)
  | .call => do
    let token ← current
    let arguments ← recover (parseList self .closeParen)
    pure (.call token left (arguments.getD []))
  | .index => do
    let token ← current
    advance
    let index ← self (.expr .lowest)
    need .closeBracket
    pure (.index token left index)

def StmtRule.parse : StmtRule → Parse Stmt
  | .lookup => self .stmt
  | .binding => do
    let token ← current
    let name ← parseName
    need .assign
    advance
    let value ← parseSlot self .lowest
    skipSemicolon
    pure (.binding token name value)
  | .ret => do
    let token ← current
    advance
    let value ← parseSlot self .lowest
    skipSemicolon
    pure (.ret token value)
  | .bare => do
    let token ← current
    let expression ← parseSlot self .lowest
    skipSemicolon
    pure (.bare token expression)
  | .block => do
    let block ← parseBlock self
    pure (.block block)

/-- One layer of parsing: what each goal is made of. -/
def Grammar.layer (g : Grammar) : {α : Type} → Goal α → Parse α
  | _, .expr min => do
    let token ← current
    match g.heads token.kind with
    | none => fail ⟨.noExpression token.kind token.text, token.position⟩
    | some rule =>
      let left ← rule.parse self
      self (.climb min left)
  | _, .climb min left => do
    let kind ← ahead
    match g.tails kind with
    | none => pure left
    | some (power, rule) =>
      if kind ≠ .semicolon ∧ min < power then
        advance
        let left ← rule.parse self left power
        self (.climb min left)
      else pure left
  | _, .elements => do
    if (← ahead) = .comma then
      advance
      advance
      let first ← self (.expr .lowest)
      let others ← self .elements
      pure (first :: others)
    else pure []
  | _, .names => do
    if (← ahead) = .comma then
      advance
      let first ← parseName
      let others ← self .names
      pure (first :: others)
    else pure []
  | _, .entries => do
    if (← ahead) = .closeCurly then pure []
    else
      advance
      let key ← self (.expr .lowest)
      need .colon
      advance
      let value ← self (.expr .lowest)
      if (← ahead) ≠ .closeCurly then need .comma
      let others ← self .entries
      pure ((key, value) :: others)
  | _, .stmt => do
    let token ← current
    ((g.stmts token.kind).getD .bare).parse self
  | _, .stmts scope => do
    let token ← current
    if scope.endsAt token.kind then pure []
    else
      let first ← recover (self .stmt)
      advance
      let others ← self (.stmts scope)
      pure (first.toList ++ others)

end

end ScriptFront
