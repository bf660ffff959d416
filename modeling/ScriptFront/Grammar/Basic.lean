import ScriptFront.Grammar.Power
import ScriptFront.Token.Kind

/-!
# Grammars

A grammar says by which rule a statement, an expression and the rest of an expression are parsed
from the kind of the token they start with. A kind can have a rule of each sort: `-` starts an
expression and also goes on with one. `standard` is the grammar of the language; any other can be
built by `withStmt`, `withHead` and `withTail`.
-/

namespace ScriptFront

/-- How a statement is parsed. -/
inductive StmtRule where
  /-- By the rule that the grammar has for the current token. -/
  | lookup
  | binding | ret | bare | block
  deriving DecidableEq, Repr

/-- How an expression is parsed from its first token. -/
inductive HeadRule where
  | ident | integer | float | boolean | string
  | unary | group | cond | function | array | hash
  deriving DecidableEq, Repr

/-- How an expression goes on behind its first operand. -/
inductive TailRule where
  | binary | call | index
  deriving DecidableEq, Repr

structure Grammar where
  stmts : Kind → Option StmtRule
  heads : Kind → Option HeadRule
  /-- Each with the power by which it holds the operand before it. -/
  tails : Kind → Option (Power × TailRule)

namespace Grammar

/-- The grammar that has no rule. -/
def empty : Grammar := ⟨fun _ => none, fun _ => none, fun _ => none⟩

def withStmt (g : Grammar) (kind : Kind) (rule : StmtRule) : Grammar :=
  { g with stmts := fun k => if k = kind then some rule else g.stmts k }

def withHead (g : Grammar) (kind : Kind) (rule : HeadRule) : Grammar :=
  { g with heads := fun k => if k = kind then some rule else g.heads k }

def withTail (g : Grammar) (kind : Kind) (power : Power) (rule : TailRule) : Grammar :=
  { g with tails := fun k => if k = kind then some (power, rule) else g.tails k }

def standard : Grammar where
  stmts
    | .letWord => some .binding
    | .returnWord => some .ret
    | _ => none
  heads
    | .identifier => some .ident
    | .int => some .integer
    | .float => some .float
    | .string => some .string
    | .trueWord | .falseWord => some .boolean
    | .bang | .dash => some .unary
    | .openParen => some .group
    | .ifWord => some .cond
    | .fnWord => some .function
    | .openBracket => some .array
    | .openCurly => some .hash
    | _ => none
  tails
    | .equal | .notEqual => some (.equality, .binary)
    | .less | .greater => some (.comparison, .binary)
    | .plus | .dash => some (.sum, .binary)
    | .star | .slash => some (.product, .binary)
    | .openParen => some (.call, .call)
    | .openBracket => some (.index, .index)
    | _ => none

/-- The rules of `g`, and those of `base` where `g` has none. -/
def orElse (g base : Grammar) : Grammar where
  stmts k := (g.stmts k).or (base.stmts k)
  heads k := (g.heads k).or (base.heads k)
  tails k := (g.tails k).or (base.tails k)

/-- The power of a kind as an operator. -/
def power (g : Grammar) (kind : Kind) : Power := ((g.tails kind).map Prod.fst).getD .lowest

theorem power_of_some {g : Grammar} {kind : Kind} {power : Power} {rule : TailRule}
    (h : g.tails kind = some (power, rule)) : g.power kind = power := by
  simp [Grammar.power, h]

theorem power_of_none {g : Grammar} {kind : Kind} (h : g.tails kind = none) :
    g.power kind = .lowest := by
  simp [Grammar.power, h]

end Grammar

end ScriptFront
