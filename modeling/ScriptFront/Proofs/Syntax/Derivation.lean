import ScriptFront.Grammar.Power
import ScriptFront.Literal.Decimal
import ScriptFront.Literal.Quoted
import ScriptFront.Tree.Entries

/-!
# Derivations

The syntax of scripts, without a parser. `Derives φ ts a rest` says that the tokens `ts` start with
a phrase of the sort `φ`, that `a` is its tree, and that `rest` is left behind it. A script is a
sequence of statements with nothing behind it.
-/

namespace ScriptFront

/-- The parts of a script. -/
inductive Phrase where
  /-- An expression whose binary operators hold by `p` or tighter. Those of the level `unary` have
  none, and those of the level `index` are a primary with calls and indices behind it. -/
  | level (p : Power)
  | primary
  /-- What is between an opening mark and `closing`, that one included. -/
  | list (closing : Kind)
  /-- Expressions that follow one, each behind a comma. -/
  | elements
  | parameters
  /-- Names that follow one, each behind a comma. -/
  | names
  | entries
  | block
  | alternative
  /-- A statement up to the semicolon that can end it. -/
  | clause
  | stmt
  | stmts
  deriving DecidableEq, Repr

namespace Phrase

abbrev Tree : Phrase → Type
  | level _ | primary => Expr
  | list _ | elements => List Expr
  | parameters | names => List Ident
  | entries => List (Expr × Expr)
  | block => Block
  | alternative => Option Block
  | clause | stmt => Stmt
  | stmts => List Stmt

/-- Any expression. -/
abbrev expr : Phrase := level .equality

end Phrase

/-- The binary operators of a level. -/
def Power.operators : Power → List Kind
  | .equality => [.equal, .notEqual]
  | .comparison => [.less, .greater]
  | .sum => [.plus, .dash]
  | .product => [.star, .slash]
  | _ => []

/-- The value of a decimal. Every decimal of a lexer has one. -/
def Token.decimal (t : Token) : Float := (Literal.decimal? t.text).getD Literal.notANumber

/-- The name that a token is. -/
def Token.toIdent (t : Token) : Ident := ⟨t, t.text⟩

/-- A statement without a semicolon cannot be followed by these: they would go on with it. -/
def Kind.goesOn (kind : Kind) : Bool := kind = .dash || kind = .openParen || kind = .openBracket

inductive Derives : (φ : Phrase) → List Token → φ.Tree → List Token → Prop where
  -- Expressions.
  | lift {p q : Power} {ts rest : List Token} {e : Expr} :
      p < q → Derives (.level q) ts e rest → Derives (.level p) ts e rest
  | binary {p q : Power} {op : Token} {ts mid rest : List Token} {left right : Expr} :
      op.kind ∈ p.operators → p < q →
      Derives (.level p) ts left (op :: mid) → Derives (.level q) mid right rest →
      Derives (.level p) ts (.binary op left op.text (some right)) rest
  | unary {op : Token} {ts rest : List Token} {right : Expr} :
      op.kind = .bang ∨ op.kind = .dash → Derives (.level .unary) ts right rest →
      Derives (.level .unary) (op :: ts) (.unary op op.text (some right)) rest
  | primary {ts rest : List Token} {e : Expr} :
      Derives .primary ts e rest → Derives (.level .index) ts e rest
  | call {opening : Token} {ts mid rest : List Token} {f : Expr} {arguments : List Expr} :
      opening.kind = .openParen → Derives (.level .index) ts f (opening :: mid) →
      Derives (.list .closeParen) mid arguments rest →
      Derives (.level .index) ts (.call opening f arguments) rest
  | index {opening closing : Token} {ts mid rest : List Token} {left index : Expr} :
      opening.kind = .openBracket → closing.kind = .closeBracket →
      Derives (.level .index) ts left (opening :: mid) →
      Derives .expr mid index (closing :: rest) →
      Derives (.level .index) ts (.index opening left index) rest
  -- Primaries.
  | ident {t : Token} {rest : List Token} :
      t.kind = .identifier → Derives .primary (t :: rest) (.ident t.toIdent) rest
  | integer {t : Token} {rest : List Token} {value : Nat} :
      t.kind = .int → Literal.integer? t.text = some value →
      Derives .primary (t :: rest) (.integer t value) rest
  | float {t : Token} {rest : List Token} :
      t.kind = .float → Derives .primary (t :: rest) (.float t t.decimal) rest
  | string {t : Token} {rest : List Token} :
      t.kind = .string → Derives .primary (t :: rest) (.string t (Literal.inside t.text)) rest
  | trueWord {t : Token} {rest : List Token} :
      t.kind = .trueWord → Derives .primary (t :: rest) (.boolean t true) rest
  | falseWord {t : Token} {rest : List Token} :
      t.kind = .falseWord → Derives .primary (t :: rest) (.boolean t false) rest
  | group {opening closing : Token} {ts rest : List Token} {e : Expr} :
      opening.kind = .openParen → closing.kind = .closeParen →
      Derives .expr ts e (closing :: rest) → Derives .primary (opening :: ts) e rest
  | cond {t opening closing : Token} {ts mid behind rest : List Token} {condition : Expr}
      {consequence : Block} {alternative : Option Block} :
      t.kind = .ifWord → opening.kind = .openParen → closing.kind = .closeParen →
      Derives .expr ts condition (closing :: mid) → Derives .block mid consequence behind →
      Derives .alternative behind alternative rest →
      Derives .primary (t :: opening :: ts) (.cond t (some condition) consequence alternative) rest
  | function {t opening : Token} {ts mid rest : List Token} {parameters : List Ident}
      {body : Block} :
      t.kind = .fnWord → opening.kind = .openParen → Derives .parameters ts parameters mid →
      Derives .block mid body rest →
      Derives .primary (t :: opening :: ts) (.function t parameters body) rest
  | array {t : Token} {ts rest : List Token} {elements : List Expr} :
      t.kind = .openBracket → Derives (.list .closeBracket) ts elements rest →
      Derives .primary (t :: ts) (.array t elements) rest
  | hash {t closing : Token} {ts rest : List Token} {pairs : List (Expr × Expr)} :
      t.kind = .openCurly → closing.kind = .closeCurly →
      Derives .entries ts pairs (closing :: rest) →
      Derives .primary (t :: ts) (.hash t (Entries.ofPairs pairs)) rest
  -- Sequences between marks.
  | noList {kind : Kind} {closing : Token} {rest : List Token} :
      closing.kind = kind → Derives (.list kind) (closing :: rest) [] rest
  | list {kind : Kind} {closing : Token} {ts mid rest : List Token} {first : Expr}
      {others : List Expr} :
      closing.kind = kind → Derives .expr ts first mid →
      Derives .elements mid others (closing :: rest) →
      Derives (.list kind) ts (first :: others) rest
  | noElement {rest : List Token} : Derives .elements rest [] rest
  | element {comma : Token} {ts mid rest : List Token} {first : Expr} {others : List Expr} :
      comma.kind = .comma → Derives .expr ts first mid → Derives .elements mid others rest →
      Derives .elements (comma :: ts) (first :: others) rest
  | noParameter {closing : Token} {rest : List Token} :
      closing.kind = .closeParen → Derives .parameters (closing :: rest) [] rest
  | parameters {first closing : Token} {ts rest : List Token} {others : List Ident} :
      first.kind = .identifier → closing.kind = .closeParen →
      Derives .names ts others (closing :: rest) →
      Derives .parameters (first :: ts) (first.toIdent :: others) rest
  | noName {rest : List Token} : Derives .names rest [] rest
  | name {comma first : Token} {ts rest : List Token} {others : List Ident} :
      comma.kind = .comma → first.kind = .identifier → Derives .names ts others rest →
      Derives .names (comma :: first :: ts) (first.toIdent :: others) rest
  | noEntry {rest : List Token} : Derives .entries rest [] rest
  | lastEntry {colon : Token} {ts mid rest : List Token} {key value : Expr} :
      colon.kind = .colon → Derives .expr ts key (colon :: mid) → Derives .expr mid value rest →
      Derives .entries ts [(key, value)] rest
  | entry {colon comma : Token} {ts mid more rest : List Token} {key value : Expr}
      {others : List (Expr × Expr)} :
      colon.kind = .colon → comma.kind = .comma → Derives .expr ts key (colon :: mid) →
      Derives .expr mid value (comma :: more) → Derives .entries more others rest →
      Derives .entries ts ((key, value) :: others) rest
  -- Blocks.
  | block {opening closing : Token} {ts rest : List Token} {body : List Stmt} :
      opening.kind = .openCurly → closing.kind = .closeCurly →
      Derives .stmts ts body (closing :: rest) →
      Derives .block (opening :: ts) (.mk opening body) rest
  /-- The end of the input closes what is open. -/
  | openBlock {opening : Token} {ts : List Token} {body : List Stmt} :
      opening.kind = .openCurly → Derives .stmts ts body [] →
      Derives .block (opening :: ts) (.mk opening body) []
  | noAlternative {rest : List Token} : Derives .alternative rest none rest
  | alternative {t : Token} {ts rest : List Token} {block : Block} :
      t.kind = .elseWord → Derives .block ts block rest →
      Derives .alternative (t :: ts) (some block) rest
  -- Statements.
  | binding {t name assign : Token} {ts rest : List Token} {value : Expr} :
      t.kind = .letWord → name.kind = .identifier → assign.kind = .assign →
      Derives .expr ts value rest →
      Derives .clause (t :: name :: assign :: ts) (.binding t name.toIdent (some value)) rest
  | ret {t : Token} {ts rest : List Token} {value : Expr} :
      t.kind = .returnWord → Derives .expr ts value rest →
      Derives .clause (t :: ts) (.ret t (some value)) rest
  | bare {t : Token} {ts rest : List Token} {e : Expr} :
      Derives .expr (t :: ts) e rest → Derives .clause (t :: ts) (.bare t (some e)) rest
  | closed {semicolon : Token} {ts rest : List Token} {s : Stmt} :
      semicolon.kind = .semicolon → Derives .clause ts s (semicolon :: rest) →
      Derives .stmt ts s rest
  | unclosed {ts rest : List Token} {s : Stmt} :
      (∀ t ∈ rest.head?, ¬ t.kind.goesOn) → Derives .clause ts s rest → Derives .stmt ts s rest
  | noStmt {rest : List Token} : Derives .stmts rest [] rest
  | stmt {ts mid rest : List Token} {first : Stmt} {others : List Stmt} :
      Derives .stmt ts first mid → Derives .stmts mid others rest →
      Derives .stmts ts (first :: others) rest

end ScriptFront
