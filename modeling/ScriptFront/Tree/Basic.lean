import ScriptFront.Token.Basic

/-!
# Trees of a script

An operand whose parse failed leaves its slot empty (`none`); the node around it is kept. Every
node keeps the token that it was parsed from, and `render` shows that token or the parts below it.
-/

namespace ScriptFront

structure Ident where
  token : Token
  name : String
  deriving DecidableEq, Repr

mutual

inductive Expr where
  | ident (name : Ident)
  | integer (token : Token) (value : Int)
  | float (token : Token) (value : Float)
  | boolean (token : Token) (value : Bool)
  /-- `value` is the text between the quotes. -/
  | string (token : Token) (value : String)
  | unary (token : Token) (operator : String) (right : Option Expr)
  | binary (token : Token) (left : Expr) (operator : String) (right : Option Expr)
  | cond (token : Token) (condition : Option Expr) (consequence : Block)
      (alternative : Option Block)
  | function (token : Token) (parameters : List Ident) (body : Block)
  /-- `token` is the opening parenthesis. -/
  | call (token : Token) (function : Expr) (arguments : List Expr)
  | array (token : Token) (elements : List Expr)
  /-- `token` is the opening bracket. -/
  | index (token : Token) (left index : Expr)
  | hash (token : Token) (entries : List (Expr × Expr))

inductive Block where
  | mk (token : Token) (body : List Stmt)

inductive Stmt where
  | binding (token : Token) (name : Ident) (value : Option Expr)
  | ret (token : Token) (value : Option Expr)
  /-- `token` is the first of the expression. -/
  | bare (token : Token) (expression : Option Expr)
  | block (block : Block)

end

namespace Block

def token : Block → Token
  | mk token _ => token

def body : Block → List Stmt
  | mk _ body => body

end Block

namespace Expr

def token : Expr → Token
  | ident name => name.token
  | integer token _ | float token _ | boolean token _ | string token _ | unary token _ _
  | binary token _ _ _ | cond token _ _ _ | function token _ _ | call token _ _ | array token _
  | index token _ _ | hash token _ => token

end Expr

namespace Stmt

def token : Stmt → Token
  | binding token _ _ | ret token _ | bare token _ => token
  | block b => b.token

end Stmt

structure Program where
  body : List Stmt

/-- The text of the program's first token. -/
def Program.leadingText (p : Program) : String := (p.body.head?.map (·.token.text)).getD ""

end ScriptFront
