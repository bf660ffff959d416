import ScriptFront.Tree.Basic

/-!
# Rendering trees

The text of a tree writes every operator with its operands in parentheses, so groups need no node
of their own. Statements follow one another without a break.
-/

namespace ScriptFront

/-- Joins texts by a comma and a space. -/
def commas (texts : List String) : String := ", ".intercalate texts

mutual

def Expr.render : Expr → String
  | .ident name => name.name
  | .integer token _ | .float token _ | .boolean token _ | .string token _ => token.text
  | .unary _ operator right => "(" ++ operator ++ renderSlot right ++ ")"
  | .binary _ left operator right =>
    "(" ++ left.render ++ " " ++ operator ++ " " ++ renderSlot right ++ ")"
  | .cond _ condition consequence alternative =>
    "if" ++ renderSlot condition ++ " " ++ consequence.render ++ renderElse alternative
  | .function token parameters body =>
    token.text ++ "(" ++ commas (parameters.map Ident.name) ++ ") " ++ body.render
  | .call _ function arguments => function.render ++ "(" ++ commas (renderEach arguments) ++ ")"
  | .array _ elements => "[" ++ commas (renderEach elements) ++ "]"
  | .index _ left index => "(" ++ left.render ++ "[" ++ index.render ++ "])"
  | .hash _ entries => "\x7b" ++ commas (renderEntries entries) ++ "\x7d"

/-- An empty slot shows nothing. -/
def renderSlot : Option Expr → String
  | none => ""
  | some e => e.render

def renderElse : Option Block → String
  | none => ""
  | some b => "else " ++ b.render

def renderEach : List Expr → List String
  | [] => []
  | e :: es => e.render :: renderEach es

def renderEntries : List (Expr × Expr) → List String
  | [] => []
  | (key, value) :: entries => (key.render ++ ":" ++ value.render) :: renderEntries entries

def Block.render : Block → String
  | .mk _ body => renderBody body

def Stmt.render : Stmt → String
  | .binding token name value => token.text ++ " " ++ name.name ++ " = " ++ renderSlot value ++ ";"
  | .ret token value => token.text ++ " " ++ renderSlot value ++ ";"
  | .bare _ expression => renderSlot expression
  | .block b => b.render

def renderBody : List Stmt → String
  | [] => ""
  | s :: body => s.render ++ renderBody body

end

def Program.render (p : Program) : String := renderBody p.body

theorem renderEach_eq_map (es : List Expr) : renderEach es = es.map Expr.render := by
  induction es with
  | nil => rfl
  | cons e es ih => simp [renderEach, ih]

theorem renderEntries_eq_map (entries : List (Expr × Expr)) :
    renderEntries entries = entries.map fun (key, value) => key.render ++ ":" ++ value.render := by
  induction entries with
  | nil => rfl
  | cons entry entries ih => obtain ⟨key, value⟩ := entry; simp [renderEntries, ih]

end ScriptFront
