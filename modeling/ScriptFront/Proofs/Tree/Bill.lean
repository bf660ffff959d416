import Mathlib.Algebra.Order.Group.Nat
import Mathlib.Algebra.Order.Monoid.Prod
import Mathlib.Data.Multiset.OrderedMonoid
import Mathlib.Tactic.Abel
import ScriptFront.Grammar.Basic
import ScriptFront.Proofs.Tree.Nodes

/-!
# What a tree holds and what it lacks

`held` lists the tokens that a tree keeps in its nodes, `copied` those that its bare statements keep
besides, and `holes` counts its empty slots. `bill` puts the three together. Bills add up, so that of
a tree is the sum of those of its parts and of what its root takes, with a lemma for each kind of
node. A hash costs no more than the pairs that it was written as (`bill_ofPairs_le`).
-/

namespace ScriptFront

/-! ## Tokens and empty slots -/

namespace Node

/-- The tokens that a node keeps: its own one and those of its names. A block that stands as a
statement is a node of its own, and the token of a bare statement is a copy. -/
def tokens : Node → List Token
  | .expr (.function token parameters _) => token :: parameters.map Ident.token
  | .expr e => [e.token]
  | .stmt (.binding token name _) => [token, name.token]
  | .stmt (.ret token _) => [token]
  | .stmt (.bare ..) | .stmt (.block _) => []
  | .block b => [b.token]

/-- The copy of its first token that a bare statement keeps. -/
def copies : Node → List Token
  | .stmt (.bare token _) => [token]
  | _ => []

/-- The node has a slot for an expression, and that is empty. -/
def isHollow : Node → Bool
  | .expr (.unary _ _ slot) | .expr (.binary _ _ _ slot) | .expr (.cond _ slot _ _)
  | .stmt (.binding _ _ slot) | .stmt (.ret _ slot) | .stmt (.bare _ slot) => slot.isNone
  | _ => false

end Node

section
variable {α : Type} [HasNodes α]

/-- The tokens of a tree, apart from the copies in bare statements. -/
def held (a : α) : List Token := (nodes a).flatMap Node.tokens

def copied (a : α) : List Token := (nodes a).flatMap Node.copies

/-- How many slots of a tree are empty. -/
def holes (a : α) : Nat := (nodes a).countP Node.isHollow

end

/-! ## Bills -/

/-- Tokens, copies of tokens, and a number of empty slots. -/
abbrev Bill := Multiset Token × Multiset Token × ℕ

namespace Bill

def token (t : Token) : Bill := ({t}, 0, 0)

def copy (t : Token) : Bill := (0, {t}, 0)

def hole : Bill := (0, 0, 1)

end Bill

namespace Grammar

/-- The grammar has a rule that takes the end of the input for a token like others. -/
def rulesEnd (g : Grammar) : Bool := (g.heads .eof).isSome || (g.tails .eof).isSome

/-- Ends come for ever. So they are not counted in a grammar that can put them into a tree. -/
def counts (g : Grammar) (t : Token) : Bool := t.kind ≠ .eof || !g.rulesEnd

variable (g : Grammar)

/-- What it takes to keep these tokens. -/
def prices (ts : List Token) : Bill := ((ts.filter g.counts : List Token), 0, 0)

def price (t : Token) : Bill := g.prices [t]

theorem prices_cons (t : Token) (ts : List Token) : g.prices (t :: ts) = g.price t + g.prices ts := by
  have hsplit : (t :: ts).filter g.counts = [t].filter g.counts ++ ts.filter g.counts :=
    List.filter_append [t] ts
  simp [prices, price, hsplit]

theorem price_le_token (t : Token) : g.price t ≤ .token t := by
  refine ⟨?_, le_rfl⟩
  exact Multiset.coe_le.2 List.filter_sublist.subperm

end Grammar

section
variable (g : Grammar)

def Node.bill (x : Node) : Bill :=
  g.prices x.tokens + ((0, (x.copies : List Token), if x.isHollow then 1 else 0) : Bill)

/-- What it takes to have all these nodes. -/
def bills (xs : List Node) : Bill := (xs.map (Node.bill g)).sum

@[simp] theorem bills_nil : bills g [] = 0 := rfl

@[simp] theorem bills_cons (x : Node) (xs : List Node) :
    bills g (x :: xs) = x.bill g + bills g xs := List.sum_cons

@[simp] theorem bills_append (xs ys : List Node) :
    bills g (xs ++ ys) = bills g xs + bills g ys := by
  simp [bills]

variable {α β : Type} [HasNodes α] [HasNodes β]

/-- What it takes to have this tree. -/
def bill (a : α) : Bill := bills g (nodes a)

/-! ## Bills of parts -/

@[simp] theorem bill_nil : bill g ([] : List α) = 0 := rfl

@[simp] theorem bill_cons (a : α) (as : List α) : bill g (a :: as) = bill g a + bill g as :=
  bills_append g (nodes a) (nodes as)

@[simp] theorem bill_append (as bs : List α) : bill g (as ++ bs) = bill g as + bill g bs := by
  induction as with
  | nil => simp
  | cons a as ih => simp [ih, add_assoc]

@[simp] theorem bill_none : bill g (none : Option α) = 0 := rfl

@[simp] theorem bill_some (a : α) : bill g (some a) = bill g a := by
  simp [bill, nodes]

@[simp] theorem bill_pair (a : α) (b : β) : bill g (a, b) = bill g a + bill g b :=
  bills_append g (nodes a) (nodes b)

/-- A bill lists what is counted of the tree. -/
theorem bill_eq (a : α) : bill g a =
    (↑((held a).filter g.counts), ↑(copied a), holes a) := by
  unfold bill held copied holes
  induction nodes a with
  | nil => rfl
  | cons x xs ih =>
    rw [bills_cons, ih, Node.bill, Grammar.prices, List.flatMap_cons, List.flatMap_cons,
      List.filter_append, List.countP_cons, ← Multiset.coe_add, ← Multiset.coe_add]
    simp [add_comm]

/-- A slot costs what is in it, or what an empty one does. -/
def slotBill (slot : Option Expr) : Bill :=
  ((0, 0, if slot.isNone then 1 else 0) : Bill) + bill g slot

@[simp] theorem slotBill_none : slotBill g none = .hole := rfl

@[simp] theorem slotBill_some (e : Expr) : slotBill g (some e) = bill g e := by
  rw [slotBill, bill_some]
  exact zero_add _

/-! ## Bills of nodes -/

theorem bill_expr (e : Expr) : bill g e = Node.bill g (.expr e) + bills g e.parts := by
  rw [bill, e.nodes_eq, bills_cons]

theorem bill_stmt (s : Stmt) : bill g s = Node.bill g (.stmt s) + bills g s.parts := by
  rw [bill, s.nodes_eq, bills_cons]

variable {g} in
/-- What has no parts costs its token. -/
theorem bill_leaf {e : Expr} (hnode : Node.bill g (.expr e) = g.price e.token + 0)
    (hparts : e.parts = []) : bill g e = g.price e.token := by
  rw [bill_expr, hnode, hparts, bills_nil, add_zero, add_zero]

section
variable (t : Token)

theorem bill_unary (operator : String) (right : Option Expr) :
    bill g (Expr.unary t operator right) = g.price t + slotBill g right :=
  (bill_expr g _).trans (add_assoc _ _ _)

theorem bill_binary (left : Expr) (operator : String) (right : Option Expr) :
    bill g (Expr.binary t left operator right) = g.price t + bill g left + slotBill g right := by
  rw [bill_expr, Expr.parts, bills_append]
  exact add_add_add_comm _ _ _ _

theorem bill_cond (condition : Option Expr) (consequence : Block) (alternative : Option Block) :
    bill g (Expr.cond t condition consequence alternative) =
      g.price t + slotBill g condition + (bill g consequence + bill g alternative) := by
  rw [bill_expr, Expr.parts, bills_append, bills_append, ← add_assoc]
  exact congrArg (· + (bill g consequence + bill g alternative)) (add_assoc _ _ _)

theorem bill_function (parameters : List Ident) (body : Block) :
    bill g (Expr.function t parameters body) =
      g.price t + g.prices (parameters.map Ident.token) + bill g body := by
  rw [bill_expr, ← Grammar.prices_cons]
  exact congrArg (· + bill g body) (add_zero _)

theorem bill_call (callee : Expr) (arguments : List Expr) :
    bill g (Expr.call t callee arguments) = g.price t + bill g callee + bill g arguments := by
  rw [bill_expr, Expr.parts, bills_append, ← add_assoc]
  exact congrArg (· + bill g callee + bill g arguments) (add_zero _)

theorem bill_array (elements : List Expr) :
    bill g (Expr.array t elements) = g.price t + bill g elements := by
  rw [bill_expr]
  exact congrArg (· + bill g elements) (add_zero _)

theorem bill_index (left index : Expr) :
    bill g (Expr.index t left index) = g.price t + bill g left + bill g index := by
  rw [bill_expr, Expr.parts, bills_append, ← add_assoc]
  exact congrArg (· + bill g left + bill g index) (add_zero _)

theorem bill_hash (entries : List (Expr × Expr)) :
    bill g (Expr.hash t entries) = g.price t + bill g entries := by
  rw [bill_expr]
  exact congrArg (· + bill g entries) (add_zero _)

theorem bill_mkBlock (body : List Stmt) : bill g (Block.mk t body) = g.price t + bill g body := by
  rw [bill, Block.nodes_eq, bills_cons]
  exact congrArg (· + bill g body) (add_zero _)

theorem bill_binding (name : Ident) (value : Option Expr) :
    bill g (Stmt.binding t name value) = g.price t + g.price name.token + slotBill g value := by
  have hprices : g.prices [t, name.token] = g.price t + g.price name.token :=
    g.prices_cons t [name.token]
  rw [bill_stmt, ← hprices]
  exact add_assoc _ _ _

theorem bill_ret (value : Option Expr) :
    bill g (Stmt.ret t value) = g.price t + slotBill g value :=
  (bill_stmt g _).trans (add_assoc _ _ _)

theorem bill_bare (expression : Option Expr) :
    bill g (Stmt.bare t expression) = .copy t + slotBill g expression := by
  have hnode : Node.bill g (.stmt (.bare t expression)) =
      .copy t + ((0, 0, if expression.isNone then 1 else 0) : Bill) := by
    cases expression <;> rfl
  rw [bill_stmt, hnode]
  exact add_assoc _ _ _

theorem bill_block (b : Block) : bill g (Stmt.block b) = bill g b := by
  rw [bill_stmt]
  exact zero_add _

end

/-! ## Entries -/

/-- An insertion drops a value or a key, or neither. -/
theorem bill_insert_le (entries : Entries) (key value : Expr) :
    bill g (entries.insert key value) ≤ bill g entries + bill g (key, value) := by
  induction entries with
  | nil => simp [Entries.insert]
  | cons entry rest ih =>
    obtain ⟨k, v⟩ := entry
    unfold Entries.insert
    split
    · calc bill g ((k, value) :: rest)
          ≤ bill g ((k, value) :: rest) + (bill g v + bill g key) := le_self_add
        _ = bill g ((k, v) :: rest) + bill g (key, value) := by
          simp only [bill_cons, bill_pair]
          abel
    · rw [bill_cons, bill_cons, add_assoc]
      exact add_le_add_right ih _

theorem bill_ofPairs_le (pairs : List (Expr × Expr)) :
    bill g (Entries.ofPairs pairs) ≤ bill g pairs := by
  induction pairs using List.reverseRecOn with
  | nil => exact le_rfl
  | append_singleton pairs pair ih =>
    rw [Entries.ofPairs_concat, bill_append, bill_cons, bill_nil, add_zero]
    exact (bill_insert_le g _ pair.1 pair.2).trans (add_le_add_left ih _)

end

end ScriptFront
