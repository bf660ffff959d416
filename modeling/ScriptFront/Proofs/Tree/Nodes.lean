import ScriptFront.Proofs.Tree.Entries

/-!
# The nodes of a tree

`nodes` lists what a tree is made of, each expression, statement and block of it: first the tree
itself, then the nodes of its parts (`Expr.nodes_eq`). `Every P` says of a value that `P` holds of
all its nodes. A hash has no other nodes than the pairs that it was written as
(`Every.ofPairs`).
-/

namespace ScriptFront

inductive Node where
  | expr (e : Expr)
  | stmt (s : Stmt)
  | block (b : Block)

class HasNodes (α : Type) where
  nodes : α → List Node

export HasNodes (nodes)

mutual

def Expr.nodes (e : Expr) : List Node :=
  .expr e :: match e with
    | .ident _ | .integer .. | .float .. | .boolean .. | .string .. => []
    | .unary _ _ right => nodesSlot right
    | .binary _ left _ right => left.nodes ++ nodesSlot right
    | .cond _ condition consequence alternative =>
      nodesSlot condition ++ (consequence.nodes ++ nodesElse alternative)
    | .function _ _ body => body.nodes
    | .call _ function arguments => function.nodes ++ nodesEach arguments
    | .array _ elements => nodesEach elements
    | .index _ left index => left.nodes ++ index.nodes
    | .hash _ entries => nodesEntries entries

def nodesSlot : Option Expr → List Node
  | none => []
  | some e => e.nodes

def nodesElse : Option Block → List Node
  | none => []
  | some b => b.nodes

def nodesEach : List Expr → List Node
  | [] => []
  | e :: es => e.nodes ++ nodesEach es

def nodesEntries : List (Expr × Expr) → List Node
  | [] => []
  | (key, value) :: entries => key.nodes ++ value.nodes ++ nodesEntries entries

def Block.nodes (b : Block) : List Node :=
  .block b :: match b with
    | .mk _ body => nodesBody body

def Stmt.nodes (s : Stmt) : List Node :=
  .stmt s :: match s with
    | .binding _ _ value | .ret _ value | .bare _ value => nodesSlot value
    | .block b => b.nodes

def nodesBody : List Stmt → List Node
  | [] => []
  | s :: body => s.nodes ++ nodesBody body

end

instance : HasNodes Expr := ⟨Expr.nodes⟩

instance : HasNodes Block := ⟨Block.nodes⟩

instance : HasNodes Stmt := ⟨Stmt.nodes⟩

instance {α : Type} [HasNodes α] : HasNodes (Option α) := ⟨fun o => o.toList.flatMap nodes⟩

instance {α : Type} [HasNodes α] : HasNodes (List α) := ⟨fun as => as.flatMap nodes⟩

instance {α β : Type} [HasNodes α] [HasNodes β] : HasNodes (α × β) :=
  ⟨fun (a, b) => nodes a ++ nodes b⟩

instance : HasNodes Program := ⟨fun program => nodes program.body⟩

/-- A name is no node of its own. -/
instance : HasNodes Ident := ⟨fun _ => []⟩

theorem nodesSlot_eq (o : Option Expr) : nodesSlot o = nodes o := by
  cases o <;> simp [nodesSlot, nodes]

theorem nodesElse_eq (o : Option Block) : nodesElse o = nodes o := by
  cases o <;> simp [nodesElse, nodes]

theorem nodesEach_eq (es : List Expr) : nodesEach es = nodes es := by
  induction es with
  | nil => rfl
  | cons e es ih => exact congrArg (nodes e ++ ·) ih

theorem nodesEntries_eq (entries : List (Expr × Expr)) : nodesEntries entries = nodes entries := by
  induction entries with
  | nil => rfl
  | cons entry entries ih => exact congrArg (nodes entry ++ ·) ih

theorem nodesBody_eq (body : List Stmt) : nodesBody body = nodes body := by
  induction body with
  | nil => rfl
  | cons s body ih => exact congrArg (nodes s ++ ·) ih

/-! ## Parts -/

/-- The nodes of the parts of an expression. -/
def Expr.parts : Expr → List Node
  | .ident _ | .integer .. | .float .. | .boolean .. | .string .. => []
  | .unary _ _ right => HasNodes.nodes right
  | .binary _ left _ right => HasNodes.nodes left ++ HasNodes.nodes right
  | .cond _ condition consequence alternative =>
    HasNodes.nodes condition ++ (HasNodes.nodes consequence ++ HasNodes.nodes alternative)
  | .function _ _ body => HasNodes.nodes body
  | .call _ callee arguments => HasNodes.nodes callee ++ HasNodes.nodes arguments
  | .array _ elements => HasNodes.nodes elements
  | .index _ left inner => HasNodes.nodes left ++ HasNodes.nodes inner
  | .hash _ entries => HasNodes.nodes entries

def Stmt.parts : Stmt → List Node
  | .binding _ _ value | .ret _ value | .bare _ value => HasNodes.nodes value
  | .block b => HasNodes.nodes b

theorem Expr.nodes_eq (e : Expr) : HasNodes.nodes e = .expr e :: e.parts := by
  show Expr.nodes e = _
  cases e <;> simp only [Expr.nodes, parts, nodesSlot_eq, nodesElse_eq, nodesEach_eq,
    nodesEntries_eq] <;> rfl

theorem Stmt.nodes_eq (s : Stmt) : HasNodes.nodes s = .stmt s :: s.parts := by
  show Stmt.nodes s = _
  cases s with
  | block b => rfl
  | binding | ret | bare => simp only [Stmt.nodes, parts, nodesSlot_eq]

theorem Block.nodes_eq (b : Block) : HasNodes.nodes b = .block b :: HasNodes.nodes b.body := by
  show Block.nodes b = _
  cases b
  simp only [Block.nodes, nodesBody_eq, body]

/-! ## All nodes -/

/-- `P` holds of all nodes. -/
def Every {α : Type} [HasNodes α] (P : Node → Prop) (a : α) : Prop := ∀ x ∈ nodes a, P x

namespace Every

variable {P : Node → Prop}

theorem expr {e : Expr} (he : P (.expr e)) (hparts : ∀ x ∈ e.parts, P x) : Every P e := by
  rw [Every, e.nodes_eq]
  exact List.forall_mem_cons.2 ⟨he, hparts⟩

theorem stmt {s : Stmt} (hs : P (.stmt s)) (hparts : ∀ x ∈ s.parts, P x) : Every P s := by
  rw [Every, s.nodes_eq]
  exact List.forall_mem_cons.2 ⟨hs, hparts⟩

theorem block {b : Block} (hb : P (.block b)) (hbody : Every P b.body) : Every P b := by
  rw [Every, b.nodes_eq]
  exact List.forall_mem_cons.2 ⟨hb, hbody⟩

/-- A tree is a node of its own. -/
theorem of_expr {e : Expr} (h : Every P e) : P (.expr e) :=
  h _ (by rw [e.nodes_eq]; exact List.mem_cons_self)

theorem of_stmt {s : Stmt} (h : Every P s) : P (.stmt s) :=
  h _ (by rw [s.nodes_eq]; exact List.mem_cons_self)

theorem of_block {b : Block} (h : Every P b) : P (.block b) :=
  h _ (by rw [b.nodes_eq]; exact List.mem_cons_self)

theorem ident (name : Ident) : Every P name := List.forall_mem_nil _

section
variable {α β : Type} [HasNodes α] [HasNodes β]

theorem none : Every P (none : Option α) := List.forall_mem_nil _

theorem some {a : α} (h : Every P a) : Every P (some a) := by
  simpa [Every, nodes] using h

theorem of_some {a : α} (h : Every P (Option.some a)) : Every P a := by
  simpa [Every, nodes] using h

theorem nil : Every P ([] : List α) := List.forall_mem_nil _

theorem append {as bs : List α} (has : Every P as) (hbs : Every P bs) : Every P (as ++ bs) := by
  simpa [Every, nodes, or_imp, forall_and] using And.intro has hbs

theorem cons {a : α} {as : List α} (ha : Every P a) (has : Every P as) : Every P (a :: as) := by
  simpa [Every, nodes, or_imp, forall_and] using And.intro ha has

theorem mem {as : List α} (h : Every P as) {a : α} (ha : a ∈ as) : Every P a := fun x hx =>
  h x (List.mem_flatMap.2 ⟨a, ha, hx⟩)

theorem pair {a : α} {b : β} : Every P (a, b) ↔ Every P a ∧ Every P b := List.forall_mem_append

end

/-- Insertion makes no node. -/
theorem ofPairs {pairs : List (Expr × Expr)} (h : Every P pairs) :
    Every P (Entries.ofPairs pairs) := by
  have hentries := Entries.forall_ofPairs fun p hp => pair.1 (h.mem hp)
  intro x hx
  obtain ⟨entry, hentry, hx⟩ := List.mem_flatMap.1 hx
  exact pair.2 (hentries entry hentry) x hx

end Every

end ScriptFront
