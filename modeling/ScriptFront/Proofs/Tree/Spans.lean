import Mathlib.Data.List.Induction
import ScriptFront.Tree.Entries

/-!
# Trees up to spans

`respan f` puts `f` of the span for every span of a tree. Nothing but spans changes, so a tree is
rendered as before and the entries of a hash stay the entries they are. Two trees are `Alike` if
they differ in spans only.
-/

namespace ScriptFront

class Spanned (α : Type) where
  /-- Changes all spans of a value. -/
  respan : (Span → Span) → α → α

export Spanned (respan)

/-! ## Tokens and trees -/

instance : Spanned Token := ⟨fun f t => { t with span := f t.span }⟩

instance : Spanned Ident := ⟨fun f name => { name with token := respan f name.token }⟩

mutual

def Expr.respan (f : Span → Span) : Expr → Expr
  | .ident name => .ident (Spanned.respan f name)
  | .integer token value => .integer (Spanned.respan f token) value
  | .float token value => .float (Spanned.respan f token) value
  | .boolean token value => .boolean (Spanned.respan f token) value
  | .string token value => .string (Spanned.respan f token) value
  | .unary token operator right => .unary (Spanned.respan f token) operator (respanSlot f right)
  | .binary token left operator right =>
    .binary (Spanned.respan f token) (left.respan f) operator (respanSlot f right)
  | .cond token condition consequence alternative =>
    .cond (Spanned.respan f token) (respanSlot f condition) (consequence.respan f)
      (respanElse f alternative)
  | .function token parameters body =>
    .function (Spanned.respan f token) (parameters.map (Spanned.respan f)) (body.respan f)
  | .call token function arguments =>
    .call (Spanned.respan f token) (function.respan f) (respanEach f arguments)
  | .array token elements => .array (Spanned.respan f token) (respanEach f elements)
  | .index token left index => .index (Spanned.respan f token) (left.respan f) (index.respan f)
  | .hash token entries => .hash (Spanned.respan f token) (respanEntries f entries)

def respanSlot (f : Span → Span) : Option Expr → Option Expr
  | none => none
  | some e => some (e.respan f)

def respanElse (f : Span → Span) : Option Block → Option Block
  | none => none
  | some b => some (b.respan f)

def respanEach (f : Span → Span) : List Expr → List Expr
  | [] => []
  | e :: es => e.respan f :: respanEach f es

def respanEntries (f : Span → Span) : List (Expr × Expr) → List (Expr × Expr)
  | [] => []
  | (key, value) :: entries => (key.respan f, value.respan f) :: respanEntries f entries

def Block.respan (f : Span → Span) : Block → Block
  | .mk token body => .mk (Spanned.respan f token) (respanBody f body)

def Stmt.respan (f : Span → Span) : Stmt → Stmt
  | .binding token name value =>
    .binding (Spanned.respan f token) (Spanned.respan f name) (respanSlot f value)
  | .ret token value => .ret (Spanned.respan f token) (respanSlot f value)
  | .bare token expression => .bare (Spanned.respan f token) (respanSlot f expression)
  | .block b => .block (b.respan f)

def respanBody (f : Span → Span) : List Stmt → List Stmt
  | [] => []
  | s :: body => s.respan f :: respanBody f body

end

instance : Spanned Expr := ⟨Expr.respan⟩

instance : Spanned Block := ⟨Block.respan⟩

instance : Spanned Stmt := ⟨Stmt.respan⟩

instance {α : Type} [Spanned α] : Spanned (Option α) := ⟨fun f => Option.map (respan f)⟩

instance {α : Type} [Spanned α] : Spanned (List α) := ⟨fun f => List.map (respan f)⟩

instance {α β : Type} [Spanned α] [Spanned β] : Spanned (α × β) :=
  ⟨fun f (a, b) => (respan f a, respan f b)⟩

instance : Spanned Program := ⟨fun f program => ⟨respan f program.body⟩⟩

/-- A value without spans. -/
instance : Spanned Unit := ⟨fun _ => id⟩

section
variable (f : Span → Span)

theorem respanSlot_eq (o : Option Expr) : respanSlot f o = respan f o := by
  cases o <;> rfl

theorem respanElse_eq (o : Option Block) : respanElse f o = respan f o := by
  cases o <;> rfl

theorem respanEach_eq (es : List Expr) : respanEach f es = respan f es := by
  induction es with
  | nil => rfl
  | cons e es ih => exact congrArg (respan f e :: ·) ih

theorem respanEntries_eq (entries : List (Expr × Expr)) :
    respanEntries f entries = respan f entries := by
  induction entries with
  | nil => rfl
  | cons entry entries ih => exact congrArg (respan f entry :: ·) ih

theorem respanBody_eq (body : List Stmt) : respanBody f body = respan f body := by
  induction body with
  | nil => rfl
  | cons s body ih => exact congrArg (respan f s :: ·) ih

/-! ## Parts of values -/

@[simp] theorem respan_kind (t : Token) : (respan f t).kind = t.kind := rfl

@[simp] theorem respan_text (t : Token) : (respan f t).text = t.text := rfl

@[simp] theorem respan_name (name : Ident) : (respan f name).name = name.name := rfl

@[simp] theorem respan_mkIdent (t : Token) (name : String) :
    respan f (Ident.mk t name) = ⟨respan f t, name⟩ := rfl

section
variable {α β : Type} [Spanned α] [Spanned β]

@[simp] theorem respan_fst (p : α × β) : (respan f p).1 = respan f p.1 := rfl

@[simp] theorem respan_snd (p : α × β) : (respan f p).2 = respan f p.2 := rfl

@[simp] theorem respan_pair (a : α) (b : β) : respan f (a, b) = (respan f a, respan f b) := rfl

@[simp] theorem respan_none : respan f (none : Option α) = none := rfl

@[simp] theorem respan_some (a : α) : respan f (some a) = some (respan f a) := rfl

@[simp] theorem respan_nil : respan f ([] : List α) = [] := rfl

@[simp] theorem respan_cons (a : α) (as : List α) :
    respan f (a :: as) = respan f a :: respan f as := rfl

@[simp] theorem respan_append (as bs : List α) :
    respan f (as ++ bs) = respan f as ++ respan f bs := List.map_append

end

section
variable (t : Token)

@[simp] theorem respan_ident (name : Ident) :
    respan f (Expr.ident name) = .ident (respan f name) := rfl

@[simp] theorem respan_integer (value : Int) :
    respan f (Expr.integer t value) = .integer (respan f t) value := rfl

@[simp] theorem respan_float (value : Float) :
    respan f (Expr.float t value) = .float (respan f t) value := rfl

@[simp] theorem respan_boolean (value : Bool) :
    respan f (Expr.boolean t value) = .boolean (respan f t) value := rfl

@[simp] theorem respan_string (value : String) :
    respan f (Expr.string t value) = .string (respan f t) value := rfl

@[simp] theorem respan_unary (operator : String) (right : Option Expr) :
    respan f (Expr.unary t operator right) = .unary (respan f t) operator (respan f right) := by
  rw [← respanSlot_eq]
  rfl

@[simp] theorem respan_binary (left : Expr) (operator : String) (right : Option Expr) :
    respan f (Expr.binary t left operator right) =
      .binary (respan f t) (respan f left) operator (respan f right) := by
  rw [← respanSlot_eq]
  rfl

@[simp] theorem respan_cond (condition : Option Expr) (consequence : Block)
    (alternative : Option Block) : respan f (Expr.cond t condition consequence alternative) =
      .cond (respan f t) (respan f condition) (respan f consequence) (respan f alternative) := by
  rw [← respanSlot_eq, ← respanElse_eq]
  rfl

@[simp] theorem respan_function (parameters : List Ident) (body : Block) :
    respan f (Expr.function t parameters body) =
      .function (respan f t) (respan f parameters) (respan f body) := rfl

@[simp] theorem respan_call (function : Expr) (arguments : List Expr) :
    respan f (Expr.call t function arguments) =
      .call (respan f t) (respan f function) (respan f arguments) := by
  rw [← respanEach_eq]
  rfl

@[simp] theorem respan_array (elements : List Expr) :
    respan f (Expr.array t elements) = .array (respan f t) (respan f elements) := by
  rw [← respanEach_eq]
  rfl

@[simp] theorem respan_index (left index : Expr) :
    respan f (Expr.index t left index) = .index (respan f t) (respan f left) (respan f index) := rfl

@[simp] theorem respan_hash (entries : List (Expr × Expr)) :
    respan f (Expr.hash t entries) = .hash (respan f t) (respan f entries) := by
  rw [← respanEntries_eq]
  rfl

@[simp] theorem respan_mkBlock (body : List Stmt) :
    respan f (Block.mk t body) = .mk (respan f t) (respan f body) := by
  rw [← respanBody_eq]
  rfl

@[simp] theorem respan_binding (name : Ident) (value : Option Expr) :
    respan f (Stmt.binding t name value) =
      .binding (respan f t) (respan f name) (respan f value) := by
  rw [← respanSlot_eq]
  rfl

@[simp] theorem respan_ret (value : Option Expr) :
    respan f (Stmt.ret t value) = .ret (respan f t) (respan f value) := by
  rw [← respanSlot_eq]
  rfl

@[simp] theorem respan_bare (expression : Option Expr) :
    respan f (Stmt.bare t expression) = .bare (respan f t) (respan f expression) := by
  rw [← respanSlot_eq]
  rfl

@[simp] theorem respan_block (b : Block) : respan f (Stmt.block b) = .block (respan f b) := rfl

end

/-! ## Rendering -/

mutual

theorem Expr.render_respan : (e : Expr) → (e.respan f).render = e.render
  | .ident name => rfl
  | .integer .. | .float .. | .boolean .. | .string .. => rfl
  | .unary token operator right => by simp [Expr.respan, Expr.render, renderSlot_respan right]
  | .binary token left operator right => by
    simp [Expr.respan, Expr.render, left.render_respan, renderSlot_respan right]
  | .cond token condition consequence alternative => by
    simp [Expr.respan, Expr.render, renderSlot_respan condition, consequence.render_respan,
      renderElse_respan alternative]
  | .function token parameters body => by
    simp [Expr.respan, Expr.render, body.render_respan, Function.comp_def]
  | .call token function arguments => by
    simp [Expr.respan, Expr.render, function.render_respan, renderEach_respan arguments]
  | .array token elements => by simp [Expr.respan, Expr.render, renderEach_respan elements]
  | .index token left index => by
    simp [Expr.respan, Expr.render, left.render_respan, index.render_respan]
  | .hash token entries => by simp [Expr.respan, Expr.render, renderEntries_respan entries]

theorem renderSlot_respan : (o : Option Expr) → renderSlot (respanSlot f o) = renderSlot o
  | none => rfl
  | some e => e.render_respan

theorem renderElse_respan : (o : Option Block) → renderElse (respanElse f o) = renderElse o
  | none => rfl
  | some b => by simp [respanElse, renderElse, b.render_respan]

theorem renderEach_respan : (es : List Expr) → renderEach (respanEach f es) = renderEach es
  | [] => rfl
  | e :: es => by simp [respanEach, renderEach, e.render_respan, renderEach_respan es]

theorem renderEntries_respan : (entries : List (Expr × Expr)) →
    renderEntries (respanEntries f entries) = renderEntries entries
  | [] => rfl
  | (key, value) :: entries => by
    simp [respanEntries, renderEntries, key.render_respan, value.render_respan,
      renderEntries_respan entries]

theorem Block.render_respan : (b : Block) → (b.respan f).render = b.render
  | .mk token body => by simp [Block.respan, Block.render, renderBody_respan body]

theorem Stmt.render_respan : (s : Stmt) → (s.respan f).render = s.render
  | .binding token name value => by simp [Stmt.respan, Stmt.render, renderSlot_respan value]
  | .ret token value => by simp [Stmt.respan, Stmt.render, renderSlot_respan value]
  | .bare token expression => renderSlot_respan expression
  | .block b => b.render_respan

theorem renderBody_respan : (body : List Stmt) → renderBody (respanBody f body) = renderBody body
  | [] => rfl
  | s :: body => by simp [respanBody, renderBody, s.render_respan, renderBody_respan body]

end

/-! ## Entries -/

theorem Entries.insert_respan (entries : Entries) (key value : Expr) :
    respan f (entries.insert key value) =
      (respan f entries).insert (respan f key) (respan f value) := by
  induction entries with
  | nil => rfl
  | cons entry rest ih =>
    obtain ⟨k, v⟩ := entry
    have hrender (e : Expr) : (respan f e).render = e.render := e.render_respan f
    show _ = Entries.insert ((respan f k, respan f v) :: respan f rest) _ _
    simp only [Entries.insert, hrender]
    split
    · rfl
    · exact congrArg ((respan f k, respan f v) :: ·) ih

@[simp] theorem Entries.ofPairs_respan (pairs : List (Expr × Expr)) :
    respan f (Entries.ofPairs pairs) = Entries.ofPairs (respan f pairs) := by
  induction pairs using List.reverseRecOn with
  | nil => rfl
  | append_singleton pairs pair ih => simp [Entries.insert_respan, ih]

end

/-! ## Spans left alone -/

@[simp] theorem respan_token_id (t : Token) : respan id t = t := rfl

theorem respan_list_id {α : Type} [Spanned α] (h : ∀ a : α, respan id a = a) (as : List α) :
    respan id as = as := by
  induction as with
  | nil => rfl
  | cons a as ih => rw [respan_cons, h, ih]

mutual

theorem Expr.respan_id : (e : Expr) → e.respan id = e
  | .ident name => rfl
  | .integer .. | .float .. | .boolean .. | .string .. => rfl
  | .unary token operator right => by simp [Expr.respan, respanSlot_id right]
  | .binary token left operator right => by
    simp [Expr.respan, left.respan_id, respanSlot_id right]
  | .cond token condition consequence alternative => by
    simp [Expr.respan, respanSlot_id condition, consequence.respan_id,
      respanElse_id alternative]
  | .function token parameters body => by
    have hparameters : parameters.map (Spanned.respan id) = parameters :=
      respan_list_id (fun _ => rfl) parameters
    simp [Expr.respan, hparameters, body.respan_id]
  | .call token function arguments => by
    simp [Expr.respan, function.respan_id, respanEach_id arguments]
  | .array token elements => by simp [Expr.respan, respanEach_id elements]
  | .index token left index => by simp [Expr.respan, left.respan_id, index.respan_id]
  | .hash token entries => by simp [Expr.respan, respanEntries_id entries]

theorem respanSlot_id : (o : Option Expr) → respanSlot id o = o
  | none => rfl
  | some e => congrArg some e.respan_id

theorem respanElse_id : (o : Option Block) → respanElse id o = o
  | none => rfl
  | some b => congrArg some b.respan_id

theorem respanEach_id : (es : List Expr) → respanEach id es = es
  | [] => rfl
  | e :: es => by simp [respanEach, e.respan_id, respanEach_id es]

theorem respanEntries_id : (entries : List (Expr × Expr)) → respanEntries id entries = entries
  | [] => rfl
  | (key, value) :: entries => by
    simp [respanEntries, key.respan_id, value.respan_id, respanEntries_id entries]

theorem Block.respan_id : (b : Block) → b.respan id = b
  | .mk token body => by simp [Block.respan, respanBody_id body]

theorem Stmt.respan_id : (s : Stmt) → s.respan id = s
  | .binding token name value => by
    simp [Stmt.respan, respanSlot_id value]
    rfl
  | .ret token value => by simp [Stmt.respan, respanSlot_id value]
  | .bare token expression => by simp [Stmt.respan, respanSlot_id expression]
  | .block b => congrArg Stmt.block b.respan_id

theorem respanBody_id : (body : List Stmt) → respanBody id body = body
  | [] => rfl
  | s :: body => by simp [respanBody, s.respan_id, respanBody_id body]

end

/-! ## Alike -/

def Span.forget (_ : Span) : Span := ⟨0, 0, ""⟩

/-- The values are the same up to spans. -/
def Alike {α : Type} [Spanned α] (a b : α) : Prop := respan Span.forget a = respan Span.forget b

theorem Alike.refl {α : Type} [Spanned α] (a : α) : Alike a a := rfl

theorem Token.alike_iff {t u : Token} : Alike t u ↔ t.kind = u.kind ∧ t.text = u.text := by
  simp [Alike, respan, Span.forget]

end ScriptFront
