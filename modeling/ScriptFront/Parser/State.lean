import ScriptFront.Diagnostic.Basic
import ScriptFront.Token.Lexer

/-!
# Parser states

A state is a lexer with two tokens read off it: the current one and one to look ahead at. Behind the
last token the state keeps reading end tokens. A `Parse` is a step from state to state that gives a
value, fails with a diagnostic, or is starved: it was given too small a budget to tell.
-/

namespace ScriptFront

structure State where
  lexer : Lexer
  current : Token
  peek : Token
  /-- In the order in which they were found. -/
  diagnostics : Array Diagnostic
  deriving Repr

namespace State

def ofLexer (lx : Lexer) : State :=
  let first := lx.nextOrEnd
  let second := first.2.nextOrEnd
  ⟨second.2, first.1, second.1, #[]⟩

/-- Two tokens are read before parsing starts. -/
theorem ofLexer_eq {lx second third : Lexer} {first other : Token}
    (hfirst : lx.nextOrEnd = (first, second)) (hsecond : second.nextOrEnd = (other, third)) :
    ofLexer lx = ⟨third, first, other, #[]⟩ := by
  simp only [ofLexer, hfirst, hsecond]

def advance (s : State) : State :=
  let next := s.lexer.nextOrEnd
  { s with lexer := next.2, current := s.peek, peek := next.1 }

def record (s : State) (d : Diagnostic) : State :=
  { s with diagnostics := s.diagnostics.push d }

end State

inductive Outcome (α : Type) where
  | done (value : α) (state : State)
  | failed (cause : Diagnostic) (state : State)
  | starved

def Parse (α : Type) : Type := State → Outcome α

namespace Parse

instance : Monad Parse where
  pure a := fun s => .done a s
  bind p f := fun s =>
    match p s with
    | .done a s => f a s
    | .failed d s => .failed d s
    | .starved => .starved

instance : LawfulMonad Parse := LawfulMonad.mk' Parse
  (fun p => by funext s; simp only [Functor.map]; cases p s <;> rfl)
  (fun _ _ => rfl)
  (fun p f g => by funext s; simp only [Bind.bind]; cases p s <;> rfl)

theorem pure_apply {α : Type} (a : α) (s : State) : (pure a : Parse α) s = .done a s := rfl

theorem bind_done {α β : Type} {p : Parse α} {f : α → Parse β} {s t : State} {a : α}
    (h : p s = .done a t) : (p >>= f) s = f a t := by
  simp only [Bind.bind, h]

theorem bind_failed {α β : Type} {p : Parse α} {f : α → Parse β} {s t : State} {d : Diagnostic}
    (h : p s = .failed d t) : (p >>= f) s = .failed d t := by
  simp only [Bind.bind, h]

theorem bind_starved {α β : Type} {p : Parse α} {f : α → Parse β} {s : State}
    (h : p s = .starved) : (p >>= f) s = .starved := by
  simp only [Bind.bind, h]

theorem bind_eq_done {α β : Type} {p : Parse α} {f : α → Parse β} {s t : State} {b : β} :
    (p >>= f) s = .done b t ↔ ∃ a u, p s = .done a u ∧ f a u = .done b t := by
  simp only [Bind.bind]
  cases p s <;> simp [and_assoc]

def starve {α : Type} : Parse α := fun _ => .starved

def fail {α : Type} (d : Diagnostic) : Parse α := fun s => .failed d s

def current : Parse Token := fun s => .done s.current s

/-- The kind of the token ahead. -/
def ahead : Parse Kind := fun s => .done s.peek.kind s

def advance : Parse Unit := fun s => .done () s.advance

/-- Moves to the token ahead if it is of this kind, and stays otherwise. -/
def expect (kind : Kind) : Parse Token := fun s =>
  if s.peek.kind = kind then .done s.peek s.advance
  else .failed ⟨.unexpected kind s.peek.kind, s.peek.position⟩ s

/-- Like `expect`, without the token. -/
def need (kind : Kind) : Parse Unit := do
  let _ ← expect kind

/-- Records a failure of `p` and goes on where it stopped. -/
def recover {α : Type} (p : Parse α) : Parse (Option α) := fun s =>
  match p s with
  | .done a s => .done (some a) s
  | .failed d s => .done none (s.record d)
  | .starved => .starved

end Parse

end ScriptFront
