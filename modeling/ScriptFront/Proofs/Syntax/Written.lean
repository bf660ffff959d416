import ScriptFront.Proofs.Parser.Climbing
import ScriptFront.Proofs.Syntax.Standard
import ScriptFront.Proofs.Token.Shape
import ScriptFront.Proofs.Tree.Entries

/-!
# Trees that can be written down

`Written` says of a tree that the standard grammar could have made it of tokens of a lexer: no slot
is empty, an operator shows its token, and no key of a hash comes twice. Conditions and functions
are left out, since their rendering is not their syntax. What else is parsed without a diagnostic is
written (`Grammar.run_writes`), whatever the text is and wherever parsing starts.
-/

namespace ScriptFront

open Text

/-- A token that a lexer can give. -/
def Token.Lexed (t : Token) : Prop := ∃ x : Lexeme, x.Shaped ∧ t.kind = x.kind ∧ t.text = x.shown

/-! ## Plain trees -/

mutual

/-- No part of the tree is a condition or a function. -/
def Expr.isPlain : Expr → Bool
  | .ident _ | .integer .. | .float .. | .boolean .. | .string .. => true
  | .unary _ _ right => plainSlot right
  | .binary _ left _ right => left.isPlain && plainSlot right
  | .cond .. | .function .. => false
  | .call _ function arguments => function.isPlain && plainEach arguments
  | .array _ elements => plainEach elements
  | .index _ left index => left.isPlain && index.isPlain
  | .hash _ entries => plainEntries entries

def plainSlot : Option Expr → Bool
  | none => true
  | some e => e.isPlain

def plainEach : List Expr → Bool
  | [] => true
  | e :: es => e.isPlain && plainEach es

def plainEntries : List (Expr × Expr) → Bool
  | [] => true
  | (key, value) :: entries => key.isPlain && value.isPlain && plainEntries entries

end

mutual

def Block.isPlain : Block → Bool
  | .mk _ body => plainBody body

def Stmt.isPlain : Stmt → Bool
  | .binding _ _ value | .ret _ value | .bare _ value => plainSlot value
  | .block b => b.isPlain

def plainBody : List Stmt → Bool
  | [] => true
  | s :: body => s.isPlain && plainBody body

end

theorem plainEach_iff {es : List Expr} : plainEach es ↔ ∀ e ∈ es, e.isPlain := by
  induction es with
  | nil => simp [plainEach]
  | cons e es ih => simp [plainEach, ih]

theorem plainEntries_iff {entries : List (Expr × Expr)} :
    plainEntries entries ↔ (∀ e ∈ entries, e.1.isPlain) ∧ ∀ e ∈ entries, e.2.isPlain := by
  induction entries with
  | nil => simp [plainEntries]
  | cons entry entries ih =>
    obtain ⟨key, value⟩ := entry
    simp only [plainEntries, Bool.and_eq_true, ih, List.forall_mem_cons]
    grind

/-! ## Written trees -/

inductive Expr.Written : Expr → Prop where
  | leaf {t : Token} {e : Expr} : t.Lexed → Grammar.standard.leaf? t = some e → Written e
  | unary {op : Token} {right : Expr} : op.Lexed → op.kind = .bang ∨ op.kind = .dash →
      Written right → Written (.unary op op.text (some right))
  | binary {op : Token} {p : Power} {left right : Expr} : op.Lexed → op.kind ∈ p.operators →
      Written left → Written right → Written (.binary op left op.text (some right))
  | call {t : Token} {f : Expr} {arguments : List Expr} : t.Lexed → t.kind = .openParen →
      Written f → (∀ e ∈ arguments, Written e) → Written (.call t f arguments)
  | array {t : Token} {elements : List Expr} : t.Lexed → t.kind = .openBracket →
      (∀ e ∈ elements, Written e) → Written (.array t elements)
  | index {t : Token} {left index : Expr} : t.Lexed → t.kind = .openBracket →
      Written left → Written index → Written (.index t left index)
  | hash {t : Token} {entries : List (Expr × Expr)} : t.Lexed → t.kind = .openCurly →
      (∀ e ∈ entries, Written e.1) → (∀ e ∈ entries, Written e.2) →
      (entries.map (·.1.render)).Nodup → Written (.hash t entries)

inductive Stmt.Written : Stmt → Prop where
  | binding {t name : Token} {value : Expr} : t.Lexed → t.kind = .letWord → name.Lexed →
      name.kind = .identifier → value.Written → Written (.binding t name.toIdent (some value))
  | ret {t : Token} {value : Expr} : t.Lexed → t.kind = .returnWord → value.Written →
      Written (.ret t (some value))
  | bare {t : Token} {e : Expr} : e.Written → Written (.bare t (some e))

/-- The tree is written if it is plain. -/
def Expr.Fair (e : Expr) : Prop := e.isPlain → e.Written

/-! ## Tokens of a state -/

theorem Tape.next_lexed (tape : Tape) : ∀ t ∈ tape.next.1, t.Lexed := by
  intro t ht
  have hnext : tape.next = (some t, tape.next.2) := Prod.ext ht rfl
  obtain ⟨c, rest, hp, rfl, -⟩ := next_some hnext
  have hc : ¬ isBlank c := Lexeme.head?_dropWhile c (by rw [← skipBlank_pending, hp]; rfl)
  exact ⟨_, Lexeme.shaped_scan rest hc, rfl, rfl⟩

theorem Lexer.nextOrEnd_lexed (lx : Lexer) : lx.nextOrEnd.1.Lexed := by
  have hlexed := lx.tape.next_lexed
  rw [← lx.next_tape.1] at hlexed
  unfold nextOrEnd
  split
  · rename_i t after h
    exact hlexed t (by rw [h]; rfl)
  · exact ⟨_, Lexeme.Shaped.nul [], rfl, rfl⟩

namespace State

/-- The state shows what a lexer can give. -/
def Lexed (s : State) : Prop := s.current.Lexed ∧ s.peek.Lexed

theorem lexed_ofLexer (lx : Lexer) : (ofLexer lx).Lexed :=
  ⟨lx.nextOrEnd_lexed, lx.nextOrEnd.2.nextOrEnd_lexed⟩

variable {s t : State}

theorem Lexed.advance (h : s.Lexed) : s.advance.Lexed := ⟨h.2, s.lexer.nextOrEnd_lexed⟩

theorem Lexed.reaches (h : s.Lexed) (hst : s.Reaches t) : t.Lexed := by
  induction hst with
  | refl => exact h
  | advance _ ih => exact ih.advance
  | record _ _ ih => exact ih

theorem Lexed.clean {α : Type} {p : Parse α} [p.Forward] {a : α} (h : s.Lexed)
    (hp : p.Clean s a t) : t.Lexed := h.reaches (Parse.Forward.done hp.1)

end State

/-! ## What is parsed is written -/

/-- What a parser parses without a diagnostic is written as far as it is plain. -/
structure Parses.Writes (parse : Parses) : Prop where
  expr {min : Power} {s t : State} {e : Expr} :
    s.Lexed → (parse (.expr min)).Clean s e t → e.Fair
  climb {min : Power} {left : Expr} {s t : State} {e : Expr} :
    s.Lexed → left.Fair → (parse (.climb min left)).Clean s e t → e.Fair
  elements {s t : State} {es : List Expr} :
    s.Lexed → (parse .elements).Clean s es t → ∀ e ∈ es, e.Fair
  entries {s t : State} {pairs : List (Expr × Expr)} :
    s.Lexed → (parse .entries).Clean s pairs t → ∀ p ∈ pairs, p.1.Fair ∧ p.2.Fair
  stmt {s t : State} {statement : Stmt} :
    s.Lexed → (parse .stmt).Clean s statement t → statement.isPlain → statement.Written
  stmts {scope : Scope} {s t : State} {body : List Stmt} :
    s.Lexed → (parse (.stmts scope)).Clean s body t →
      ∀ statement ∈ body, statement.isPlain → statement.Written

namespace Parses.Writes

variable {self : Parses} [∀ {α : Type} (goal : Goal α), (self goal).Forward] {s t : State}

theorem list (h : self.Writes) {closing : Kind} {es : List Expr} (hs : s.Lexed)
    (hes : (parseList self closing).Clean s es t) : ∀ e ∈ es, e.Fair := by
  rw [clean_list] at hes
  split at hes
  · simp [hes.1]
  · obtain ⟨first, u, hfirst, others, v, hothers, -, rfl, -⟩ := hes
    exact List.forall_mem_cons.2
      ⟨h.expr hs.advance hfirst, h.elements (hs.advance.clean hfirst) hothers⟩

theorem leaf {rule : HeadRule} {e : Expr} (hs : s.Lexed)
    (hrule : Grammar.standard.heads s.current.kind = some rule)
    (he : rule.leaf? s.current = some e) : e.Fair := fun _ =>
  .leaf hs.1 (by simpa [Grammar.leaf?, hrule] using he)

theorem head (h : self.Writes) {rule : HeadRule} {e : Expr} (hs : s.Lexed)
    (hrule : Grammar.standard.heads s.current.kind = some rule)
    (he : (rule.parse self).Clean s e t) : e.Fair := by
  have hstarts := Grammar.standard_heads.1 hrule
  cases rule with
  | ident => exact leaf hs hrule (by rw [(clean_ident.1 he).1]; rfl)
  | integer =>
    obtain ⟨value, hvalue, rfl, -⟩ := clean_integer.1 he
    exact leaf hs hrule (by simp [HeadRule.leaf?, hvalue])
  | float =>
    obtain ⟨value, hvalue, rfl, -⟩ := clean_float.1 he
    exact leaf hs hrule (by simp [HeadRule.leaf?, hvalue])
  | boolean => exact leaf hs hrule (by rw [(clean_boolean.1 he).1]; rfl)
  | string => exact leaf hs hrule (by rw [(clean_string.1 he).1]; rfl)
  | unary =>
    obtain ⟨right, hright, rfl⟩ := clean_unary.1 he
    exact fun hplain => .unary hs.1 (by simpa [HeadRule.starts] using hstarts)
      (h.expr hs.advance hright hplain)
  | group =>
    obtain ⟨u, hinner, -, -⟩ := clean_group.1 he
    exact h.expr hs.advance hinner
  | cond =>
    obtain ⟨-, _, _, -, -, -, _, _, -, _, -, rfl⟩ := clean_cond.1 he
    exact fun hplain => by cases hplain
  | function =>
    obtain ⟨-, _, _, -, -, _, -, rfl⟩ := clean_function.1 he
    exact fun hplain => by cases hplain
  | array =>
    obtain ⟨elements, helements, rfl⟩ := clean_array.1 he
    refine fun hplain => .array hs.1 (by simpa [HeadRule.starts] using hstarts) fun e he => ?_
    exact h.list hs helements e he (plainEach_iff.1 hplain e he)
  | hash =>
    obtain ⟨pairs, u, hpairs, -, rfl, -⟩ := clean_hash.1 he
    intro hplain
    obtain ⟨hkeys, hvalues⟩ := plainEntries_iff.1 hplain
    have hfair := Entries.forall_ofPairs (h.entries hs hpairs)
    exact .hash hs.1 (by simpa [HeadRule.starts] using hstarts)
      (fun e he => (hfair e he).1 (hkeys e he)) (fun e he => (hfair e he).2 (hvalues e he))
      (Entries.nodup_ofPairs pairs)

theorem tail (h : self.Writes) {left e : Expr} {power : Power} {rule : TailRule} (hs : s.Lexed)
    (hrule : Grammar.standard.tails s.current.kind = some (power, rule)) (hleft : left.Fair)
    (he : (rule.parse self left power).Clean s e t) : e.Fair := by
  cases rule with
  | binary =>
    obtain ⟨right, hright, rfl⟩ := clean_binary.1 he
    intro hplain
    obtain ⟨hplain, hplain'⟩ := Bool.and_eq_true_iff.1 hplain
    exact .binary hs.1 (Grammar.standard_binary hrule).1 (hleft hplain)
      (h.expr hs.advance hright hplain')
  | call =>
    obtain ⟨arguments, harguments, rfl⟩ := clean_call.1 he
    intro hplain
    obtain ⟨hplain, hplain'⟩ := Bool.and_eq_true_iff.1 hplain
    refine .call hs.1 (Grammar.standard_call hrule).1 (hleft hplain) fun e he => ?_
    exact h.list hs harguments e he (plainEach_iff.1 hplain' e he)
  | index =>
    obtain ⟨index, u, hindex, -, rfl, -⟩ := clean_index.1 he
    intro hplain
    obtain ⟨hplain, hplain'⟩ := Bool.and_eq_true_iff.1 hplain
    exact .index hs.1 (Grammar.standard_index hrule).1 (hleft hplain)
      (h.expr hs.advance hindex hplain')

theorem entries_layer (h : self.Writes) {pairs : List (Expr × Expr)} (hs : s.Lexed)
    (hpairs : (Grammar.standard.layer self .entries).Clean s pairs t) :
    ∀ p ∈ pairs, p.1.Fair ∧ p.2.Fair := by
  rw [clean_entries] at hpairs
  split at hpairs
  · simp [hpairs.1]
  · obtain ⟨key, u, hkey, -, value, v, hvalue, hothers⟩ := hpairs
    have hu := (hs.advance.clean hkey).advance.advance
    have hv := hu.clean hvalue
    have hpair := And.intro (h.expr hs.advance hkey) (h.expr hu hvalue)
    rcases hothers with ⟨-, others, hothers, rfl⟩ | ⟨-, others, hothers, rfl⟩
    · exact List.forall_mem_cons.2 ⟨hpair, h.entries hv hothers⟩
    · exact List.forall_mem_cons.2 ⟨hpair, h.entries hv.advance hothers⟩

theorem stmt_layer (h : self.Writes) {statement : Stmt} (hs : s.Lexed)
    (hp : (Grammar.standard.layer self .stmt).Clean s statement t) (hplain : statement.isPlain) :
    statement.Written := by
  rw [clean_stmt, Grammar.standard_stmts] at hp
  split at hp
  · rename_i hlet
    obtain ⟨hname, -, value, u, hvalue, rfl, -⟩ := clean_binding.1 hp
    exact .binding hs.1 hlet hs.2 hname (h.expr hs.advance.advance.advance hvalue hplain)
  · split at hp
    · rename_i hret
      obtain ⟨value, u, hvalue, rfl, -⟩ := clean_ret.1 hp
      exact .ret hs.1 hret (h.expr hs.advance hvalue hplain)
    · obtain ⟨value, u, hvalue, rfl, -⟩ := clean_bare.1 hp
      exact .bare (h.expr hs hvalue hplain)

theorem layer (h : self.Writes) : Parses.Writes (Grammar.standard.layer self) where
  expr hs he := by
    obtain ⟨rule, hrule, left, u, hleft, he⟩ := clean_expr.1 he
    exact h.climb (hs.clean hleft) (h.head hs hrule hleft) he
  climb hs hleft he := by
    rcases clean_climb.1 he with ⟨power, rule, hrule, -, -, grown, u, hgrown, he⟩ | ⟨-, rfl, -⟩
    · have hfair := h.tail (s := State.advance _) hs.advance hrule hleft hgrown
      exact h.climb (hs.advance.clean hgrown) hfair he
    · exact hleft
  elements hs hes := by
    rw [clean_elements] at hes
    split at hes
    · obtain ⟨first, u, hfirst, others, hothers, rfl⟩ := hes
      have hs' := hs.advance.advance
      exact List.forall_mem_cons.2 ⟨h.expr hs' hfirst, h.elements (hs'.clean hfirst) hothers⟩
    · simp [hes.1]
  entries := h.entries_layer
  stmt := h.stmt_layer
  stmts hs hbody := by
    rw [clean_stmts] at hbody
    split at hbody
    · simp [hbody.1]
    · obtain ⟨first, u, hfirst, others, hothers, rfl⟩ := hbody
      exact List.forall_mem_cons.2
        ⟨h.stmt hs hfirst, h.stmts (hs.clean hfirst).advance hothers⟩

end Parses.Writes

theorem Grammar.run_writes (budget : Nat) : Parses.Writes (standard.run budget) := by
  induction budget with
  | zero =>
    refine ⟨fun _ h => ?_, fun _ _ h => ?_, fun _ h => ?_, fun _ h => ?_, fun _ h => ?_,
      fun _ h => ?_⟩ <;> cases h.1
  | succ budget ih => exact ih.layer

end ScriptFront
