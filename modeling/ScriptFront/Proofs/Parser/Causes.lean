import ScriptFront.Proofs.Parser.Ensures
import ScriptFront.Proofs.Parser.Stream
import ScriptFront.Proofs.Syntax.Standard

/-!
# Every diagnostic has a cause

A state gives cause for a diagnostic if that says what is wrong there, with the token ahead or with
the current one (`State.Causes`). Parsing records a diagnostic, or fails with one, only where it met
a state that gives cause for it: what a rule is made of does, so every run of a grammar does
(`Grammar.run_founded`). The states that a parser meets show the stream of its lexer, so each
diagnostic of a program describes a token of that stream (`Fault.Describes`) and stands where the
token starts.
-/

namespace ScriptFront

/-! ## Causes -/

namespace State

/-- The state gives cause for the diagnostic. -/
inductive Causes (g : Grammar) (s : State) : Diagnostic → Prop where
  | unexpected {kind : Kind} : s.peek.kind ≠ kind →
      Causes g s ⟨.unexpected kind s.peek.kind, s.peek.position⟩
  | noExpression : g.heads s.current.kind = none →
      Causes g s ⟨.noExpression s.current.kind s.current.text, s.current.position⟩
  | badInteger : g.heads s.current.kind = some .integer → Literal.integer? s.current.text = none →
      Causes g s ⟨.badInteger s.current.text, s.current.position⟩
  | badFloat : g.heads s.current.kind = some .float → Literal.decimal? s.current.text = none →
      Causes g s ⟨.badFloat s.current.text, s.current.position⟩

/-- Like `Reaches`, but what is recorded has a cause in a state that was met. -/
inductive ReachesBy (g : Grammar) (s : State) : State → Prop where
  | refl : ReachesBy g s s
  | advance {t : State} : ReachesBy g s t → ReachesBy g s t.advance
  | record {t u : State} {d : Diagnostic} : ReachesBy g s t → ReachesBy g s u → u.Causes g d →
      ReachesBy g s (t.record d)

/-- A state on the way from `s` gives cause for the diagnostic. -/
def Meets (g : Grammar) (s : State) (d : Diagnostic) : Prop := ∃ u, s.ReachesBy g u ∧ u.Causes g d

namespace ReachesBy

variable {g : Grammar} {s t u : State} {d : Diagnostic}

theorem trans (h : s.ReachesBy g t) (h' : t.ReachesBy g u) : s.ReachesBy g u := by
  induction h' with
  | refl => exact h
  | advance _ ih => exact ih.advance
  | record _ _ hcause ih ih' => exact ih.record ih' hcause

theorem meets (h : s.ReachesBy g t) (h' : t.Meets g d) : s.Meets g d := by
  obtain ⟨u, hu, hcause⟩ := h'
  exact ⟨u, h.trans hu, hcause⟩

theorem reaches (h : s.ReachesBy g t) : s.Reaches t := by
  induction h with
  | refl => exact .refl
  | advance _ ih => exact ih.advance
  | record _ _ _ ih _ => exact ih.record _

/-- A diagnostic that is new has a cause. -/
theorem diagnostics (h : s.ReachesBy g t) :
    ∀ d ∈ t.diagnostics, d ∈ s.diagnostics ∨ s.Meets g d := by
  induction h with
  | refl => exact fun d hd => .inl hd
  | advance _ ih => exact ih
  | record _ hu hcause ih _ =>
    intro d hd
    rcases Array.mem_push.1 hd with hd | rfl
    · exact ih d hd
    · exact .inr ⟨_, hu, hcause⟩

end ReachesBy

end State

/-! ## Founded parsers -/

namespace Parse

variable {g : Grammar} {α β : Type} {s : State}

/-- From `s`, what `p` records and what it fails with has a cause. -/
def FoundedAt (g : Grammar) (p : Parse α) (s : State) : Prop :=
  match p s with
  | .done _ t => s.ReachesBy g t
  | .failed d t => s.ReachesBy g t ∧ s.Meets g d
  | .starved => True

class Founded (g : Grammar) (p : Parse α) : Prop where
  apply (s : State) : FoundedAt g p s

theorem foundedAt_iff {p : Parse α} : FoundedAt g p s ↔
    p.Ensures (fun _ t => s.ReachesBy g t) (fun d t => s.ReachesBy g t ∧ s.Meets g d) s := Iff.rfl

namespace FoundedAt

theorem bind {p : Parse α} {f : α → Parse β} (hp : FoundedAt g p s)
    (hf : ∀ a t, FoundedAt g (f a) t) : FoundedAt g (p >>= f) s := by
  refine foundedAt_iff.2 (Ensures.bind (foundedAt_iff.1 hp) fun a t ht => ?_)
  exact (foundedAt_iff.1 (hf a t)).mono (fun _ _ hu => ht.trans hu)
    fun _ _ hu => ⟨ht.trans hu.1, ht.meets hu.2⟩

theorem current_bind {f : Token → Parse β} (h : FoundedAt g (f s.current) s) :
    FoundedAt g (current >>= f) s := h

/-- To fail where the state gives cause for it. -/
theorem fail {d : Diagnostic} (h : s.Causes g d) : FoundedAt g (Parse.fail d : Parse α) s :=
  ⟨.refl, s, .refl, h⟩

end FoundedAt

instance (a : α) : (pure a : Parse α).Founded g := ⟨fun _ => .refl⟩

instance : current.Founded g := ⟨fun _ => .refl⟩

instance : ahead.Founded g := ⟨fun _ => .refl⟩

instance : advance.Founded g := ⟨fun _ => .advance .refl⟩

instance (kind : Kind) : (expect kind).Founded g where
  apply s := by
    by_cases hk : s.peek.kind = kind
    · simp only [FoundedAt, expect, if_pos hk]
      exact .advance .refl
    · simp only [FoundedAt, expect, if_neg hk]
      exact ⟨.refl, s, .refl, .unexpected hk⟩

instance (p : Parse α) (f : α → Parse β) [hp : p.Founded g] [hf : ∀ a, (f a).Founded g] :
    (p >>= f).Founded g := ⟨fun s => (hp.apply s).bind fun a t => (hf a).apply t⟩

instance (c : Prop) [Decidable c] (p q : Parse α) [p.Founded g] [q.Founded g] :
    (if c then p else q).Founded g := by
  split <;> infer_instance

instance (kind : Kind) : (need kind).Founded g :=
  inferInstanceAs ((expect kind >>= fun _ => pure ()).Founded g)

/-- A failure that is recorded has a cause. -/
instance (p : Parse α) [hp : p.Founded g] : (recover p).Founded g where
  apply s := by
    refine foundedAt_iff.2 (.recover ((foundedAt_iff.1 (hp.apply s)).mono (fun _ _ ht => ht) ?_))
    rintro d t ⟨ht, u, hu, hcause⟩
    exact ht.record hu hcause

end Parse

/-! ## The rules -/

section

open Parse

variable {g : Grammar}

instance : parseName.Founded g := by unfold parseName; infer_instance

instance : skipSemicolon.Founded g := by unfold skipSemicolon; infer_instance

variable (self : Parses) [∀ {α : Type} (goal : Goal α), (self goal).Founded g]

instance (min : Power) : (parseSlot self min).Founded g := by unfold parseSlot; infer_instance

instance (closing : Kind) : (parseList self closing).Founded g := by
  unfold parseList; infer_instance

instance : (parseParameters self).Founded g := by unfold parseParameters; infer_instance

instance : (parseBlock self).Founded g := by unfold parseBlock; infer_instance

instance : (parseElse self).Founded g := by unfold parseElse; infer_instance

set_option synthInstance.maxSize 1024 in
/-- A number is refused only where the grammar asks for one. -/
theorem HeadRule.founded {s : State} {rule : HeadRule} (h : g.heads s.current.kind = some rule) :
    FoundedAt g (rule.parse self) s := by
  cases rule <;> simp only [HeadRule.parse]
  case integer =>
    refine .current_bind ?_
    split
    · exact Founded.apply s
    · rename_i hnone
      exact .fail (.badInteger h hnone)
  case float =>
    refine .current_bind ?_
    split
    · exact Founded.apply s
    · rename_i hnone
      exact .fail (.badFloat h hnone)
  all_goals exact Founded.apply s

instance (left : Expr) (power : Power) (rule : TailRule) :
    (rule.parse self left power).Founded g := by
  cases rule <;> simp only [TailRule.parse] <;> infer_instance

instance (rule : StmtRule) : (rule.parse self).Founded g := by
  cases rule <;> simp only [StmtRule.parse] <;> infer_instance

set_option synthInstance.maxSize 1024 in
instance {α : Type} (goal : Goal α) : (g.layer self goal).Founded g := by
  cases goal <;> simp only [Grammar.layer]
  case expr min =>
    refine ⟨fun s => .current_bind ?_⟩
    split
    · rename_i hnone
      exact .fail (.noExpression hnone)
    · rename_i rule hrule
      exact (HeadRule.founded self hrule).bind fun left t => Founded.apply t
  case climb min left =>
    refine ⟨fun s => FoundedAt.bind (Founded.apply s) fun kind t => ?_⟩
    split <;> exact Founded.apply t
  all_goals infer_instance

end

theorem Grammar.run_founded (g : Grammar) (budget : Nat) {α : Type} (goal : Goal α) :
    (g.run budget goal).Founded g := by
  induction budget generalizing α with
  | zero => exact ⟨fun _ => trivial⟩
  | succ budget ih => exact inferInstanceAs ((g.layer (g.run budget) goal).Founded g)

/-- What a run records has a cause in a state on its way. -/
theorem Grammar.run_meets {g : Grammar} {budget : Nat} {α : Type} {goal : Goal α} {s t : State}
    {a : α} (h : g.run budget goal s = .done a t) :
    ∀ d ∈ t.diagnostics, d ∈ s.diagnostics ∨ s.Meets g d :=
  ((Parse.foundedAt_iff.1 ((g.run_founded budget goal).apply s)).done h).diagnostics

/-! ## Diagnostics of a program -/

/-- What a fault says of a token holds of `t`, in the standard grammar. -/
def Fault.Describes (t : Token) : Fault → Prop
  | unexpected expected found => found = t.kind ∧ found ≠ expected
  | noExpression kind text => kind = t.kind ∧ text = t.text ∧ Grammar.standard.heads t.kind = none
  | badInteger text => t.kind = .int ∧ text = t.text ∧ Literal.integer? text = none
  | badFloat text => t.kind = .float ∧ text = t.text ∧ Literal.decimal? text = none

/-- A diagnostic describes the token that it points at. -/
def Diagnostic.Describes (d : Diagnostic) (t : Token) : Prop :=
  d.position = t.position ∧ d.fault.Describes t

/-- A cause is one of the two tokens that a state shows. -/
theorem State.Causes.describes {s : State} {d : Diagnostic} (h : s.Causes .standard d) :
    d.Describes s.current ∨ d.Describes s.peek := by
  cases h with
  | unexpected hk => exact .inr ⟨rfl, rfl, hk⟩
  | noExpression hnone => exact .inl ⟨rfl, rfl, rfl, hnone⟩
  | badInteger hrule hnone =>
    have hkind := Grammar.standard_heads.1 hrule
    exact .inl ⟨rfl, List.mem_singleton.1 hkind, rfl, hnone⟩
  | badFloat hrule hnone =>
    have hkind := Grammar.standard_heads.1 hrule
    exact .inl ⟨rfl, List.mem_singleton.1 hkind, rfl, hnone⟩

/-- What the states on the way of a new parser give cause for describes a token of the stream. -/
theorem State.Meets.describes {lx : Lexer} {d : Diagnostic} (h : (ofLexer lx).Meets .standard d) :
    ∃ i, d.Describes (lx.stream i) := by
  obtain ⟨u, hu, hcause⟩ := h
  obtain ⟨k, -, hat⟩ := (at_ofLexer lx).reaches hu.reaches
  rcases hcause.describes with hcurrent | hpeek
  · exact ⟨k, hat.current ▸ hcurrent⟩
  · exact ⟨k + 1, hat.peek ▸ hpeek⟩

/-- Whatever a source holds and whatever character ends it, each diagnostic of its program stands
where a token starts and describes that token: one of the lexer's, or an end behind them. -/
theorem Parser.program_diagnostics_describe (file source : String) (c : Char) :
    ∃ program p,
      (ofLexer ((Lexer.ofString file source).endingWith c)).program = some (.ok program, p) ∧
      ∀ d ∈ p.diagnostics, ∃ t, d.Describes t ∧
        (t ∈ ((Lexer.ofString file source).endingWith c).tokens ∨
          t = .atEnd file source.utf8ByteSize) := by
  let lx := (Lexer.ofString file source).endingWith c
  obtain ⟨program, s, hprogram, hrun⟩ := (Parser.ofLexer lx).program_ok Grammar.standard_grounded
  have hreaches : (State.ofLexer lx).ReachesBy .standard s := by
    have hfounded := (Grammar.run_founded .standard (Parser.ofLexer lx).budget
      (.stmts .script)).apply (State.ofLexer lx)
    unfold Parse.FoundedAt at hfounded
    rwa [show Grammar.run .standard _ _ (State.ofLexer lx) = _ from hrun] at hfounded
  refine ⟨program, _, hprogram, fun d hd => ?_⟩
  rcases hreaches.diagnostics d (Array.mem_toList_iff.1 hd) with hd | hmeets
  · -- A new parser has recorded nothing.
    simp [State.ofLexer] at hd
  · obtain ⟨i, hdescribes⟩ := hmeets.describes
    refine ⟨lx.stream i, hdescribes, ?_⟩
    have hlimit : lx.limit = source.utf8ByteSize := Lexer.limit_endingWith file source c
    have hfile : lx.file = file := rfl
    have hmem := lx.stream_mem i
    rwa [hlimit, hfile] at hmem

end ScriptFront
