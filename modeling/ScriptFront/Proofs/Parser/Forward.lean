import ScriptFront.Parser.Basic
import ScriptFront.Proofs.Parser.Cursor

/-!
# Parsing only moves forward

`s.Reaches t`: from `s` one gets to `t` by moving on and by recording diagnostics. A parser is
`Forward` if it stops, whether it succeeds or fails, in a state that it reached. Every rule is, if
its parts are, so every run of a grammar is: what moving on and recording keep, all parsing keeps.
-/

namespace ScriptFront

inductive State.Reaches (s : State) : State → Prop where
  | refl : Reaches s s
  | advance {t : State} : Reaches s t → Reaches s t.advance
  | record {t : State} (d : Diagnostic) : Reaches s t → Reaches s (t.record d)

namespace State.Reaches

variable {s t u : State}

theorem trans (h : s.Reaches t) (h' : t.Reaches u) : s.Reaches u := by
  induction h' with
  | refl => exact h
  | advance _ ih => exact ih.advance
  | record d _ ih => exact ih.record d

theorem diagnostics (h : s.Reaches t) : s.diagnostics.toList <+: t.diagnostics.toList := by
  induction h with
  | refl => exact List.prefix_refl _
  | advance _ ih => exact ih
  | record d _ ih =>
    refine ih.trans ?_
    simp only [State.record, Array.toList_push]
    exact List.prefix_append _ _

theorem leftAhead_le (h : s.Reaches t) : t.leftAhead ≤ s.leftAhead := by
  induction h with
  | refl => exact Nat.le_refl _
  | advance _ ih => exact Nat.le_trans (State.leftAhead_advance_le _) ih
  | record d _ ih => exact ih

end State.Reaches

namespace Parse

variable {α β : Type}

class Forward (p : Parse α) : Prop where
  done {s t : State} {a : α} : p s = .done a t → s.Reaches t
  failed {s t : State} {d : Diagnostic} : p s = .failed d t → s.Reaches t

/-- A parser that leaves the state alone. -/
theorem Forward.of_still {p : Parse α}
    (h : ∀ s, (∃ a, p s = .done a s) ∨ (∃ d, p s = .failed d s)) : p.Forward where
  done {s t a} e := by
    rcases h s with ⟨b, hb⟩ | ⟨d, hd⟩
    · rw [hb] at e; cases e; exact .refl
    · rw [hd] at e; cases e
  failed {s t d} e := by
    rcases h s with ⟨b, hb⟩ | ⟨d, hd⟩
    · rw [hb] at e; cases e
    · rw [hd] at e; cases e; exact .refl

instance (a : α) : (pure a : Parse α).Forward := .of_still fun _ => .inl ⟨a, rfl⟩

instance (d : Diagnostic) : (fail d : Parse α).Forward := .of_still fun _ => .inr ⟨d, rfl⟩

instance : current.Forward := .of_still fun s => .inl ⟨s.current, rfl⟩

instance : ahead.Forward := .of_still fun s => .inl ⟨s.peek.kind, rfl⟩

instance : (starve : Parse α).Forward where
  done h := by cases h
  failed h := by cases h

instance : advance.Forward where
  done h := by cases h; exact .advance .refl
  failed h := by cases h

instance (kind : Kind) : (expect kind).Forward where
  done {s t a} h := by
    unfold expect at h
    split at h
    · cases h; exact .advance .refl
    · cases h
  failed {s t d} h := by
    unfold expect at h
    split at h
    · cases h
    · cases h; exact .refl

theorem Forward.bind {p : Parse α} {f : α → Parse β} (_ : p.Forward) (_ : ∀ a, (f a).Forward) :
    (p >>= f).Forward where
  done {s t b} h := by
    simp only [Bind.bind] at h
    split at h
    · rename_i a u hp
      exact (Forward.done hp).trans (Forward.done h)
    · cases h
    · cases h
  failed {s t d} h := by
    simp only [Bind.bind] at h
    split at h
    · rename_i a u hp
      exact (Forward.done hp).trans (Forward.failed h)
    · rename_i e u hp
      cases h
      exact Forward.failed hp
    · cases h

instance (p : Parse α) (f : α → Parse β) [hp : p.Forward] [hf : ∀ a, (f a).Forward] :
    (p >>= f).Forward := hp.bind hf

instance (f : α → β) (p : Parse α) [p.Forward] : (f <$> p).Forward :=
  inferInstanceAs (p >>= fun a => pure (f a)).Forward

instance (c : Prop) [Decidable c] (p q : Parse α) [p.Forward] [q.Forward] :
    (if c then p else q).Forward := by
  split <;> infer_instance

instance (kind : Kind) : (need kind).Forward :=
  inferInstanceAs (expect kind >>= fun _ => pure ()).Forward

instance (p : Parse α) [p.Forward] : (recover p).Forward where
  done {s t o} h := by
    unfold recover at h
    split at h
    · rename_i a u hp
      cases h
      exact Forward.done hp
    · rename_i d u hp
      cases h
      exact (Forward.failed hp).record d
    · cases h
  failed {s t d} h := by
    unfold recover at h
    split at h <;> cases h

end Parse

/-! ## The rules -/

section

open Parse

instance : parseName.Forward := by unfold parseName; infer_instance

instance : skipSemicolon.Forward := by unfold skipSemicolon; infer_instance

variable (self : Parses) [∀ {α : Type} (goal : Goal α), (self goal).Forward]

instance (min : Power) : (parseSlot self min).Forward := by unfold parseSlot; infer_instance

instance (closing : Kind) : (parseList self closing).Forward := by
  unfold parseList; infer_instance

instance : (parseParameters self).Forward := by unfold parseParameters; infer_instance

instance : (parseBlock self).Forward := by unfold parseBlock; infer_instance

instance : (parseElse self).Forward := by unfold parseElse; infer_instance

set_option synthInstance.maxSize 1024 in
instance (rule : HeadRule) : (rule.parse self).Forward := by
  cases rule <;> simp only [HeadRule.parse]
  case integer | float =>
    refine Forward.bind inferInstance fun token => ?_
    split <;> infer_instance
  all_goals infer_instance

instance (left : Expr) (power : Power) (rule : TailRule) :
    (rule.parse self left power).Forward := by
  cases rule <;> simp only [TailRule.parse] <;> infer_instance

instance (rule : StmtRule) : (rule.parse self).Forward := by
  cases rule <;> simp only [StmtRule.parse] <;> infer_instance

set_option synthInstance.maxSize 1024 in
instance (g : Grammar) {α : Type} (goal : Goal α) : (g.layer self goal).Forward := by
  cases goal <;> simp only [Grammar.layer]
  case expr min =>
    refine Forward.bind inferInstance fun token => ?_
    split <;> infer_instance
  case climb min left =>
    refine Forward.bind inferInstance fun kind => ?_
    split <;> infer_instance
  all_goals infer_instance

end

instance (g : Grammar) (budget : Nat) {α : Type} (goal : Goal α) :
    (g.run budget goal).Forward := by
  induction budget generalizing α with
  | zero => exact inferInstanceAs (Parse.starve).Forward
  | succ budget ih => exact inferInstanceAs (g.layer (g.run budget) goal).Forward

end ScriptFront
