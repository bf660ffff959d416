import ScriptFront.Parser.Rules

/-!
# What a parser ensures

`p.Ensures Q E s`: started in `s`, the parser gives a value and a state with `Q`, or fails with a
diagnostic and a state with `E`. Nothing is said of a parser that starves. There is a rule for each
way in which parsers are put together; a failure that is recorded goes on with what `E` says of it.
-/

namespace ScriptFront

namespace Parse

variable {α β : Type}

def Ensures (p : Parse α) (Q : α → State → Prop) (E : Diagnostic → State → Prop) (s : State) :
    Prop :=
  match p s with
  | .done a t => Q a t
  | .failed d t => E d t
  | .starved => True

namespace Ensures

variable {p : Parse α} {Q R : α → State → Prop} {E F : Diagnostic → State → Prop} {s : State}

theorem done {a : α} {t : State} (h : p.Ensures Q E s) (hp : p s = .done a t) : Q a t := by
  simpa only [Ensures, hp] using h

theorem mono (h : p.Ensures R F s) (hdone : ∀ a t, R a t → Q a t)
    (hfailed : ∀ d t, F d t → E d t) : p.Ensures Q E s := by
  unfold Ensures at h ⊢
  split at h
  · exact hdone _ _ h
  · exact hfailed _ _ h
  · trivial

theorem starve : (Parse.starve : Parse α).Ensures Q E s := trivial

theorem pure {a : α} (h : Q a s) : (Pure.pure a : Parse α).Ensures Q E s := h

theorem fail {d : Diagnostic} (h : E d s) : (Parse.fail d : Parse α).Ensures Q E s := h

variable {f : α → Parse β} {Q' : β → State → Prop}

theorem bind (hp : p.Ensures R E s) (hf : ∀ a t, R a t → (f a).Ensures Q' E t) :
    (p >>= f).Ensures Q' E s := by
  unfold Ensures at hp
  cases h : p s with
  | done a t =>
    simp only [h] at hp
    have hrest := hf a t hp
    unfold Ensures at hrest ⊢
    rwa [bind_done h]
  | failed d t =>
    simp only [h] at hp
    unfold Ensures
    rwa [bind_failed h]
  | starved =>
    unfold Ensures
    rw [bind_starved h]
    trivial

/-- What is ensured of a value and of a state is taken apart. -/
theorem bind_and {A : α → Prop} {S : State → Prop} (hp : p.Ensures (fun a t => A a ∧ S t) E s)
    (hf : ∀ a t, A a → S t → (f a).Ensures Q' E t) : (p >>= f).Ensures Q' E s :=
  hp.bind fun a t h => hf a t h.1 h.2

theorem current_bind {f : Token → Parse β} (h : (f s.current).Ensures Q' E s) :
    (current >>= f).Ensures Q' E s := h

theorem ahead_bind {f : Kind → Parse β} (h : (f s.peek.kind).Ensures Q' E s) :
    (ahead >>= f).Ensures Q' E s := h

theorem advance_bind {f : Unit → Parse β} (h : (f ()).Ensures Q' E s.advance) :
    (advance >>= f).Ensures Q' E s := h

theorem expect_bind {kind : Kind} {f : Token → Parse β}
    (hfound : s.peek.kind = kind → (f s.peek).Ensures Q' E s.advance)
    (hother : s.peek.kind ≠ kind → E ⟨.unexpected kind s.peek.kind, s.peek.position⟩ s) :
    (expect kind >>= f).Ensures Q' E s := by
  by_cases hk : s.peek.kind = kind
  · have hexpect : expect kind s = .done s.peek s.advance := if_pos hk
    unfold Ensures
    rw [bind_done hexpect]
    exact hfound hk
  · have hexpect : expect kind s = .failed ⟨.unexpected kind s.peek.kind, s.peek.position⟩ s :=
      if_neg hk
    unfold Ensures
    rw [bind_failed hexpect]
    exact hother hk

theorem need_bind {kind : Kind} {f : Unit → Parse β}
    (hfound : s.peek.kind = kind → (f ()).Ensures Q' E s.advance)
    (hother : s.peek.kind ≠ kind → E ⟨.unexpected kind s.peek.kind, s.peek.position⟩ s) :
    (need kind >>= f).Ensures Q' E s := by
  unfold need
  simp only [bind_assoc, pure_bind]
  exact expect_bind hfound hother

theorem name_bind {f : Ident → Parse β}
    (hfound : s.peek.kind = .identifier → (f ⟨s.peek, s.peek.text⟩).Ensures Q' E s.advance)
    (hother : s.peek.kind ≠ .identifier →
      E ⟨.unexpected .identifier s.peek.kind, s.peek.position⟩ s) :
    (parseName >>= f).Ensures Q' E s := by
  unfold parseName
  simp only [bind_assoc, pure_bind]
  exact expect_bind hfound hother

theorem semicolon_bind {f : Unit → Parse β}
    (hfound : s.peek.kind = .semicolon → (f ()).Ensures Q' E s.advance)
    (hother : s.peek.kind ≠ .semicolon → (f ()).Ensures Q' E s) :
    (skipSemicolon >>= f).Ensures Q' E s := by
  unfold skipSemicolon
  rw [bind_assoc]
  refine ahead_bind ?_
  split
  · exact advance_bind (hfound ‹_›)
  · exact hother ‹_›

/-- A failure that is recorded is a value that is not there. -/
theorem recover {Q : Option α → State → Prop}
    (h : p.Ensures (fun a t => Q (some a) t) (fun d t => Q none (t.record d)) s) :
    (recover p).Ensures Q E s := by
  unfold Ensures Parse.recover at *
  cases hp : p s with
  | done a t => simpa only [hp] using h
  | failed d t => simpa only [hp] using h
  | starved => trivial

end Ensures

end Parse

end ScriptFront
