import ScriptFront.Proofs.Parser.Forward

/-!
# Parsing without a diagnostic

`p.Clean s a t`: from `s` the parser gives `a`, stops at `t`, and has recorded nothing. What a
composite parser does cleanly its parts do cleanly, one behind the other, since none of them takes a
diagnostic back.
-/

namespace ScriptFront

namespace Parse

def Clean {α : Type} (p : Parse α) (s : State) (a : α) (t : State) : Prop :=
  p s = .done a t ∧ t.diagnostics = s.diagnostics

variable {α β : Type} {p : Parse α} {f : α → Parse β} {s t u : State} {b : β}

/-- Nothing is recorded on the way if nothing is at its end. -/
theorem diagnostics_eq_of_reaches (h : s.Reaches t) (h' : t.Reaches u)
    (heq : u.diagnostics = s.diagnostics) :
    t.diagnostics = s.diagnostics ∧ u.diagnostics = t.diagnostics := by
  have hle := h'.diagnostics
  rw [heq] at hle
  have heq' : t.diagnostics = s.diagnostics :=
    Array.toList_inj.1 (hle.eq_of_length_le h.diagnostics.length_le)
  exact ⟨heq', heq.trans heq'.symm⟩

@[simp] theorem clean_pure {a b : α} : (pure a : Parse α).Clean s b t ↔ b = a ∧ s = t := by
  constructor
  · rintro ⟨h, -⟩
    cases h
    exact ⟨rfl, rfl⟩
  · rintro ⟨rfl, rfl⟩
    exact ⟨rfl, rfl⟩

@[simp] theorem clean_fail {d : Diagnostic} {a : α} : ¬ (fail d : Parse α).Clean s a t := by
  rintro ⟨h, -⟩
  cases h

@[simp low] theorem clean_bind [p.Forward] [∀ a, (f a).Forward] :
    (p >>= f).Clean s b u ↔ ∃ a t, p.Clean s a t ∧ (f a).Clean t b u := by
  constructor
  · rintro ⟨h, heq⟩
    cases hp : p s with
    | done a t =>
      rw [bind_done hp] at h
      obtain ⟨h1, h2⟩ := diagnostics_eq_of_reaches (Forward.done hp) (Forward.done h) heq
      exact ⟨a, t, ⟨hp, h1⟩, h, h2⟩
    | failed d t => rw [bind_failed hp] at h; cases h
    | starved => rw [bind_starved hp] at h; cases h
  · rintro ⟨a, t, ⟨hp, h1⟩, h, h2⟩
    exact ⟨by rw [bind_done hp, h], h2.trans h1⟩

/-- A slot that records nothing is filled. -/
@[simp] theorem clean_recover_bind {f : Option α → Parse β} [p.Forward] [∀ o, (f o).Forward] :
    (recover p >>= f).Clean s b u ↔ ∃ a t, p.Clean s a t ∧ (f (some a)).Clean t b u := by
  rw [clean_bind]
  constructor
  · rintro ⟨o, t, ⟨h, heq⟩, hf⟩
    unfold recover at h
    split at h
    · rename_i a v hp
      cases h
      exact ⟨a, t, ⟨hp, heq⟩, hf⟩
    · rename_i d v hp
      cases h
      have := (Forward.failed hp).diagnostics.length_le
      simp only [State.record] at heq
      simp only [← heq, Array.toList_push, List.length_append, List.length_singleton] at this
      omega
    · cases h
  · rintro ⟨a, t, ⟨hp, heq⟩, hf⟩
    exact ⟨some a, t, ⟨by simp only [recover, hp], heq⟩, hf⟩

@[simp] theorem clean_current_bind {f : Token → Parse β} :
    (current >>= f).Clean s b u ↔ (f s.current).Clean s b u := Iff.rfl

@[simp] theorem clean_ahead_bind {f : Kind → Parse β} :
    (ahead >>= f).Clean s b u ↔ (f s.peek.kind).Clean s b u := Iff.rfl

@[simp] theorem clean_advance_bind {f : Unit → Parse β} :
    (advance >>= f).Clean s b u ↔ (f ()).Clean s.advance b u := Iff.rfl

@[simp] theorem clean_expect_bind {f : Token → Parse β} {kind : Kind} :
    (expect kind >>= f).Clean s b u ↔ s.peek.kind = kind ∧ (f s.peek).Clean s.advance b u := by
  by_cases hk : s.peek.kind = kind
  · have hp : expect kind s = .done s.peek s.advance := if_pos hk
    unfold Clean
    rw [bind_done hp]
    simp [hk]
  · have hp : expect kind s = .failed ⟨.unexpected kind s.peek.kind, s.peek.position⟩ s := if_neg hk
    unfold Clean
    rw [bind_failed hp]
    simp [hk]

@[simp] theorem clean_need_bind {f : Unit → Parse β} {kind : Kind} :
    (need kind >>= f).Clean s b u ↔ s.peek.kind = kind ∧ (f ()).Clean s.advance b u := by
  unfold need
  simp only [bind_assoc, pure_bind]
  exact clean_expect_bind

@[simp] theorem clean_name_bind {f : Ident → Parse β} :
    (parseName >>= f).Clean s b u ↔
      s.peek.kind = .identifier ∧ (f ⟨s.peek, s.peek.text⟩).Clean s.advance b u := by
  unfold parseName
  simp only [bind_assoc, pure_bind]
  exact clean_expect_bind

@[simp] theorem clean_semicolon_bind {f : Unit → Parse β} :
    (skipSemicolon >>= f).Clean s b u ↔
      (f ()).Clean (if s.peek.kind = .semicolon then s.advance else s) b u := by
  unfold skipSemicolon
  simp only [bind_assoc]
  rw [clean_ahead_bind]
  split
  · exact clean_advance_bind
  · rw [pure_bind]

end Parse

/-- What is parsed cleanly within the budget is what the parser answers. -/
theorem Parser.attempt_of_clean {p : Parser} {α : Type} {rule : Parses → Parse α} {a : α}
    {t : State} (h : (rule (p.grammar.run p.budget)).Clean p.state a t) :
    p.attempt rule = some (.ok a, { p with state := t }) := by
  simp only [attempt, h.1]

end ScriptFront
