import Mathlib.Order.Monotone.Basic
import ScriptFront.Proofs.Parser.Budget
import ScriptFront.Proofs.Token.Tiling

/-!
# Where a parser stands in its stream

`lx.stream` is what the lexer `lx` gives when it is asked again and again: its tokens, then ends for
ever. A state is `At lx k` if it shows the tokens `k` and `k + 1` of that stream and its lexer is
`lx` after it was asked for these and all before. Moving on keeps that and nothing else touches it,
so it holds of a parser whatever it is made to parse and whichever rules it is given on the way
(`Parser.Reached`).
-/

namespace ScriptFront

open Text

/-! ## Streams -/

namespace Lexer

/-- The offset at which the source ends. -/
def limit (lx : Lexer) : Nat := lx.offset + width lx.rest

/-- The `i`-th token that the lexer gives, counted from zero. -/
def stream (lx : Lexer) (i : Nat) : Token := lx.tokens[i]?.getD (.atEnd lx.file lx.limit)

/-- A stream has the tokens of its lexer, and ends behind them. -/
theorem stream_mem (lx : Lexer) (i : Nat) :
    lx.stream i ∈ lx.tokens ∨ lx.stream i = .atEnd lx.file lx.limit := by
  unfold stream
  cases h : lx.tokens[i]? with
  | none => exact .inr rfl
  | some t => exact .inl (List.mem_of_getElem? h)

theorem limit_endingWith (file source : String) (c : Char) :
    ((ofString file source).endingWith c).limit = source.utf8ByteSize := by
  show 0 + width source.toList = _
  rw [width_toList, Nat.zero_add]

theorem limit_ofString (file source : String) :
    (ofString file source).limit = source.utf8ByteSize := limit_endingWith file source '\x00'

theorem limit_tape (lx : Lexer) : lx.limit = lx.tape.limit := by
  rw [limit, ← pending_dropLast]
  rfl

theorem limit_next (lx : Lexer) : lx.next.2.limit = lx.limit := by
  rw [limit_tape, lx.next_tape.2, Tape.limit_next, limit_tape]

theorem limit_of_exhausted {lx : Lexer} (h : lx.cursor = .exhausted) : lx.limit = lx.offset := by
  rw [limit, rest_of_ne_input (by simp [h])]
  rfl

theorem nextOrEnd_next (lx : Lexer) : lx.nextOrEnd.2 = lx.next.2 := by
  unfold nextOrEnd
  split <;> simp_all

theorem stream_zero (lx : Lexer) : lx.stream 0 = lx.nextOrEnd.1 := by
  unfold nextOrEnd
  cases h : lx.next with
  | mk first after =>
    cases first with
    | some t => simp [stream, tokens_of_some h]
    | none =>
      have hfile : after.file = lx.file := by rw [← lx.next_file, h]
      have hlimit : after.limit = lx.limit := by rw [← lx.limit_next, h]
      have hoffset : after.offset = lx.limit := by
        rw [← hlimit, limit_of_exhausted (exhausted_of_none h)]
      simp [stream, tokens_of_none h, hfile, hoffset]

theorem stream_succ (lx : Lexer) (i : Nat) : lx.stream (i + 1) = lx.nextOrEnd.2.stream i := by
  have hfile := lx.next_file
  have hlimit := lx.limit_next
  unfold nextOrEnd
  cases h : lx.next with
  | mk first after =>
    rw [h] at hfile hlimit
    simp only at hfile hlimit
    cases first with
    | some t => simp [stream, tokens_of_some h, hfile, hlimit]
    | none =>
      have hafter : after.tokens = [] :=
        tokens_of_none (next_of_exhausted (exhausted_of_none h))
      simp [stream, tokens_of_none h, hafter, hfile, hlimit]

theorem after_succ (lx : Lexer) (n : Nat) : lx.after (n + 1) = lx.nextOrEnd.2.after n := by
  unfold after nextOrEnd
  cases h : lx.next with
  | mk first after =>
    cases first with
    | some t => simp only [take, h]
    | none => simp only [take, h, take_of_exhausted (exhausted_of_none h)]

/-- Asked once more, the lexer gives the next token of its stream. -/
theorem nextOrEnd_after (lx : Lexer) (n : Nat) :
    (lx.after n).nextOrEnd = (lx.stream n, lx.after (n + 1)) := by
  induction n generalizing lx with
  | zero => rw [stream_zero, after_succ]; rfl
  | succ n ih => rw [after_succ, ih, ← stream_succ, ← after_succ]

/-- A token spans what is read for it, and an end nothing. -/
theorem nextOrEnd_span (lx : Lexer) :
    lx.nextOrEnd.1.span = .between lx.skipBlank.offset lx.nextOrEnd.2.offset lx.file := by
  have hskip : lx.skipBlank.offset = lx.tape.skipBlank.offset :=
    congrArg Tape.offset lx.skipBlank_tape
  have hfile := lx.next_file
  rw [hskip]
  unfold nextOrEnd
  cases h : lx.next with
  | mk first after =>
    rw [h] at hfile
    cases first with
    | some t => exact Tape.next_span (tape_next h)
    | none =>
      have hafter : after.offset = lx.tape.skipBlank.offset :=
        congrArg Tape.offset (Tape.next_none (tape_next h)).2
      rw [← hafter, ← hfile]
      rfl

theorem after_file (lx : Lexer) (n : Nat) : (lx.after n).file = lx.file := by
  induction n generalizing lx with
  | zero => rfl
  | succ n ih => rw [after_succ, ih, nextOrEnd_next, next_file]

theorem stream_span (lx : Lexer) (i : Nat) :
    (lx.stream i).span = .between (lx.startOf i) (lx.stopOf i) lx.file := by
  have hspan := (lx.after i).nextOrEnd_span
  rwa [nextOrEnd_after, after_file] at hspan

/-! ## Places in order -/

theorem after_succ_next (lx : Lexer) (n : Nat) : lx.after (n + 1) = (lx.after n).next.2 := by
  rw [← nextOrEnd_next, nextOrEnd_after]

theorem startOf_le_stopOf (lx : Lexer) (i : Nat) : lx.startOf i ≤ lx.stopOf i := by
  have hskip := congrArg Tape.offset (lx.after i).skipBlank_tape
  have hnext := congrArg Tape.offset (lx.after i).next_tape.2
  rw [← after_succ_next] at hnext
  show (lx.after i).skipBlank.tape.offset ≤ (lx.after (i + 1)).tape.offset
  rw [hskip, hnext]
  exact Tape.skipBlank_offset_le_next _

theorem stopOf_le_startOf_succ (lx : Lexer) (i : Nat) : lx.stopOf i ≤ lx.startOf (i + 1) := by
  rw [stopOf_tape, startOf_tape]
  exact Tape.offset_le_skipBlank _

theorem startOf_mono (lx : Lexer) : Monotone lx.startOf :=
  monotone_nat_of_le_succ fun i =>
    Nat.le_trans (lx.startOf_le_stopOf i) (lx.stopOf_le_startOf_succ i)

theorem limit_after (lx : Lexer) (n : Nat) : (lx.after n).limit = lx.limit := by
  induction n with
  | zero => rfl
  | succ n ih => rw [after_succ_next, limit_next, ih]

theorem stopOf_le_limit (lx : Lexer) (i : Nat) : lx.stopOf i ≤ lx.limit := by
  rw [← lx.limit_after (i + 1)]
  exact Nat.le_add_right ..

end Lexer

/-! ## States -/

namespace State

/-- The state shows the tokens `k` and `k + 1` of what `lx` gives. -/
structure At (lx : Lexer) (k : Nat) (s : State) : Prop where
  current : s.current = lx.stream k
  peek : s.peek = lx.stream (k + 1)
  lexer : s.lexer = lx.after (k + 2)

theorem at_ofLexer (lx : Lexer) : At lx 0 (ofLexer lx) where
  current := lx.stream_zero.symm
  peek := by rw [lx.stream_succ, Lexer.stream_zero]; rfl
  lexer := by rw [lx.after_succ, Lexer.after_succ]; rfl

variable {lx : Lexer} {k : Nat} {s t : State}

theorem At.advance (h : At lx k s) : At lx (k + 1) s.advance where
  current := h.peek
  peek := by rw [State.advance, h.lexer, Lexer.nextOrEnd_after]
  lexer := by rw [State.advance, h.lexer, Lexer.nextOrEnd_after]

theorem At.reaches (h : At lx k s) (hst : s.Reaches t) : ∃ k', k ≤ k' ∧ At lx k' t := by
  induction hst with
  | refl => exact ⟨k, Nat.le_refl k, h⟩
  | advance _ ih =>
    obtain ⟨k', hle, hat⟩ := ih
    exact ⟨k' + 1, Nat.le_succ_of_le hle, hat.advance⟩
  | record d _ ih =>
    obtain ⟨k', hle, hat⟩ := ih
    exact ⟨k', hle, hat.current, hat.peek, hat.lexer⟩

theorem At.token (h : At lx k s) (i : Nat) : s.token i = lx.stream (k + i) := by
  induction i generalizing s k with
  | zero => exact h.current
  | succ i ih => rw [State.token, ih h.advance, Nat.add_right_comm, Nat.add_assoc]

/-- A parser that starts shows the stream of its lexer. -/
theorem token_ofLexer (lx : Lexer) (i : Nat) : (ofLexer lx).token i = lx.stream i := by
  rw [(at_ofLexer lx).token, Nat.zero_add]

end State

/-! ## What can be done with a parser -/

instance (self : Parses) [∀ {α : Type} (goal : Goal α), (self goal).Forward] {α : Type}
    (c : Call α) : (c.parse self).Forward := by
  cases c <;> simp only [Call.parse] <;> infer_instance

namespace Parser

/-- The parser is made to move on, to record a diagnostic, or to parse something and does so, with
success or without. -/
inductive Works (p : Parser) : Parser → Prop where
  | advance : Works p p.advance
  | record (d : Diagnostic) : Works p (p.record d)
  | expect {kind : Kind} {r : Except Diagnostic Token} {q : Parser} :
      p.expect kind = some (r, q) → Works p q
  | call {α : Type} (c : Call α) {r : Except Diagnostic α} {q : Parser} :
      p.call c = some (r, q) → Works p q

/-- The parser is given a rule, or the rules of the standard grammar. -/
inductive Registers (p : Parser) : Parser → Prop where
  | stmt (kind : Kind) (rule : StmtRule) :
      Registers p { p with grammar := p.grammar.withStmt kind rule }
  | head (kind : Kind) (rule : HeadRule) :
      Registers p { p with grammar := p.grammar.withHead kind rule }
  | tail (kind : Kind) (power : Power) (rule : TailRule) :
      Registers p { p with grammar := p.grammar.withTail kind power rule }
  | standard : Registers p { p with grammar := Grammar.standard.orElse p.grammar }

/-- What becomes of a new parser over `lx`. -/
inductive Reached (lx : Lexer) : Parser → Prop where
  | start : Reached lx (ofLexer lx)
  | works {p q : Parser} : Reached lx p → p.Works q → Reached lx q
  | registers {p q : Parser} : Reached lx p → p.Registers q → Reached lx q

variable {lx : Lexer} {p q : Parser}

theorem attempt_reaches {α : Type} {rule : Parses → Parse α} {r : Except Diagnostic α}
    [(rule (p.grammar.run p.budget)).Forward] (h : p.attempt rule = some (r, q)) :
    p.state.Reaches q.state ∧ q.grammar = p.grammar := by
  unfold attempt at h
  split at h
  · rename_i a s hs
    cases h
    exact ⟨Parse.Forward.done hs, rfl⟩
  · rename_i d s hs
    cases h
    exact ⟨Parse.Forward.failed hs, rfl⟩
  · cases h

theorem Works.reaches (h : p.Works q) : p.state.Reaches q.state ∧ q.grammar = p.grammar := by
  cases h with
  | advance => exact ⟨.advance .refl, rfl⟩
  | record d => exact ⟨.record d .refl, rfl⟩
  | expect h => exact attempt_reaches h
  | call c h => rw [call_eq_attempt] at h; exact attempt_reaches h

theorem Registers.state (h : p.Registers q) : q.state = p.state := by
  cases h <;> rfl

theorem Reached.at (h : Reached lx p) : ∃ k, State.At lx k p.state := by
  induction h with
  | start => exact ⟨0, State.at_ofLexer lx⟩
  | works _ hpq ih =>
    obtain ⟨k, hk⟩ := ih
    obtain ⟨k', -, hk'⟩ := hk.reaches hpq.reaches.1
    exact ⟨k', hk'⟩
  | registers _ hpq ih => rwa [hpq.state]

/-- A parser stands at a place in the stream of its lexer, whatever was done with it. What it is
made to parse never moves it back, takes no diagnostic back and leaves its rules alone; new rules
change nothing but the rules. -/
theorem Reached.keeps_place (h : Reached lx p) :
    (∃ k, State.At lx k p.state) ∧
    (∀ q, p.Works q → (∀ k, State.At lx k p.state → ∃ k', k ≤ k' ∧ State.At lx k' q.state) ∧
      p.diagnostics <+: q.diagnostics ∧ q.grammar = p.grammar) ∧
    ∀ q, p.Registers q → (∀ k, State.At lx k p.state → State.At lx k q.state) ∧
      q.diagnostics = p.diagnostics := by
  refine ⟨h.at, fun q hq => ?_, fun q hq => ?_⟩
  · obtain ⟨hreaches, hgrammar⟩ := hq.reaches
    exact ⟨fun k hk => hk.reaches hreaches, hreaches.diagnostics, hgrammar⟩
  · have hstate := hq.state
    exact ⟨fun k hk => hstate ▸ hk, congrArg (·.diagnostics.toList) hstate⟩

end Parser

/-- A parser with a rule of its own that has gone through a source with an open list. -/
theorem keeps_place_unclosed :
    let lx := Lexer.ofString "shell" "f(1, ; \x7b"
    let p : Parser := ⟨Grammar.standard.withTail .comma .equality .binary, .ofLexer lx⟩
    ∃ program q, p.call .program = some (.ok program, q) ∧ Parser.Reached lx q ∧
      (∃ k, State.At lx k q.state) ∧
      (∀ q', q.Works q' → (∀ k, State.At lx k q.state → ∃ k', k ≤ k' ∧ State.At lx k' q'.state) ∧
        q.diagnostics <+: q'.diagnostics ∧ q'.grammar = q.grammar) ∧
      ∀ q', q.Registers q' → (∀ k, State.At lx k q.state → State.At lx k q'.state) ∧
        q'.diagnostics = q.diagnostics := by
  intro lx p
  have hg : p.grammar.Grounded := Grammar.standard_grounded.withTail _ _ (by decide)
  obtain ⟨program, s, hprogram, -⟩ := p.program_ok hg
  have hp : Parser.Reached lx p := .registers .start (.tail .comma .equality .binary)
  have hreached : Parser.Reached lx { p with state := s } := hp.works (.call .program hprogram)
  exact ⟨program, _, hprogram, hreached, hreached.keeps_place⟩

end ScriptFront
