import ScriptFront.Proofs.Parser.Locality
import ScriptFront.Proofs.Syntax.Simulation
import ScriptFront.Proofs.Token.Boundary

/-!
# Semicolons that can be left out

A semicolon can be left out unless the token behind it would go on with the expression before it. If
that token can stand behind a statement, the run on the source without the semicolon does what the
run with it does (`Simulation.dropping`). If it cannot, the run never gets as far as the semicolon
(`Simulation.before`), and no statement depends on what is behind the token where it stops.
-/

namespace ScriptFront

open Parse Grammar Text

/-! ## A token less -/

namespace State

/-- `s'` shows the tokens of `s` but for a semicolon, `n` places behind the current one. -/
structure Drops (n : Nat) (s s' : State) : Prop where
  before : ∀ i < n, s'.token i = s.token i
  semicolon : (s.token n).kind = .semicolon
  behind : ∀ i, n ≤ i → s'.token i = s.token (i + 1)
  afresh : (s'.token n).kind ∈ Kind.afresh

/-- The semicolon that is missing is still ahead, or all tokens are the same. -/
def Shortened (s s' : State) : Prop :=
  (∃ n, s.Drops (n + 1) s') ∨ ∀ i, s'.token i = s.token i

/-- As far as the tokens ahead go, `s` is as `Shortened` says. -/
def ShortenedAhead (s s' : State) : Prop :=
  (∃ n, s.Drops (n + 1) s') ∨ ∀ i, s'.token (i + 1) = s.token (i + 1)

variable {n : Nat} {s s' : State}

theorem Drops.advance (h : s.Drops (n + 1) s') : s.advance.Drops n s'.advance where
  before i hi := h.before (i + 1) (by omega)
  semicolon := h.semicolon
  behind i hi := h.behind (i + 1) (by omega)
  afresh := h.afresh

namespace Shortened

theorem current (h : s.Shortened s') : s.current = s'.current := by
  rcases h with ⟨n, h⟩ | h
  · exact (h.before 0 (by omega)).symm
  · exact (h 0).symm

theorem advance (h : s.Shortened s') (hk : s.peek.kind ≠ .semicolon) :
    s.advance.Shortened s'.advance := by
  rcases h with ⟨n, h⟩ | h
  · cases n with
    | zero => exact (hk h.semicolon).elim
    | succ n => exact .inl ⟨n, h.advance⟩
  · exact .inr fun i => h (i + 1)

theorem peek (h : s.Shortened s') : s'.peek.kind = s.peek.kind ∨
    s.peek.kind = .semicolon ∧ s'.peek.kind ∈ Kind.afresh := by
  rcases h with ⟨n, h⟩ | h
  · cases n with
    | zero => exact .inr ⟨h.semicolon, h.afresh⟩
    | succ n => exact .inl (congrArg Token.kind (h.before 1 (by omega)))
  · exact .inl (congrArg Token.kind (h 1))

/-- A statement whose semicolon is missing ends one token before the one that has it. -/
theorem semicolon (h : s.Shortened s') :
    (if s.peek.kind = .semicolon then s.advance else s).ShortenedAhead
      (if s'.peek.kind = .semicolon then s'.advance else s') := by
  rcases h with ⟨n, h⟩ | h
  · cases n with
    | zero =>
      have hsemi : s.peek.kind = .semicolon := h.semicolon
      have hafresh : s'.peek.kind ≠ .semicolon := fun hk => absurd (hk ▸ h.afresh) (by decide)
      rw [if_pos hsemi, if_neg hafresh]
      exact .inr fun i => h.behind (i + 1) (by omega)
    | succ n =>
      have hpeek : s'.peek = s.peek := h.before 1 (by omega)
      rw [hpeek]
      split
      · exact .inl ⟨n, h.advance⟩
      · exact .inl ⟨n + 1, h⟩
  · have hpeek : s'.peek = s.peek := h 1
    rw [hpeek]
    split
    · exact .inr fun i => h (i + 2)
    · exact .inr fun i => h (i + 1)

end Shortened

theorem ShortenedAhead.advance (h : s.ShortenedAhead s') (hk : s.peek.kind ∈ Kind.behindStmt) :
    s.advance.Shortened s'.advance := by
  rcases h with ⟨n, h⟩ | h
  · exact Shortened.advance (.inl ⟨n, h⟩) fun hsemi => absurd (hsemi ▸ hk) (by decide)
  · exact .inr h

end State

namespace Simulation

/-- A run with a semicolon, and one without it. -/
def dropping : Simulation where
  Enters _ := State.Shortened
  Leaves _ := State.Shortened
  Ends _ := State.ShortenedAhead
  current h := h.current
  leave h _ := h
  openCurly h _ := h
  close h _ := h
  advance h hk := h.advance hk
  peek h := h.peek
  semicolon h := h.semicolon
  next h hk := h.advance hk

/-! ## A semicolon that is not reached -/

/-- A run that has not got to the semicolon `j` places behind the start, when no statement can stand
behind that. -/
def before (start : State) (j : Nat) (hsemi : (start.token j).kind = .semicolon)
    (hbehind : (start.token (j + 1)).kind ∉ Kind.behindStmt) : Simulation where
  Enters _ s s' := s' = s ∧ ∃ k < j, s = start.skip k
  Leaves _ s s' := s' = s ∧ ∃ k < j, s = start.skip k
  Ends _ s s' := s' = s ∧ ∃ k ≤ j, s = start.skip k
  current h := by rw [h.1]
  leave h _ := h
  openCurly h _ := h
  close h _ := h
  advance := by
    rintro d s _ ⟨rfl, k, hk, rfl⟩ hne
    rw [State.skip_peek] at hne
    refine ⟨rfl, k + 1, Nat.lt_of_le_of_ne hk ?_, (start.skip_succ k).symm⟩
    rintro rfl
    exact hne hsemi
  peek h := .inl (by rw [h.1])
  semicolon := by
    rintro d s _ ⟨rfl, k, hk, rfl⟩
    refine ⟨rfl, ?_⟩
    split
    · exact ⟨k + 1, hk, (start.skip_succ k).symm⟩
    · exact ⟨k, Nat.le_of_lt hk, rfl⟩
  next := by
    rintro d s _ ⟨rfl, k, hk, rfl⟩ hnext
    rw [State.skip_peek] at hnext
    refine ⟨rfl, k + 1, Nat.lt_of_le_of_ne (Nat.lt_of_le_of_ne hk ?_) ?_, (start.skip_succ k).symm⟩
    · rintro rfl
      exact hbehind hnext
    · rintro rfl
      rw [hsemi] at hnext
      exact absurd hnext (by decide)

end Simulation

/-! ## What statements depend on -/

theorem State.after_nil (s : State) (k : Nat) : s.after k [] = s.skip k := by
  simp [State.after, ← s.skip_diagnostics k]

/-- A statement depends on no token behind the one ahead of where it stops. -/
theorem run_stmt_local {n : Nat} {s t : State} {statement : Stmt}
    (h : (standard.run n .stmt).Clean s statement t) : ∃ k, t = s.skip k ∧
      ∀ s' : State, (∀ i < k + 2, s'.token i = s.token i) →
        (standard.parses .stmt).Clean s' statement (s'.skip k) := by
  rcases (standard.run_local n).stmt () s with hstarved | ⟨k, marks, r, hr, hcont⟩
  · cases h.1.symm.trans hstarved
  cases r with
  | error m => cases h.1.symm.trans hr
  | ok a =>
    cases h.1.symm.trans hr
    have hmarks : marks = [] := by simpa [State.after] using h.2
    subst hmarks
    refine ⟨k, s.after_nil k, fun s' hs => ?_⟩
    obtain ⟨r', hr', hrun⟩ :=
      hcont (Goal.stmt.cost s') id id () s' rfl fun i hi => (hs i hi).symm
    cases r' with
    | error m => cases hr'
    | ok a' =>
      have ha : statement = a' := by
        rw [← Stmt.respan_id statement, ← Stmt.respan_id a']
        exact Except.ok.inj hr'
      rw [State.outcome, s'.after_nil, ← ha] at hrun
      have hparses : standard.parses .stmt s' = .done statement (s'.skip k) :=
        (run_eq_parses standard_grounded (Nat.le_add_left ..)).symm.trans hrun
      exact ⟨hparses, s'.skip_diagnostics k⟩

/-- Statements depend on no token behind the one where they stop. -/
theorem run_stmts_local {n : Nat} {scope : Scope} {s t : State} {body : List Stmt}
    (h : (standard.run n (.stmts scope)).Clean s body t) : ∃ k, t = s.skip k ∧
      ∀ s' : State, (∀ i ≤ k, s'.token i = s.token i) →
        (standard.parses (.stmts scope)).Clean s' body (s'.skip k) := by
  induction n generalizing s body with
  | zero => cases h.1
  | succ n ih =>
    have h := clean_stmts.1 h
    split at h
    · rename_i hend
      obtain ⟨rfl, rfl⟩ := h
      refine ⟨0, rfl, fun s' hs => clean_parses.2 (clean_stmts.2 ?_)⟩
      have hcurrent : s'.current = s.current := hs 0 (Nat.le_refl 0)
      rw [hcurrent, if_pos hend]
      exact ⟨rfl, rfl⟩
    · rename_i hend
      obtain ⟨first, u, hfirst, others, hothers, rfl⟩ := h
      obtain ⟨k, rfl, hfirst'⟩ := run_stmt_local hfirst
      obtain ⟨m, rfl, hothers'⟩ := ih hothers
      rw [← s.skip_succ, ← s.skip_add]
      refine ⟨k + 1 + m, rfl, fun s' hs => clean_parses.2 (clean_stmts.2 ?_)⟩
      have hcurrent : s'.current = s.current := hs 0 (Nat.zero_le _)
      rw [hcurrent, if_neg hend, s'.skip_add, s'.skip_succ]
      refine ⟨first, s'.skip k, hfirst' s' fun i hi => hs i (by omega), others,
        hothers' _ fun i hi => ?_, rfl⟩
      rw [← s.skip_succ, ← s'.skip_succ, State.token_skip, State.token_skip]
      exact hs (k + 1 + i) (by omega)

/-! ## Programs -/

/-- A run on a source with a semicolon, of which the other source has the tokens but that one. -/
theorem clean_without_semicolon {n j : Nat} {s s' t : State} {body : List Stmt}
    (h : (standard.run n (.stmts .script)).Clean s body t)
    (hbefore : ∀ i < j, s'.token i = s.token i) (hsemi : (s.token j).kind = .semicolon)
    (hbehind : ∀ i, j ≤ i → s'.token i = s.token (i + 1))
    (hnext : ¬ (s.token (j + 1)).kind.goesOn) :
    ∃ t', (standard.parses (.stmts .script)).Clean s' body t' := by
  obtain ⟨j, rfl⟩ : ∃ i, j = i + 1 := by
    refine ⟨j - 1, (Nat.succ_pred_eq_of_ne_zero ?_).symm⟩
    rintro rfl
    have hstart : (s.token 0).kind ∈ Kind.behindStmt := run_stmts_starts h
    rw [hsemi] at hstart
    exact absurd hstart (by decide)
  by_cases hnew : (s.token (j + 2)).kind ∈ Kind.behindStmt
  · have hdrops : s.Drops (j + 1) s' :=
      ⟨hbefore, hsemi, hbehind, by
        rw [hbehind (j + 1) (Nat.le_refl _), Kind.afresh, List.mem_filter]
        exact ⟨hnew, by simpa using hnext⟩⟩
    obtain ⟨t', ht', -⟩ := (Simulation.dropping.copied n).stmts .script 0 h (.inl ⟨j, hdrops⟩)
    exact ⟨t', ht'⟩
  · obtain ⟨k, rfl, hlocal⟩ := run_stmts_local h
    have hstart : (Simulation.before s (j + 1) hsemi hnew).Enters 1 s s :=
      ⟨rfl, 0, Nat.succ_pos j, rfl⟩
    obtain ⟨-, -, ⟨-, m, hm, hsame⟩, -⟩ := (Simulation.copied _ n).stmts .script 0 h hstart
    -- The run stops before the semicolon, so the tokens that it depends on are left.
    have hk : k ≤ m := by
      refine Nat.not_lt.1 fun hlt => ?_
      have heof := State.eof_of_skip_eq hsame.symm hlt (Nat.le_of_lt hm)
      rw [hsemi] at heof
      cases heof
    exact ⟨_, hlocal s' fun i hi => hbefore i (by omega)⟩

/-- The lexer `lx'` gives what `lx` gives but for the token `t`. -/
theorem Lexer.stream_without {lx lx' : Lexer} {before behind : List Token} {t : Token}
    (h : lx.tokens = before ++ t :: behind) (h' : lx'.tokens = before ++ behind)
    (hfile : lx'.file = lx.file) (hlimit : lx'.limit = lx.limit) :
    (∀ i < before.length, lx'.stream i = lx.stream i) ∧ lx.stream before.length = t ∧
      (∀ i, before.length ≤ i → lx'.stream i = lx.stream (i + 1)) ∧
      lx.stream (before.length + 1) = behind.head?.getD (.atEnd lx.file lx.limit) := by
  simp only [stream, h, h', hfile, hlimit]
  refine ⟨fun i hi => ?_, by simp, fun i hi => ?_, ?_⟩
  · rw [List.getElem?_append_left hi, List.getElem?_append_left hi]
  · obtain ⟨j, rfl⟩ : ∃ j, i = before.length + j := ⟨i - before.length, by omega⟩
    rw [Nat.add_assoc, List.getElem?_append_right (by omega), List.getElem?_append_right (by omega)]
    simp
  · rw [List.getElem?_append_right (by omega), List.head?_eq_getElem?]
    simp

theorem Parser.program_without_semicolon {lx lx' : Lexer} {program : Program} {p : Parser}
    {before behind : List Token} {t : Token}
    (h : (ofLexer lx).program = some (.ok program, p)) (hclean : p.diagnostics = [])
    (htokens : lx.tokens = before ++ t :: behind) (htokens' : lx'.tokens = before ++ behind)
    (hfile : lx'.file = lx.file) (hlimit : lx'.limit = lx.limit) (hsemi : t.kind = .semicolon)
    (hnext : ∀ u ∈ behind.head?, ¬ u.kind.goesOn) :
    ∃ q, (ofLexer lx').program = some (.ok program, q) ∧ q.diagnostics = [] := by
  obtain ⟨hsame, hat, hmoved, hbehind⟩ := Lexer.stream_without htokens htokens' hfile hlimit
  simp only [← State.token_ofLexer] at hsame hat hmoved hbehind
  have hgoesOn : ¬ ((State.ofLexer lx).token (before.length + 1)).kind.goesOn := by
    rw [hbehind]
    cases hu : behind.head? with
    | none => simp [Token.atEnd, Kind.goesOn]
    | some u => exact hnext u hu
  obtain ⟨s, hs⟩ := clean_without_semicolon (program_clean h hclean) hsame (by rw [hat, hsemi])
    hmoved hgoesOn
  exact program_of_clean hs

/-- A semicolon can be left out of a source that is parsed without a diagnostic unless a `-`, a `(`
or a `[` is the token behind it: with a blank in its place the source is parsed without a
diagnostic, too, and to the same program. -/
theorem parse_without_semicolon {file source : String} {program : Program} {p : Parser}
    {before behind : List Token} {t : Token} (hparse : parse file source = some (.ok program, p))
    (hclean : p.diagnostics = [])
    (htokens : (Lexer.ofString file source).tokens = before ++ t :: behind)
    (hsemi : t.kind = .semicolon)
    (hnext : ∀ u ∈ behind.head?, u.kind ∉ [.dash, .openParen, .openBracket]) :
    ∃ head tail q, source = head ++ ";" ++ tail ∧
      (Lexer.ofString file source).startOf before.length = head.utf8ByteSize ∧
      t.span.start = .ofNat head.utf8ByteSize ∧
      parse file (head ++ " " ++ tail) = some (.ok program, q) ∧ q.diagnostics = [] := by
  have hcut := htokens
  rw [Lexer.tokens_ofString] at hcut
  obtain ⟨head, tail, hsource, hplace, ht, hrest, hread⟩ := Tape.tokens_semicolon hcut hsemi
  obtain rfl : source = String.ofList head ++ ";" ++ String.ofList tail := by
    rw [← String.toList_inj]
    simp [hsource]
  have htokens' : (Lexer.ofString file (String.ofList head ++ " " ++ String.ofList tail)).tokens =
      before ++ behind := by
    rw [hrest, ← Tape.tokens_space, ← hread ' ' (tail ++ ['\x00']) (by decide),
      Lexer.tokens_ofString]
    simp
  have hlimit : (Lexer.ofString file (String.ofList head ++ " " ++ String.ofList tail)).limit =
      (Lexer.ofString file (String.ofList head ++ ";" ++ String.ofList tail)).limit := by
    simp only [Lexer.limit_ofString, String.utf8ByteSize_append]
    rfl
  have hwidth : 0 + width head = (String.ofList head).utf8ByteSize := by
    rw [← width_toList, String.toList_ofList, Nat.zero_add]
  obtain ⟨q, hq, hnone⟩ := Parser.program_without_semicolon hparse hclean htokens htokens' rfl
    hlimit hsemi fun u hu => by simpa [Kind.goesOn, or_assoc] using hnext u hu
  refine ⟨String.ofList head, String.ofList tail, q, rfl, ?_, ?_, hq, hnone⟩
  · rw [Lexer.startOf_tape, Lexer.tape_ofString, hplace, hwidth]
  · rw [ht, hwidth]
    rfl

/-- A semicolon in a block, in front of a word. -/
theorem parse_without_semicolon_block :
    let source := "fn(x) \x7b x; let y = -x \x7d"
    let lx := Lexer.ofString "shell" source
    let t : Token := ⟨.semicolon, ";", ⟨9, 10, "shell"⟩⟩
    ∃ program p, parse "shell" source = some (.ok program, p) ∧ p.diagnostics = [] ∧
      lx.tokens = lx.tokens.take 6 ++ t :: lx.tokens.drop 7 ∧
      (∀ u ∈ (lx.tokens.drop 7).head?, u.kind ∉ [.dash, .openParen, .openBracket]) ∧
      ∃ head tail q, source = head ++ ";" ++ tail ∧
        lx.startOf (lx.tokens.take 6).length = head.utf8ByteSize ∧
        t.span.start = .ofNat head.utf8ByteSize ∧
        parse "shell" (head ++ " " ++ tail) = some (.ok program, q) ∧ q.diagnostics = [] := by
  intro source lx t
  obtain ⟨program, p, hparse, hclean⟩ : ∃ program p,
      parse "shell" "fn(x) \x7b x; let y = -x \x7d" = some (.ok program, p) ∧
        p.diagnostics = [] := by
    refine ⟨_, _, rfl, ?_⟩
    rfl
  have htokens : lx.tokens = lx.tokens.take 6 ++ t :: lx.tokens.drop 7 := by decide
  have hnext : ∀ u ∈ (lx.tokens.drop 7).head?, u.kind ∉ [.dash, .openParen, .openBracket] := by
    decide
  exact ⟨program, p, hparse, hclean, htokens, hnext,
    parse_without_semicolon hparse hclean htokens rfl hnext⟩

end ScriptFront
