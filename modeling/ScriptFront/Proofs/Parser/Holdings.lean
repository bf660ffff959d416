import ScriptFront.Proofs.Parser.Budget
import ScriptFront.Proofs.Parser.Credit
import ScriptFront.Proofs.Token.Tiling

/-!
# What a program holds and what it lacks

A run of statements pays for its trees, so what a program has was paid for: its tokens are tokens of
the lexer, each kept in one place however often the parser had to give up and start again
(`Parser.program_tokens_once`), and each of its empty slots has a diagnostic of its own, in any
grammar (`Parser.program_holes_le`).
-/

namespace ScriptFront

open Text

namespace State

/-- A parser starts with all tokens of its lexer. -/
theorem unread_ofLexer (lx : Lexer) : (ofLexer lx).current.arrival.1 + (ofLexer lx).unread =
    (lx.tokens.filter (·.kind ≠ .eof) : List Token) := by
  -- The first two tokens are taken as if by moving on from a state that has none.
  let s : State := ⟨lx, .atEnd lx.file 0, .atEnd lx.file 0, #[]⟩
  have hend : s.peek.arrival.1 + s.advance.unread = s.advance.unread := zero_add _
  calc (ofLexer lx).current.arrival.1 + (ofLexer lx).unread = s.advance.unread :=
        s.advance.unread_advance
    _ = s.unread := hend.symm.trans s.unread_advance
    _ = (lx.tokens.filter (·.kind ≠ .eof) : List Token) := rfl

end State

namespace Grammar

variable {g : Grammar} {lx : Lexer} {budget : Nat} {body : List Stmt} {t : State}

/-- The statements of a script are paid for from the start. -/
theorem run_pays (h : g.run budget (.stmts .script) (.ofLexer lx) = .done body t) :
    (State.ofLexer lx).Pays (State.ofLexer lx).current.arrival (bill g body) t :=
  (g.run_affords budget (.stmts .script) (.ofLexer lx)).done h

/-- In a grammar without a rule for ends, each token of the lexer is kept once at most. -/
theorem run_held (hg : g.rulesEnd = false)
    (h : g.run budget (.stmts .script) (.ofLexer lx) = .done body t) :
    (held body : Multiset Token) ≤ (lx.tokens.filter (·.kind ≠ .eof) : List Token) := by
  have hcounts : (held body).filter g.counts = held body :=
    List.filter_eq_self.2 fun u _ => by simp [counts, hg]
  have htokens := (run_pays h).tokens
  rw [bill_eq, hcounts, State.unread_ofLexer] at htokens
  exact le_self_add.trans htokens

/-- Each token of the lexer is copied once at most. -/
theorem run_copied (h : g.run budget (.stmts .script) (.ofLexer lx) = .done body t) :
    (copied body : Multiset Token) ≤ (lx.tokens.filter (·.kind ≠ .eof) : List Token) := by
  have hcopies := (run_pays h).copies
  rw [bill_eq, Token.arrival_copies, State.unread_ofLexer] at hcopies
  exact le_self_add.trans hcopies

theorem run_holes (h : g.run budget (.stmts .script) (.ofLexer lx) = .done body t) :
    holes body ≤ t.diagnostics.size := by
  have hholes := (run_pays h).holes
  rw [bill_eq, Token.arrival_holes, zero_add] at hholes
  exact hholes

end Grammar

/-! ## Tokens -/

namespace Lexer

theorem tokens_starts (file : String) {source : String} (c : Char)
    (hfits : source.utf8ByteSize < 2 ^ 32) :
    ((ofString file source).endingWith c).tokens.Pairwise (·.span.start < ·.span.start) := by
  rw [tokens_endingWith]
  refine (Tape.tokens_tiled file 0 (Tape.cuts c source.toList)).starts ?_
  rwa [Nat.zero_add, width_toList]

/-- Tokens of a lexer that are no ends, each of them once. -/
theorem once_of_le {lx : Lexer} {ts : List Token}
    (h : (ts : Multiset Token) ≤ (lx.tokens.filter (·.kind ≠ .eof) : List Token)) :
    ts.Subperm lx.tokens ∧ ∀ t ∈ ts, t.kind ≠ .eof := by
  refine ⟨(Multiset.coe_le.1 h).trans List.filter_sublist.subperm, fun t ht => ?_⟩
  simpa using (List.mem_filter.1 (Multiset.subset_of_le h (Multiset.mem_coe.2 ht))).2

/-- Tokens that are there once start at different places. -/
theorem nodup_starts {file source : String} {c : Char} {ts : List Token}
    (h : ts.Subperm ((ofString file source).endingWith c).tokens)
    (hfits : source.utf8ByteSize < 2 ^ 32) : (ts.map (·.span.start)).Nodup := by
  have hstarts : (((ofString file source).endingWith c).tokens.map (·.span.start)).Nodup :=
    List.pairwise_map.2 ((tokens_starts file c hfits).imp fun hlt heq => by simp [heq] at hlt)
  have hmap := Multiset.map_le_map (f := fun t : Token => t.span.start) (Multiset.coe_le.2 h)
  exact Multiset.coe_nodup.1 (Multiset.nodup_of_le hmap hstarts)

end Lexer

/-- Whatever a source holds and whatever character ends it, the tokens of its program are no ends.
Without the copies in bare statements they are tokens of the lexer, each kept once at most, and so
are the copies. So the tokens of either start at different places, if the source is not too long for
its offsets. -/
theorem Parser.program_tokens_once (file source : String) (c : Char) :
    ∃ program p,
      (ofLexer ((Lexer.ofString file source).endingWith c)).program = some (.ok program, p) ∧
      (∀ t ∈ held program ++ copied program,
        t ∈ ((Lexer.ofString file source).endingWith c).tokens ∧ t.kind ≠ .eof) ∧
      (held program).Subperm ((Lexer.ofString file source).endingWith c).tokens ∧
      (copied program).Subperm ((Lexer.ofString file source).endingWith c).tokens ∧
      (source.utf8ByteSize < 2 ^ 32 →
        ((held program).map (·.span.start)).Nodup ∧
          ((copied program).map (·.span.start)).Nodup) := by
  obtain ⟨program, s, hprogram, hrun⟩ :=
    (ofLexer ((Lexer.ofString file source).endingWith c)).program_ok Grammar.standard_grounded
  obtain ⟨hheld, hheldEnds⟩ := Lexer.once_of_le (Grammar.run_held rfl hrun)
  obtain ⟨hcopied, hcopiedEnds⟩ := Lexer.once_of_le (Grammar.run_copied hrun)
  refine ⟨program, _, hprogram, List.forall_mem_append.2 ⟨fun t ht => ?_, fun t ht => ?_⟩, hheld,
    hcopied, fun hfits => ⟨Lexer.nodup_starts hheld hfits, Lexer.nodup_starts hcopied hfits⟩⟩
  · exact ⟨hheld.subset ht, hheldEnds t ht⟩
  · exact ⟨hcopied.subset ht, hcopiedEnds t ht⟩

/-- A call that is given up and a name that a function has twice. -/
theorem program_tokens_once_call :
    let source := "f(1, ; fn(x, x) \x7b x"
    let lx := (Lexer.ofString "shell" source).endingWith 'y'
    source.utf8ByteSize < 2 ^ 32 ∧
      ∃ program p, (Parser.ofLexer lx).program = some (.ok program, p) ∧
        (∀ t ∈ held program ++ copied program, t ∈ lx.tokens ∧ t.kind ≠ .eof) ∧
        (held program).Subperm lx.tokens ∧ (copied program).Subperm lx.tokens ∧
        ((held program).map (·.span.start)).Nodup ∧
        ((copied program).map (·.span.start)).Nodup := by
  intro source lx
  have hfits : source.utf8ByteSize < 2 ^ 32 := by decide
  obtain ⟨program, p, hprogram, htokens, hheld, hcopied, hstarts⟩ :=
    Parser.program_tokens_once "shell" source 'y'
  exact ⟨hfits, program, p, hprogram, htokens, hheld, hcopied, hstarts hfits⟩

/-- Two names with so many spaces between them that the offset of the second is at zero again. Both
are kept, and start at the same place. -/
theorem program_tokens_wrap :
    let lx := (Lexer.ofString "shell" ("a" ++ spaces (2 ^ 32 - 1) ++ "b")).endingWith '\x00'
    ∃ program p, (Parser.ofLexer lx).program = some (.ok program, p) ∧
      ¬ ((held program).map (·.span.start)).Nodup := by
  intro lx
  let second := (Lexer.ofString "shell" (spaces (2 ^ 32 - 1) ++ "b")).countingFrom 1
  let third := (Lexer.ofString "shell" "").countingFrom (2 ^ 32 + 1)
  let first : Token := ⟨.identifier, "a", 0, 1, "shell"⟩
  let other : Token := ⟨.identifier, "b", 0, 1, "shell"⟩
  have hfirst : lx.nextOrEnd = (first, second) := by
    refine Lexer.nextOrEnd_of_tape ?_ (Lexer.pending_countingFrom _ _ _)
    rw [Lexer.tape_endingWith, Lexer.tape_countingFrom, String.toList_append, String.toList_append,
      String.toList_append, show 2 ^ 32 - 1 = 2 ^ 32 - 2 + 1 from rfl, spaces_succ]
    generalize (spaces (2 ^ 32 - 2)).toList = gap
    rfl
  have hsecond : second.nextOrEnd = (other, third) := by
    refine Lexer.nextOrEnd_of_tape ?_ (Lexer.pending_countingFrom _ _ _)
    rw [Lexer.tape_countingFrom, String.toList_append, List.append_assoc,
      Tape.next_spaces _ (by simp), Lexer.tape_countingFrom]
    decide
  have hparser : Parser.ofLexer lx = ⟨.standard, third, first, other, #[]⟩ :=
    congrArg (Parser.mk .standard) (State.ofLexer_eq hfirst hsecond)
  obtain ⟨program, s, hprogram, -⟩ := (Parser.ofLexer lx).program_ok Grammar.standard_grounded
  refine ⟨program, _, hprogram, ?_⟩
  have hstarts : (Parser.ofLexer lx).program.map
      (·.1.toOption.map fun program => (held program).map (·.span.start)) =
      some (some [(0 : UInt32), 0]) := by
    rw [hparser]
    decide +kernel
  have hsame : (held program).map (·.span.start) = [0, 0] := by
    simpa [hprogram, Except.toOption] using hstarts
  rw [hsame]
  decide

/-! ## Empty slots -/

/-- A program that is not starved is done. -/
theorem Call.program_done {g : Grammar} {budget : Nat} {s : State}
    (h : Call.program.parse (g.run budget) s ≠ .starved) :
    ∃ program t, Call.program.parse (g.run budget) s = .done program t ∧
      g.run budget (.stmts .script) s = .done program.body t := by
  cases hrun : g.run budget (.stmts .script) s with
  | done body t => exact ⟨⟨body⟩, t, by simp only [parse, Functor.map, hrun]; rfl, rfl⟩
  | failed d t => exact (g.run_stmts_unfailing _ _ _ _ _ hrun).elim
  | starved => exact (h (by simp only [parse, Functor.map, hrun])).elim

/-- Whatever the rules of a grammar are and whatever is read, if parsing comes to an end within some
budget, it gives a program that has no more empty slots than diagnostics were recorded. So does the
parser, whose budget is one of them. -/
theorem Parser.program_holes_le (g : Grammar) (lx : Lexer) :
    (∀ budget, Call.program.parse (g.run budget) (.ofLexer lx) ≠ .starved →
      ∃ program s, Call.program.parse (g.run budget) (.ofLexer lx) = .done program s ∧
        holes program ≤ s.diagnostics.size) ∧
    ∀ r p, (Parser.mk g (.ofLexer lx)).program = some (r, p) →
      ∃ program, r = .ok program ∧ holes program ≤ p.diagnostics.length := by
  have hends (budget : Nat)
      (hne : Call.program.parse (g.run budget) (.ofLexer lx) ≠ .starved) :
      ∃ program s, Call.program.parse (g.run budget) (.ofLexer lx) = .done program s ∧
        holes program ≤ s.diagnostics.size := by
    obtain ⟨program, s, hdone, hrun⟩ := Call.program_done hne
    exact ⟨program, s, hdone, Grammar.run_holes hrun⟩
  refine ⟨hends, fun r p hp => ?_⟩
  let start : Parser := ⟨g, .ofLexer lx⟩
  change start.attempt (fun self => Call.program.parse self) = some (r, p) at hp
  obtain ⟨program, s, hdone, hle⟩ := hends start.budget fun hstarved => by
    simp only [attempt, start, hstarved] at hp
    cases hp
  simp only [attempt, start, hdone] at hp
  cases hp
  exact ⟨program, rfl, by simpa [diagnostics] using hle⟩

/-- A grammar that has the end for an operand, and a source that breaks off: each of the two empty
slots of the program has a diagnostic. -/
theorem program_holes_le_broken :
    let g := Grammar.standard.withHead .eof .ident
    let lx := Lexer.ofString "shell" "let x = ; ! ) -"
    (∃ program s, Call.program.parse (g.run 20) (.ofLexer lx) = .done program s ∧
      holes program = 2 ∧ holes program ≤ s.diagnostics.size) ∧
    ∃ program p, (Parser.mk g (.ofLexer lx)).program = some (.ok program, p) ∧
      holes program = 2 ∧ holes program ≤ p.diagnostics.length := by
  intro g lx
  obtain ⟨hends, hanswer⟩ := Parser.program_holes_le g lx
  have hrun : (match Call.program.parse (g.run 20) (.ofLexer lx) with
      | .done program _ => some (holes program)
      | _ => none) = some 2 := by decide +kernel
  have hprogram : (Parser.mk g (.ofLexer lx)).program.map (·.1.toOption.map holes) =
      some (some 2) := by decide +kernel
  constructor
  · obtain ⟨program, s, hdone, hle⟩ := hends 20 fun hstarved => by
      rw [hstarved] at hrun
      cases hrun
    rw [hdone] at hrun
    exact ⟨program, s, hdone, Option.some.inj hrun, hle⟩
  · match hp : (Parser.mk g (.ofLexer lx)).program with
    | none =>
      rw [hp] at hprogram
      cases hprogram
    | some (r, p) =>
      obtain ⟨program, rfl, hle⟩ := hanswer r p hp
      rw [hp] at hprogram
      exact ⟨program, p, rfl, Option.some.inj (Option.some.inj hprogram), hle⟩

end ScriptFront
