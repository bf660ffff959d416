import ScriptFront.Proofs.Syntax.Completeness
import ScriptFront.Proofs.Syntax.Rendering
import ScriptFront.Proofs.Token.Ending

/-!
# Round trips

A statement without conditions and functions that is parsed without a diagnostic can be rendered
and parsed again: its text is one statement, and the same. So such statements with one text are the
same.
-/

namespace ScriptFront

open Text

/-! ## Statements -/

namespace Stmt

/-- A statement of a program that is parsed without a diagnostic. -/
def Parsed (s : Stmt) : Prop :=
  ∃ file source program p, parse file source = some (.ok program, p) ∧ p.diagnostics = [] ∧
    s ∈ program.body

/-- The statement without the token that an expression starts with: its text may start with a
parenthesis instead. -/
def unmarked : Stmt → Stmt
  | .bare _ e => .bare (.atEnd "" 0) e
  | s => s

/-- The statements differ in spans only, and in the token that an expression starts with. -/
def Same (s s' : Stmt) : Prop := Alike s.unmarked s'.unmarked

variable {t t' name name' : Token} {value value' : Expr}

theorem same_binding (ht : Alike t t') (hname : Alike name name') (hvalue : Alike value value') :
    Same (.binding t name.toIdent (some value)) (.binding t' name'.toIdent (some value')) := by
  unfold Same Alike at *
  simp [unmarked, Token.toIdent, ht, hname, hvalue, (Token.alike_iff.1 hname).2]

theorem same_ret (ht : Alike t t') (hvalue : Alike value value') :
    Same (.ret t (some value)) (.ret t' (some value')) := by
  unfold Same Alike at *
  simp [unmarked, ht, hvalue]

theorem same_bare (h : Alike value value') :
    Same (.bare t (some value)) (.bare t' (some value')) := by
  unfold Same Alike at *
  simp [unmarked, h]

end Stmt

/-! ## Reading a statement -/

/-- What is read up to the end of the input is a script. -/
theorem Tape.Reads.script {lx : Lexer} {after : Tape} {ts : List Token} (h : lx.tape.Reads ts after)
    (hafter : after.pending = ['\x00']) : lx.EndsOnce ∧ lx.script = ts := by
  obtain ⟨file, n, pending⟩ := after
  cases hafter
  have htokens : lx.tokens = ts ++ [.atEnd file n] := by
    rw [Lexer.tokens_tape, h.1, tokens_end]
  refine ⟨?_, ?_⟩
  · rw [Lexer.EndsOnce, htokens, List.dropLast_concat]
    exact h.2
  · rw [Lexer.script, htokens, List.takeWhile_append_of_pos (by simpa using h.2)]
    simp [Token.atEnd]

/-- Up to the end of the input the text of the statement is read as tokens that derive it. -/
def Stmt.ReadsBack (s : Stmt) : Prop :=
  ∀ ⦃tape : Tape⦄, tape.pending = s.render.toList ++ ['\x00'] →
    ∃ ts after, tape.Reads ts after ∧ after.pending = ['\x00'] ∧
      ∃ s', s.Same s' ∧ Derives .stmt ts s' []

namespace Stmt.ReadsBack

variable {t name : Token} {e : Expr}

/-- The value of a statement is read with the semicolon behind it. -/
theorem value (he : e.ReadsBack) {tape : Tape} {rest : List Char}
    (htape : tape.pending = e.render.toList ++ ';' :: rest) :
    ∃ ts semicolon after, tape.Reads (ts ++ [semicolon]) after ∧ after.pending = rest ∧
      semicolon.kind = .semicolon ∧
      ∃ e', Alike e e' ∧ Derives .expr (ts ++ [semicolon]) e' [semicolon] := by
  obtain ⟨ts, l₁, h₁, hl₁, e', he', hderives⟩ := he.expr (stops_cons (by decide) _) htape
  obtain ⟨semicolon, l₂, h₂, hl₂, hsemicolon, -⟩ :=
    Tape.reads_mark (c := ';') (by decide) rfl (by decide) hl₁
  exact ⟨ts, semicolon, l₂, h₁.trans h₂, hl₂, hsemicolon, e', he', hderives [semicolon]⟩

theorem binding (ht : t.Lexed) (hk : t.kind = .letWord) (hname : name.Lexed)
    (hident : name.kind = .identifier) (he : e.ReadsBack) :
    (Stmt.binding t name.toIdent (some e)).ReadsBack := by
  intro tape htape
  have htape : tape.pending = t.text.toList ++ ' ' :: (name.text.toList ++
      ' ' :: '=' :: ' ' :: (e.render.toList ++ [';', '\x00'])) := by
    simpa [render, renderSlot, Token.toIdent] using htape
  obtain ⟨t', l₁, h₁, hl₁, ht'⟩ :=
    ht.reads (by simp [hk]) (by simp [hk]) (stops_cons (by decide) _) htape
  obtain ⟨l₂, h₂, hl₂⟩ := Tape.reads_blank hl₁
  obtain ⟨name', l₃, h₃, hl₃, hname'⟩ :=
    hname.reads (by simp [hident]) (by simp [hident]) (stops_cons (by decide) _) hl₂
  obtain ⟨l₄, h₄, hl₄⟩ := Tape.reads_blank hl₃
  -- `=` is no mark by itself: the blank behind it keeps it apart from another.
  have hshape : Lexeme.Shaped ⟨.assign, ['='], [], ' ' :: (e.render.toList ++ [';', '\x00'])⟩ :=
    .alone List.mem_cons_self (by simp)
  obtain ⟨assign, l₅, h₅, hl₅, hassign, -⟩ := Tape.reads_lexeme hshape (by decide) hl₄
  obtain ⟨l₆, h₆, hl₆⟩ := Tape.reads_blank hl₅
  obtain ⟨ts, semicolon, l₇, h₇, hl₇, hsemicolon, e', he', hderives⟩ := value he hl₆
  refine ⟨_, l₇, (((((h₁.trans h₂).trans h₃).trans h₄).trans h₅).trans h₆).trans h₇, hl₇, _,
    same_binding ht' hname' he', .closed hsemicolon ?_⟩
  rw [ht'.kind] at hk
  rw [hname'.kind] at hident
  simpa using Derives.binding hk hident hassign hderives

theorem ret (ht : t.Lexed) (hk : t.kind = .returnWord) (he : e.ReadsBack) :
    (Stmt.ret t (some e)).ReadsBack := by
  intro tape htape
  have htape : tape.pending = t.text.toList ++ ' ' :: (e.render.toList ++ [';', '\x00']) := by
    simpa [render, renderSlot] using htape
  obtain ⟨t', l₁, h₁, hl₁, ht'⟩ :=
    ht.reads (by simp [hk]) (by simp [hk]) (stops_cons (by decide) _) htape
  obtain ⟨l₂, h₂, hl₂⟩ := Tape.reads_blank hl₁
  obtain ⟨ts, semicolon, l₃, h₃, hl₃, hsemicolon, e', he', hderives⟩ := value he hl₂
  refine ⟨_, l₃, (h₁.trans h₂).trans h₃, hl₃, _, same_ret ht' he', .closed hsemicolon ?_⟩
  rw [ht'.kind] at hk
  simpa using Derives.ret hk hderives

theorem bare (he : e.ReadsBack) : (Stmt.bare t (some e)).ReadsBack := by
  intro tape htape
  obtain ⟨ts, l₁, h₁, hl₁, e', he', hderives⟩ := he.expr (stops_cons (by decide) _) htape
  have hderives : Derives .expr ts e' [] := by simpa using hderives []
  obtain ⟨t', ht', -⟩ := hderives.starts
  obtain ⟨us, rfl⟩ := List.head?_eq_some_iff.1 ht'
  exact ⟨_, l₁, h₁, hl₁, _, same_bare he', .unclosed (by simp) (.bare hderives)⟩

end Stmt.ReadsBack

namespace Stmt.Written

variable {s : Stmt}

theorem readsBack (h : s.Written) : s.ReadsBack := by
  cases h with
  | binding ht hk hname hident he => exact .binding ht hk hname hident he.readsBack
  | ret ht hk he => exact .ret ht hk he.readsBack
  | bare he => exact .bare he.readsBack

/-- The text of a written statement is parsed to the statement alone. -/
theorem parses (h : s.Written) (file : String) :
    ∃ s' p, parse file s.render = some (.ok ⟨[s']⟩, p) ∧ p.diagnostics = [] ∧ s.Same s' := by
  have htape := congrArg Tape.pending (Lexer.tape_ofString file s.render)
  obtain ⟨ts, after, hreads, hafter, s', hs', hderives⟩ := h.readsBack htape
  obtain ⟨hends, hscript⟩ := hreads.script hafter
  obtain ⟨p, hp, hnone⟩ :=
    Parser.program_of_derives hends (hscript ▸ Derives.stmt hderives .noStmt)
  exact ⟨s', p, hp, hnone, hs'⟩

end Stmt.Written

/-! ## Statements that are parsed -/

namespace Stmt.Parsed

variable {s : Stmt}

theorem written (h : s.Parsed) (hplain : s.isPlain) : s.Written := by
  obtain ⟨file, source, program, p, hparse, hnone, hs⟩ := h
  exact (Grammar.run_writes _).stmts (State.lexed_ofLexer _) (Parser.program_clean hparse hnone)
    s hs hplain

/-- A plain statement is parsed back from its text, and is the only one with that text. -/
theorem parse_render (h : s.Parsed) (hplain : s.isPlain) :
    (∀ file, ∃ s' p, parse file s.render = some (.ok ⟨[s']⟩, p) ∧ p.diagnostics = [] ∧
      s.Same s') ∧
    ∀ s' : Stmt, s'.Parsed → s'.isPlain → s'.render = s.render → s.Same s' := by
  refine ⟨(h.written hplain).parses, fun s' h' hplain' hrender => ?_⟩
  obtain ⟨u, p, hparse, -, hsu⟩ := (h.written hplain).parses ""
  obtain ⟨u', p', hparse', -, hsu'⟩ := (h'.written hplain').parses ""
  rw [hrender, hparse] at hparse'
  cases hparse'
  exact hsu.trans hsu'.symm

end Stmt.Parsed

/-- A hash, whose text has a parenthesis for each operator. -/
theorem parse_render_hash :
    let token (kind : Kind) (text : String) (start stop : Nat) : Token :=
      ⟨kind, text, ⟨start, stop, "shell"⟩⟩
    let f := Expr.ident (token .identifier "f" 12 13).toIdent
    let minus := Expr.unary (token .dash "-" 14 15) "-" (some (.integer (token .int "1" 15 16) 1))
    let call := Expr.call (token .openParen "(" 13 14) f [minus]
    let value := Expr.index (token .openBracket "[" 17 18) call (.integer (token .int "0" 18 19) 0)
    let key := Expr.ident (token .identifier "a" 9 10).toIdent
    let s := Stmt.binding (token .letWord "let" 0 3) (token .identifier "h" 4 5).toIdent
      (some (.hash (token .openCurly "\x7b" 8 9) [(key, value)]))
    s.Parsed ∧ s.isPlain ∧ s.render = "let h = \x7ba:(f((-1))[0])\x7d;" ∧
      (∀ file, ∃ s' p, parse file s.render = some (.ok ⟨[s']⟩, p) ∧ p.diagnostics = [] ∧
        s.Same s') ∧
      ∀ s' : Stmt, s'.Parsed → s'.isPlain → s'.render = s.render → s.Same s' := by
  intro token f minus call value key s
  have hparsed : s.Parsed :=
    ⟨"shell", "let h = \x7ba: f(-1)[0]\x7d", ⟨[s]⟩, _, rfl, rfl, List.mem_cons_self⟩
  exact ⟨hparsed, rfl, rfl, hparsed.parse_render rfl⟩

end ScriptFront
