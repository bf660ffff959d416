import ScriptFront.Proofs.Parser.Locality
import ScriptFront.Proofs.Syntax.Simulation
import ScriptFront.Proofs.Token.Boundary

/-!
# One source behind another

A source that is parsed without a diagnostic, ends with a semicolon and closes as many braces as it
opens is parsed in the same way in front of any other: no construct in it is still open where it
ends, so nothing in it looks at what is behind (`Simulation.inside`). The other source is then
parsed from a state that shows its tokens moved, and so to its statements moved, with its
diagnostics moved (`parses_moved`).
-/

namespace ScriptFront

open Parse Grammar

/-! ## Inside the first source -/

/-- `s` reads the tokens `us` and no more. `s'` stands before them, too, but in the tokens `ts` that
are ahead of `start`. They close `d` braces that they do not open. -/
structure State.Inside (start : State) (ts : List Token) (d : Nat) (us : List Token)
    (s s' : State) : Prop where
  reads : s.Reads us
  place : ∃ before, ts = before ++ us ∧ s' = start.skip before.length
  braces : us.countP (·.kind = .openCurly) + d ≤ us.countP (·.kind = .closeCurly)

/-- A source as it is read in front of another one. -/
structure State.Fronts (start : State) (ts : List Token) : Prop where
  shows : ∀ i t, ts[i]? = some t → start.token i = t
  closed : ∃ t ∈ ts.getLast?, t.kind = .semicolon

namespace State

variable {start s s' : State} {ts us : List Token} {u : Token} {d : Nat}

theorem Inside.advance (h : start.Inside ts d (u :: us) s s') {e : Nat}
    (hbraces : us.countP (·.kind = .openCurly) + e ≤ us.countP (·.kind = .closeCurly)) :
    start.Inside ts e us s.advance s'.advance where
  reads := h.reads.tail
  place := by
    obtain ⟨before, rfl, rfl⟩ := h.place
    exact ⟨before ++ [u], by simp, by rw [List.length_append, ← start.skip_succ]; rfl⟩
  braces := hbraces

theorem Inside.plain (h : start.Inside ts d (u :: us) s s')
    (hu : u.kind ≠ .openCurly ∧ u.kind ≠ .closeCurly) :
    start.Inside ts d us s.advance s'.advance := by
  refine h.advance ?_
  have := h.braces
  rwa [List.countP_cons_of_neg (by simpa using hu.1), List.countP_cons_of_neg (by simpa using hu.2)]
    at this

theorem Inside.openCurly (h : start.Inside ts d (u :: us) s s') (hu : u.kind = .openCurly) :
    start.Inside ts (d + 1) us s.advance s'.advance := by
  refine h.advance ?_
  have := h.braces
  rw [List.countP_cons_of_pos (by simpa using hu), List.countP_cons_of_neg (by simp [hu])] at this
  omega

theorem Inside.closeCurly (h : start.Inside ts (d + 1) (u :: us) s s') (hu : u.kind = .closeCurly) :
    start.Inside ts d us s.advance s'.advance := by
  refine h.advance ?_
  have := h.braces
  rw [List.countP_cons_of_neg (by simp [hu]), List.countP_cons_of_pos (by simpa using hu)] at this
  omega

theorem Inside.current_fst (h : start.Inside ts d (u :: us) s s') : s.current = u := h.reads.1

theorem Inside.current (h : start.Inside ts d (u :: us) s s') (hts : start.Fronts ts) :
    s.current = s'.current := by
  obtain ⟨before, rfl, rfl⟩ := h.place
  rw [h.reads.1, start.skip_current, hts.shows before.length u (by simp)]

/-- Only a semicolon is the last of the tokens. -/
theorem Inside.ne_nil (h : start.Inside ts d (u :: us) s s') (hts : start.Fronts ts)
    (hu : u.kind ≠ .semicolon) : us ≠ [] := by
  rintro rfl
  obtain ⟨before, rfl, -⟩ := h.place
  obtain ⟨t, ht, hsemi⟩ := hts.closed
  rw [List.getLast?_concat] at ht
  cases ht
  exact hu hsemi

end State

namespace Simulation

variable {start : State} {ts : List Token}

/-- A run on a source alone, and one on the source in front of another. -/
def inside (hts : start.Fronts ts) : Simulation where
  Enters d s s' := ∃ u us, start.Inside ts d (u :: us) s s'
  Leaves d s s' := ∃ u us, start.Inside ts d (u :: us) s.advance s'.advance
  Ends d s s' := ∃ us, start.Inside ts d us s.advance s'.advance
  current := by
    rintro d s s' ⟨u, us, h⟩
    exact h.current hts
  leave := by
    rintro d s s' ⟨u, us, h⟩ hk
    simp only [h.current_fst, List.mem_cons, List.not_mem_nil, or_false, not_or] at hk
    obtain ⟨v, vs, rfl⟩ := List.exists_cons_of_ne_nil (h.ne_nil hts hk.2.2)
    exact ⟨v, vs, h.plain ⟨hk.1, hk.2.1⟩⟩
  openCurly := by
    rintro d s s' ⟨u, us, h⟩ hk
    rw [h.current_fst] at hk
    obtain ⟨v, vs, rfl⟩ := List.exists_cons_of_ne_nil (h.ne_nil hts (by simp [hk]))
    exact ⟨v, vs, h.openCurly hk⟩
  close := by
    rintro d s s' ⟨u, us, h⟩ hend
    have hk : u.kind = .closeCurly := by
      rw [h.current_fst] at hend
      simpa [Scope.endsAt, h.reads.2.1] using hend
    obtain ⟨v, vs, rfl⟩ := List.exists_cons_of_ne_nil (h.ne_nil hts (by simp [hk]))
    exact ⟨v, vs, h.closeCurly hk⟩
  advance h _ := h
  peek := by
    rintro d s s' ⟨u, us, h⟩
    exact .inl (congrArg Token.kind (h.current hts).symm)
  semicolon := by
    rintro d s s' ⟨u, us, h⟩
    have hpeek : s'.peek = s.peek := (h.current hts).symm
    rw [hpeek]
    split
    · rename_i hk
      have hu : u.kind = .semicolon := by rw [← h.current_fst]; exact hk
      exact ⟨us, h.plain (by simp [hu])⟩
    · exact ⟨u :: us, h⟩
  next := by
    rintro d s s' ⟨us, h⟩ -
    cases us with
    | nil => exact absurd h.braces (by simp)
    | cons u us => exact ⟨u, us, h⟩

end Simulation

/-! ## Behind the first source -/

theorem parses_stmts_cons {scope : Scope} {s t u : State} {first : Stmt} {others : List Stmt}
    (hs : ¬ scope.endsAt s.current.kind) (hfirst : standard.parses .stmt s = .done first t)
    (hothers : standard.parses (.stmts scope) t.advance = .done others u) :
    standard.parses (.stmts scope) s = .done (first :: others) u := by
  have hrecover : recover (standard.parses .stmt) s = .done (some first) t := by
    simp only [recover, hfirst]
  calc standard.parses (.stmts scope) s
    _ = standard.layer standard.parses (.stmts scope) s := parses_eq standard_grounded _ s
    _ = (recover (standard.parses .stmt) >>= fun first => advance >>= fun _ =>
          standard.parses (.stmts scope) >>= fun others => pure (first.toList ++ others)) s :=
      congrFun (if_neg hs) s
    _ = (standard.parses (.stmts scope) >>= fun others => pure (first :: others)) t.advance :=
      bind_done hrecover
    _ = .done (first :: others) u := bind_done hothers

/-- The statements of the first source are parsed, and then those from behind it. -/
theorem parses_inside {start : State} {ts : List Token} (hts : start.Fronts ts) {n : Nat}
    {s s' t v : State} {us : List Token} {body others : List Stmt}
    (h : (standard.run n (.stmts .script)).Clean s body t) (hs : start.Inside ts 0 us s s')
    (hothers : standard.parses (.stmts .script) (start.skip ts.length) = .done others v) :
    standard.parses (.stmts .script) s' = .done (body ++ others) v := by
  induction n generalizing s s' us body with
  | zero => cases h.1
  | succ n ih =>
    have h := clean_stmts.1 h
    split at h
    · rename_i hend
      obtain ⟨rfl, rfl⟩ := h
      have hnil : us = [] := hs.reads.eq_nil (by simpa [Scope.endsAt] using hend)
      obtain ⟨before, rfl, rfl⟩ := hs.place
      simpa [hnil] using hothers
    · rename_i hend
      obtain ⟨first, u, hfirst, rest, hrest, rfl⟩ := h
      cases us with
      | nil => exact (hend (by simp [Scope.endsAt, hs.reads.current_eof])).elim
      | cons w us =>
        obtain ⟨u', hfirst', us', hu⟩ :=
          ((Simulation.inside hts).copied n).stmt 0 hfirst ⟨w, us, hs⟩
        rw [hs.current hts] at hend
        exact parses_stmts_cons hend hfirst'.1 (ih hrest hu)

/-! ## Moved sources -/

def Diagnostic.moved (k : Nat) (d : Diagnostic) : Diagnostic :=
  { d with position := { d.position with offset := d.position.offset + k } }

/-- Where the tokens of a source are shown `k` bytes further on its statements are parsed, and its
diagnostics recorded, as if they stood there. -/
theorem parses_moved {k n : Nat} {s s' t : State} {body : List Stmt}
    (h : standard.run n (.stmts .script) s = .done body t) (hs : s.diagnostics = #[])
    (hs' : s'.diagnostics = #[])
    (hmoved : ∀ i, s'.token i = respan (Span.moved k) (s.token i)) :
    ∃ t', standard.parses (.stmts .script) s' = .done (respan (Span.moved k) body) t' ∧
      t'.diagnostics.toList = t.diagnostics.toList.map (Diagnostic.moved k) := by
  rcases (standard.run_local n).stmts .script () s with hstarved | ⟨m, marks, r, hr, hcont⟩
  · cases h.symm.trans hstarved
  cases r with
  | error mark => cases h.symm.trans hr
  | ok a =>
    cases h.symm.trans hr
    obtain ⟨r', hr', hrun⟩ := hcont (Goal.cost (.stmts .script) s') (Span.moved k) id () s' rfl
      fun i _ => (hmoved i).symm
    cases r' with
    | error mark => cases hr'
    | ok body' =>
      have hbody : respan (Span.moved k) body = body' := by
        rw [← respan_list_id Stmt.respan_id body']
        exact Except.ok.inj hr'
      subst hbody
      refine ⟨s'.after m marks,
        (run_eq_parses standard_grounded (Nat.le_add_left ..)).symm.trans hrun, ?_⟩
      have hdiagnose (mark : Mark) : s'.diagnose mark = (s.diagnose mark).moved k := by
        rw [State.diagnose, hmoved]
        rfl
      simp [State.after, hs, hs', hdiagnose]

/-- A source that is parsed without a diagnostic, ends with a semicolon and closes as many braces as
it opens can be put in front of any other: the statements are its own, and behind them those of the
other, which stand further on by its length, as do the diagnostics. If both are not too long for
their offsets, these are as many bytes more. -/
theorem parse_append {file a : String} {program : Program} {p : Parser}
    (hnul : '\x00' ∉ a.toList) (hparse : parse file a = some (.ok program, p))
    (hclean : p.diagnostics = [])
    (hlast : ∃ t ∈ (Lexer.ofString file a).script.getLast?, t.kind = .semicolon)
    (hbraces : (Lexer.ofString file a).script.countP (·.kind = .closeCurly) =
      (Lexer.ofString file a).script.countP (·.kind = .openCurly)) (b : String) :
    ∃ behind q r, parse file b = some (.ok behind, q) ∧
      parse file (a ++ b) =
        some (.ok ⟨program.body ++ respan (Span.moved a.utf8ByteSize) behind.body⟩, r) ∧
      r.diagnostics = q.diagnostics.map (Diagnostic.moved a.utf8ByteSize) ∧
      ((a ++ b).utf8ByteSize < 2 ^ 32 →
        ∀ t ∈ (Lexer.ofString file b).tokens, t.span.Moves a.utf8ByteSize) := by
  obtain ⟨hshows, hmoved⟩ := Lexer.stream_append hnul hlast b
  have hreads := State.reads_ofLexer (Lexer.endsOnce_of_semicolon hnul hlast)
  generalize (Lexer.ofString file a).script = ts at *
  let start := State.ofLexer (Lexer.ofString file (a ++ b))
  have hfronts : start.Fronts ts :=
    ⟨fun i t ht => by rw [State.token_ofLexer, hshows i t ht], hlast⟩
  have hinside : start.Inside ts 0 ts (State.ofLexer (Lexer.ofString file a)) start :=
    ⟨hreads, ⟨[], rfl, rfl⟩, Nat.le_of_eq hbraces.symm⟩
  -- Behind the first source the parser shows what it shows of the other alone.
  have hbehind (i : Nat) : (start.skip ts.length).token i =
      respan (Span.moved a.utf8ByteSize) ((State.ofLexer (Lexer.ofString file b)).token i) := by
    rw [State.token_skip, State.token_ofLexer, State.token_ofLexer, hmoved]
  obtain ⟨behind, t, hparse', hrun⟩ :=
    (Parser.ofLexer (Lexer.ofString file b)).program_ok standard_grounded
  obtain ⟨v, hv, hdiagnostics⟩ :=
    parses_moved hrun rfl (start.skip_diagnostics ts.length) hbehind
  have hall := parses_inside hfronts (Parser.program_clean hparse hclean) hinside hv
  exact ⟨behind, _, _, hparse', Parser.program_of_parses hall, hdiagnostics, fun hfits t =>
    Lexer.moves_of_mem (by simpa [Lexer.limit_ofString] using hfits)⟩

/-- A function, and a source behind it that goes on with nothing and breaks off. -/
theorem parse_append_broken :
    let a := "let f = fn(x) \x7b x; \x7d; "
    let b := "- f(1; \x7b [2]"
    let lx := Lexer.ofString "shell" a
    '\x00' ∉ a.toList ∧ (∃ t ∈ lx.script.getLast?, t.kind = .semicolon) ∧
      lx.script.countP (·.kind = .closeCurly) = lx.script.countP (·.kind = .openCurly) ∧
      ∃ program p, parse "shell" a = some (.ok program, p) ∧ p.diagnostics = [] ∧
        ∃ behind q r, parse "shell" b = some (.ok behind, q) ∧
          parse "shell" (a ++ b) =
            some (.ok ⟨program.body ++ respan (Span.moved a.utf8ByteSize) behind.body⟩, r) ∧
          r.diagnostics = q.diagnostics.map (Diagnostic.moved a.utf8ByteSize) ∧
          ((a ++ b).utf8ByteSize < 2 ^ 32 →
            ∀ t ∈ (Lexer.ofString "shell" b).tokens, t.span.Moves a.utf8ByteSize) := by
  intro a b lx
  have hnul : '\x00' ∉ a.toList := by decide
  have hlast : ∃ t ∈ lx.script.getLast?, t.kind = .semicolon :=
    ⟨⟨.semicolon, ";", ⟨20, 21, "shell"⟩⟩, by decide, rfl⟩
  have hbraces : lx.script.countP (·.kind = .closeCurly) =
      lx.script.countP (·.kind = .openCurly) := by decide
  obtain ⟨program, p, hparse, hclean⟩ : ∃ program p,
      parse "shell" "let f = fn(x) \x7b x; \x7d; " = some (.ok program, p) ∧
        p.diagnostics = [] := by
    refine ⟨_, _, rfl, ?_⟩
    rfl
  exact ⟨hnul, hlast, hbraces, program, p, hparse, hclean,
    parse_append hnul hparse hclean hlast hbraces b⟩

end ScriptFront
