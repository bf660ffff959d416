import ScriptFront.Proofs.Token.Tiling

/-!
# The character that ends the input

A lexer whose input ends with some character reads the same tokens as one whose source goes on with
that character: only the token of the end is not there, and the last span does not go past the
source. That needs a source in which every string is closed, since what is left open there would be
closed by a quote behind it. Kinds, texts and starts are the same however long the source is. Where
the longer one has an offset that starts again from zero, its last stop is not that of the other.
-/

namespace ScriptFront

open Text

/-- A string that no quote closes. -/
def Token.Unclosed (t : Token) : Prop := t.kind = .illegal ∧ ∃ c ∈ t.text.toList.head?, isQuote c

instance (t : Token) : Decidable t.Unclosed :=
  inferInstanceAs (Decidable (t.kind = .illegal ∧ ∃ c ∈ t.text.toList.head?, isQuote c))

/-- The token with a span that stops at the offset `n` at the latest. -/
def Token.cappedAt (n : Nat) (t : Token) : Token :=
  { t with span := { t.span with stop := .ofNat (min t.span.stop.toNat n) } }

/-- What a token is and where it starts. -/
def Token.opening (t : Token) : Kind × String × UInt32 := (t.kind, t.text, t.span.start)

theorem Token.cappedAt_of_le {t : Token} {n start stop : Nat} {file : String} (hn : n < 2 ^ 32)
    (hspan : t.span = .between start stop file) (hstop : stop ≤ n) : t.cappedAt n = t := by
  have hle : t.span.stop.toNat ≤ n := by
    rw [hspan, Span.between_stop_toNat (by omega)]
    exact hstop
  simp [cappedAt, hle]

namespace Lexeme

variable {kind : Kind} {read echo rest : List Char}

/-- A string that is not closed leaves the last character at most, whichever that is. -/
theorem Shaped.unclosed_before (h : Shaped ⟨kind, read, echo, rest⟩)
    (hunclosed : Unclosed ⟨kind, read, echo, rest⟩) :
    rest.length ≤ 1 ∧ echo = [] ∧ ∀ c, Shaped ⟨kind, read, echo, [c]⟩ := by
  obtain ⟨hkind, first, hfirst, hquote⟩ := hunclosed
  cases h with
  | alone hc | paired hc => simp_all
  | string => cases hkind
  | @unclosed quote body last hq hbody =>
    refine ⟨by cases last <;> simp, rfl, fun c => ?_⟩
    exact @Shaped.unclosed quote body (some c) hq hbody (by simp)
  | word hc =>
    cases hfirst
    exact (not_isQuote_of_isWordChar (isWordChar_of_isLetter hc) hquote).elim
  | int | float => cases hkind
  | points hwhole =>
    cases hfirst
    have hword := isWordChar_of_isDigit (hwhole _ List.mem_cons_self)
    exact (not_isQuote_of_isWordChar hword hquote).elim
  | mark _ _ hnot =>
    cases hfirst
    exact (hnot hquote).elim

end Lexeme

/-- A lexeme that leaves nothing leaves `NUL` if that is behind it. -/
theorem Lexeme.Shaped.before_nul {kind : Kind} {read echo : List Char}
    (h : Shaped ⟨kind, read, echo, []⟩) : Shaped ⟨kind, read, echo, ['\x00']⟩ := by
  by_cases hclosed : Unclosed ⟨kind, read, echo, []⟩
  · exact (h.unclosed_before hclosed).2.2 '\x00'
  · exact h.behind hclosed (.inr ⟨h.echo_of_rest rfl, '\x00', rfl, by decide⟩)

namespace Tape

variable {file : String} {n : Nat} {gap read echo rest : List Char} {kind : Kind}

theorem tokens_nul (hgap : ∀ c ∈ gap, isBlank c) :
    (Tape.mk file n (gap ++ ['\x00'])).tokens = [.atEnd file (n + width gap)] := by
  exact @tokens_last file n gap [] .eof '\x00' hgap (.nul [])

theorem tokens_end (file : String) (n : Nat) :
    (Tape.mk file n ['\x00']).tokens = [.atEnd file n] :=
  @tokens_nul file n [] (by simp)

/-- Before `NUL` a string that is left open is read as one, so there is none. -/
theorem closed_of_tokens {c : Char} (hgap : ∀ d ∈ gap, isBlank d)
    (hx : Lexeme.Shaped ⟨kind, read, echo, rest ++ [c]⟩)
    (hclosed : ∀ t ∈ (Tape.mk file n (gap ++ (read ++ (rest ++ ['\x00'])))).tokens, ¬ t.Unclosed) :
    ¬ Lexeme.Unclosed ⟨kind, read, echo, rest ++ [c]⟩ := by
  intro hunclosed
  obtain ⟨hlength, hecho, hbefore⟩ := hx.unclosed_before hunclosed
  have hrest : rest = [] := by simpa using hlength
  subst hrest
  rw [List.nil_append, tokens_cons hgap (hbefore '\x00') (by simp)] at hclosed
  refine hclosed _ List.mem_cons_self ?_
  simpa [Token.Unclosed, Lexeme.Unclosed, hecho] using hunclosed

/-- Behind the first token, too, no string is left open. -/
theorem closed_behind {c : Char} (hgap : ∀ d ∈ gap, isBlank d)
    (hx : Lexeme.Shaped ⟨kind, read, echo, rest ++ [c]⟩)
    (hclosed : ∀ t ∈ (Tape.mk file n (gap ++ (read ++ (rest ++ ['\x00'])))).tokens, ¬ t.Unclosed) :
    ∀ t ∈ (Tape.mk file (n + width gap + width read) (rest ++ ['\x00'])).tokens, ¬ t.Unclosed := by
  cases rest with
  | nil =>
    rw [List.nil_append, tokens_end]
    simp [Token.Unclosed, Token.atEnd]
  | cons d rest =>
    have hx' : Lexeme.Shaped ⟨kind, read, echo, d :: rest ++ ['\x00']⟩ :=
      hx.behind (closed_of_tokens hgap hx hclosed) (.inl rfl)
    rw [tokens_cons hgap hx' (by simp)] at hclosed
    exact fun t ht => hclosed t (List.mem_cons_of_mem _ ht)

/-- A text that ends with `c` is read like one that has `NUL` behind that. -/
theorem tokens_ending {cs : List Char} {c : Char} (h : Cuts c cs)
    (hclosed : ∀ t ∈ (Tape.mk file n (cs ++ ['\x00'])).tokens, ¬ t.Unclosed) :
    ∃ ts us, (Tape.mk file n (cs ++ [c] ++ ['\x00'])).tokens =
        ts ++ [.atEnd file (n + width (cs ++ [c]))] ∧
      (Tape.mk file n (cs ++ [c])).tokens = us ∧ us.map (·.opening) = ts.map (·.opening) ∧
      (n + width (cs ++ [c]) < 2 ^ 32 → us = ts.map (·.cappedAt (n + width cs))) := by
  induction h generalizing n with
  | @blank gap hgap hc =>
    have hblank : ∀ d ∈ gap ++ [c], isBlank d := by simpa [or_imp, forall_and] using ⟨hgap, hc⟩
    exact ⟨[], [], tokens_nul hblank, tokens_blank hblank, rfl, fun _ => rfl⟩
  | @last gap body kind hgap hc hx =>
    simp only [List.append_assoc gap body]
    refine ⟨[⟨kind, String.ofList (body ++ [c]),
      .between (n + width gap) (n + width gap + width (body ++ [c])) file⟩], _, ?_,
      tokens_last hgap hx, rfl, fun hfits => ?_⟩
    · rw [List.append_assoc gap, tokens_cons hgap hx.before_nul (by simp), tokens_end]
      simp [Nat.add_assoc]
    · have hstop : n + width gap + width (body ++ [c]) < 2 ^ 32 := by
        simpa [Nat.add_assoc] using hfits
      have hmin : min (n + width gap + width (body ++ [c])) (n + width (gap ++ body)) =
          n + width gap + width body := by
        simp only [width_append]
        omega
      rw [List.map_singleton, Token.cappedAt, Span.between_stop_toNat hstop, hmin]
      rfl
  | @lexeme gap read echo rest kind hgap hread hx _ ih =>
    simp only [List.append_assoc] at hclosed
    obtain ⟨ts, us, hlong, hshort, hsame, hcapped⟩ := ih (closed_behind hgap hx hclosed)
    have hx' : Lexeme.Shaped ⟨kind, read, echo, rest ++ [c] ++ ['\x00']⟩ :=
      hx.behind (closed_of_tokens hgap hx hclosed) (.inl (by simp [List.head?_append]))
    let first : Token := ⟨kind, String.ofList (read ++ echo),
      .between (n + width gap) (n + width gap + width read) file⟩
    refine ⟨first :: ts, first :: us, ?_, ?_, congrArg (first.opening :: ·) hsame, fun hfits => ?_⟩
    · rw [List.append_assoc gap, List.append_assoc read, List.append_assoc gap,
        List.append_assoc read, tokens_cons hgap hx' (by simp), hlong]
      simp [first, Nat.add_assoc]
    · rw [List.append_assoc gap, List.append_assoc read, tokens_cons hgap hx (by simp), hshort]
    · simp only [List.append_assoc, width_append] at hfits hcapped ⊢
      rw [List.map_cons, Token.cappedAt_of_le (by omega) rfl (by omega)]
      simpa [Nat.add_assoc] using hcapped (by omega)

end Tape

/-- A character that ends the input is read like one more character of the source: the tokens are
the same up to the last, which is the end. They start at the same places, and no span goes past the
source. The stops are those of the longer source, which has to fit the offsets. -/
theorem Lexer.endingWith_tokens (file source : String) (c : Char)
    (hclosed : ∀ t ∈ (ofString file source).tokens, ¬ t.Unclosed) :
    ∃ ts us, (ofString file (source.push c)).tokens =
        ts ++ [.atEnd file (source.push c).utf8ByteSize] ∧
      ((ofString file source).endingWith c).tokens = us ∧
      us.map (·.opening) = ts.map (·.opening) ∧
      ((source.push c).utf8ByteSize < 2 ^ 32 →
        us = ts.map (·.cappedAt source.utf8ByteSize)) := by
  rw [tokens_tape, tape_ofString] at hclosed
  have hending := @Tape.tokens_ending file 0 _ c (Tape.cuts c source.toList) hclosed
  rw [tokens_tape, tokens_tape, tape_ofString, tape_endingWith, ← width_toList, ← width_toList]
  simpa using hending

/-- Behind so many spaces a name is the last that has an offset, and what is behind it is at zero
again. That does not come before the end of the shorter source. -/
theorem endingWith_tokens_wraps :
    let source := spaces (2 ^ 32 - 1)
    (∀ t ∈ (Lexer.ofString "shell" source).tokens, ¬ t.Unclosed) ∧
      ¬ ∃ ts, (Lexer.ofString "shell" (source.push 'x')).tokens =
          ts ++ [.atEnd "shell" (source.push 'x').utf8ByteSize] ∧
        ((Lexer.ofString "shell" source).endingWith 'x').tokens =
          ts.map (·.cappedAt source.utf8ByteSize) := by
  intro source
  have halone : (Lexer.ofString "shell" source).tokens = [.atEnd "shell" (2 ^ 32 - 1)] := by
    rw [Lexer.tokens_tape, Lexer.tape_ofString, Tape.tokens_spaces, Tape.tokens_end, Nat.zero_add]
  have hlong : (Lexer.ofString "shell" (source.push 'x')).tokens =
      [⟨.identifier, "x", 0xffffffff, 0, "shell"⟩, .atEnd "shell" (2 ^ 32)] := by
    rw [Lexer.tokens_tape, Lexer.tape_ofString, String.toList_push, List.append_assoc,
      Tape.tokens_spaces]
    decide
  have hshort : ((Lexer.ofString "shell" source).endingWith 'x').tokens =
      [⟨.identifier, "x", 0xffffffff, 0xffffffff, "shell"⟩] := by
    rw [Lexer.tokens_tape, Lexer.tape_endingWith, Tape.tokens_spaces]
    decide
  refine ⟨by rw [halone]; decide, ?_⟩
  rintro ⟨ts, hts, hcapped⟩
  have hfirst := congrArg List.dropLast (hlong.symm.trans hts)
  rw [List.dropLast_concat] at hfirst
  rw [← hfirst, hshort] at hcapped
  -- The stop of the one is the largest offset, and that of the other is zero.
  have hstop : (0xffffffff : UInt32) = 0 := by
    simpa [Token.cappedAt] using congrArg (List.map (·.span.stop)) hcapped
  exact absurd hstop (by decide)

/-- A quote that ends the input behind a word, a string and a number. -/
theorem endingWith_tokens_quote :
    let lx := Lexer.ofString "shell" "a \"b\" 1."
    (∀ t ∈ lx.tokens, ¬ t.Unclosed) ∧
      ∃ ts us, (Lexer.ofString "shell" ("a \"b\" 1.".push '"')).tokens =
          ts ++ [.atEnd "shell" ("a \"b\" 1.".push '"').utf8ByteSize] ∧
        (lx.endingWith '"').tokens = us ∧ us.map (·.opening) = ts.map (·.opening) ∧
        (("a \"b\" 1.".push '"').utf8ByteSize < 2 ^ 32 →
          us = ts.map (·.cappedAt "a \"b\" 1.".utf8ByteSize)) := by
  intro lx
  have hclosed : ∀ t ∈ lx.tokens, ¬ t.Unclosed := by decide
  exact ⟨hclosed, Lexer.endingWith_tokens "shell" "a \"b\" 1." '"' hclosed⟩

end ScriptFront
