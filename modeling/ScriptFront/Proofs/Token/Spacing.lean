import ScriptFront.Proofs.Parser.Ends
import ScriptFront.Proofs.Syntax.Rendering
import ScriptFront.Proofs.Token.Boundary
import ScriptFront.Proofs.Token.Forms

/-!
# Blanks between tokens

A blank goes on with no lexeme, so it parts the text before it from the text behind it: each is read
as it is alone (`tokens_separated`). Only a string that is left open would go over it. So tokens
that are written one behind the other with blanks between them are read as the same tokens
(`tokens_spaced`).
-/

namespace ScriptFront

open Text

theorem Lexeme.breaks_of_isBlank {c : Char} (h : isBlank c) : Breaks c := by
  rcases isBlank_iff.1 h with rfl | rfl | rfl | rfl <;> decide

namespace Tape

variable {file : String} {n : Nat}

/-! ## A text in front of another one -/

/-- A text that leaves no string open is read as it is alone in front of what goes on with
nothing. -/
theorem tokens_before_break {cs : List Char}
    (hclosed : ∀ t ∈ (Tape.mk file n (cs ++ ['\x00'])).tokens, ¬ t.Unclosed) {c : Char}
    (hc : Lexeme.Breaks c) (more : List Char) :
    ∃ ts, (Tape.mk file n (cs ++ ['\x00'])).tokens = ts ++ [.atEnd file (n + width cs)] ∧
      (Tape.mk file n (cs ++ c :: more)).tokens =
        ts ++ (Tape.mk file (n + width cs) (c :: more)).tokens := by
  induction cuts '\x00' cs generalizing n with
  | blank _ hnul => exact (not_isBlank_nul hnul).elim
  | @last gap body kind hgap _ hx =>
    rw [hx.nul_last, List.append_nil]
    exact ⟨[], tokens_nul hgap, tokens_gap hgap _⟩
  | @lexeme gap read echo rest kind hgap _ hx _ ih =>
    simp only [List.append_assoc] at hclosed ⊢
    have hx' := shaped_replace hx (closed_of_tokens hgap hx hclosed) (by decide) hc more
    obtain ⟨ts, halone, hbefore⟩ := ih (closed_behind hgap hx hclosed)
    refine ⟨⟨kind, String.ofList (read ++ echo),
      .between (n + width gap) (n + width gap + width read) file⟩ :: ts, ?_, ?_⟩
    · rw [tokens_cons hgap hx (by simp), halone]
      simp [Nat.add_assoc]
    · rw [tokens_cons hgap hx' (by simp), hbefore]
      simp [Nat.add_assoc]

end Tape

/-- Two texts with blanks between them are read as they are alone: the first without its end, the
other one further on. The first leaves no string open. If all is not too long for its offsets, these
are as many bytes more as stand in front. -/
theorem Lexer.tokens_separated (file a w b : String)
    (hclosed : ∀ t ∈ (ofString file a).tokens, ¬ t.Unclosed) (hne : w ≠ "")
    (hblank : ∀ c ∈ w.toList, isBlank c) :
    ∃ ts, (ofString file a).tokens = ts ++ [.atEnd file a.utf8ByteSize] ∧
      (ofString file (a ++ w ++ b)).tokens =
        ts ++ respan (Span.moved (a.utf8ByteSize + w.utf8ByteSize)) (ofString file b).tokens ∧
      ((a ++ w ++ b).utf8ByteSize < 2 ^ 32 →
        ∀ t ∈ (ofString file b).tokens, t.span.Moves (a.utf8ByteSize + w.utf8ByteSize)) := by
  obtain ⟨c, cs, hw⟩ := List.exists_cons_of_ne_nil (mt String.toList_eq_nil_iff.1 hne)
  have hc : Lexeme.Breaks c := Lexeme.breaks_of_isBlank (hblank c (by simp [hw]))
  rw [tokens_ofString] at hclosed ⊢
  obtain ⟨ts, halone, hbefore⟩ :=
    Tape.tokens_before_break hclosed hc (cs ++ (b.toList ++ ['\x00']))
  rw [Nat.zero_add, width_toList] at halone hbefore
  refine ⟨ts, halone, ?_, fun hfits t => moves_of_mem (by simpa [limit_ofString] using hfits)⟩
  calc (ofString file (a ++ w ++ b)).tokens
    _ = (Tape.mk file 0 (a.toList ++ c :: (cs ++ (b.toList ++ ['\x00'])))).tokens := by
      simp [tokens_ofString, hw]
    _ = ts ++ (Tape.mk file a.utf8ByteSize (w.toList ++ (b.toList ++ ['\x00']))).tokens := by
      rw [hbefore, hw, List.cons_append]
    _ = ts ++ (Tape.mk file (a.utf8ByteSize + w.utf8ByteSize) (b.toList ++ ['\x00'])).tokens := by
      rw [Tape.tokens_gap hblank, width_toList]
    _ = ts ++ respan (Span.moved (a.utf8ByteSize + w.utf8ByteSize)) (ofString file b).tokens := by
      rw [tokens_ofString, ← Tape.tokens_moved, Tape.moved, Nat.zero_add]

/-- Neither a `!` before a `=` nor a point before a digit goes over a line break. -/
theorem tokens_separated_operator :
    let a := "\"é\" 1. !"
    let b := "= 5 '"
    (∀ t ∈ (Lexer.ofString "shell" a).tokens, ¬ t.Unclosed) ∧ "\r\n" ≠ "" ∧
      (∀ c ∈ "\r\n".toList, isBlank c) ∧
      ∃ ts, (Lexer.ofString "shell" a).tokens = ts ++ [.atEnd "shell" a.utf8ByteSize] ∧
        (Lexer.ofString "shell" (a ++ "\r\n" ++ b)).tokens =
          ts ++ respan (Span.moved (a.utf8ByteSize + "\r\n".utf8ByteSize))
            (Lexer.ofString "shell" b).tokens ∧
        ((a ++ "\r\n" ++ b).utf8ByteSize < 2 ^ 32 → ∀ t ∈ (Lexer.ofString "shell" b).tokens,
          t.span.Moves (a.utf8ByteSize + "\r\n".utf8ByteSize)) := by
  intro a b
  have hclosed : ∀ t ∈ (Lexer.ofString "shell" a).tokens, ¬ t.Unclosed := by decide
  have hblank : ∀ c ∈ "\r\n".toList, isBlank c := List.all_eq_true.1 (by decide)
  exact ⟨hclosed, by decide, hblank,
    Lexer.tokens_separated "shell" a "\r\n" b hclosed (by decide) hblank⟩

/-! ## Tokens in a row -/

/-- The text shows the tokens one behind the other, with blanks between them. -/
inductive Spaced : List Token → List Char → Prop where
  | nil : Spaced [] []
  | last (t : Token) : Spaced [t] t.text.toList
  | cons {t u : Token} {ts : List Token} {gap text : List Char} : gap ≠ [] →
      (∀ c ∈ gap, isBlank c) → Spaced (u :: ts) text →
      Spaced (t :: u :: ts) (t.text.toList ++ (gap ++ text))

namespace Tape

variable {file : String} {n : Nat} {rest : List Char} {t : Token}

/-- The text of a token that is legal is read as that token. -/
theorem tokens_text (ht : t.Lexed) (hk : t.kind ≠ .illegal) (hrest : Stops rest) :
    (Tape.mk file n (t.text.toList ++ rest)).tokens =
      ⟨t.kind, t.text, .between n (n + width t.text.toList) file⟩ ::
        (Tape.mk file (n + width t.text.toList) rest).tokens := by
  obtain ⟨rest', hx⟩ := ht.shaped hk
  have hx := hx.behind (fun hopen => hk hopen.1) (.inr ⟨rfl, hrest⟩)
  have hne : rest ≠ [] := by
    rintro rfl
    obtain ⟨c, hc, -⟩ := hrest
    cases hc
  have htokens := @tokens_cons file n [] _ _ _ _ (by simp) hx hne
  simpa using htokens

theorem tokens_of_spaced {ts : List Token} {text : List Char} (h : Spaced ts text)
    (hts : ∀ t ∈ ts, t.Lexed ∧ t.kind ≠ .illegal) (n : Nat) :
    ∃ us, (Tape.mk file n (text ++ ['\x00'])).tokens = us ++ [.atEnd file (n + width text)] ∧
      Alike us ts := by
  have hnul : Stops ['\x00'] := stops_cons (by decide) []
  induction h generalizing n with
  | nil => exact ⟨[], tokens_end file n, .refl []⟩
  | last t =>
    obtain ⟨ht, hk⟩ := hts t List.mem_cons_self
    refine ⟨[⟨t.kind, t.text, .between n (n + width t.text.toList) file⟩], ?_, rfl⟩
    rw [tokens_text ht hk hnul, tokens_end]
    rfl
  | @cons t u ts gap text hne hgap _ ih =>
    obtain ⟨⟨ht, hk⟩, hts⟩ := List.forall_mem_cons.1 hts
    obtain ⟨c, cs, rfl⟩ := List.exists_cons_of_ne_nil hne
    have hstops : Stops (c :: (cs ++ (text ++ ['\x00']))) :=
      stops_cons (Lexeme.breaks_of_isBlank (hgap c List.mem_cons_self)) _
    obtain ⟨us, htokens, halike⟩ := ih hts (n + width t.text.toList + width (c :: cs))
    refine ⟨⟨t.kind, t.text, .between n (n + width t.text.toList) file⟩ :: us, ?_, ?_⟩
    · rw [List.append_assoc, List.append_assoc, List.cons_append, tokens_text ht hk hstops,
        ← List.cons_append, tokens_gap hgap, htokens]
      simp [Nat.add_assoc]
    · exact congrArg (respan Span.forget t :: ·) halike

end Tape

namespace Lexer

theorem lexed_of_mem {file source : String} {t : Token} (ht : t ∈ (ofString file source).tokens) :
    t.Lexed := by
  rw [tokens_ofString] at ht
  obtain ⟨i, hi⟩ := List.mem_iff_getElem?.1 ht
  obtain ⟨-, x, hx, -, -, -, hkind, htext⟩ := @Tape.tokens_shaped file [] _ i t hi
  exact ⟨x, hx, hkind, htext⟩

/-- Tokens of a source without an illegal one, written one behind the other with blanks between
them, are read as the same kinds and texts. The end of the source is not written. -/
theorem tokens_spaced {file source : String}
    (hlegal : ∀ t ∈ (ofString file source).tokens, t.kind ≠ .illegal) {text : String}
    (htext : Spaced (ofString file source).tokens.dropLast text.toList) (file' : String) :
    Alike (ofString file' text).tokens (ofString file source).tokens := by
  obtain ⟨ts, htokens⟩ := List.getLast?_eq_some_iff.1 (tokens_getLast? file source)
  rw [htokens, List.dropLast_concat] at htext
  have hts : ∀ t ∈ ts, t.Lexed ∧ t.kind ≠ .illegal := fun t ht =>
    have hmem : t ∈ (ofString file source).tokens := by simp [htokens, ht]
    ⟨lexed_of_mem hmem, hlegal t hmem⟩
  obtain ⟨us, hread, halike⟩ := @Tape.tokens_of_spaced file' ts _ htext hts 0
  have halike : respan Span.forget us = respan Span.forget ts := halike
  rw [tokens_ofString, hread, htokens, Alike, respan_append, respan_append, halike]
  rfl

end Lexer

/-- A word, a `NUL`, a string with the other quote and a line break in it, and a number that ends
with its point. -/
theorem tokens_spaced_nul :
    let source := "if\x00'a\"\n'1."
    let text := "if \x00\t'a\"\n'\r\n1."
    (∀ t ∈ (Lexer.ofString "shell" source).tokens, t.kind ≠ .illegal) ∧
      Spaced (Lexer.ofString "shell" source).tokens.dropLast text.toList ∧
      Alike (Lexer.ofString "shell" text).tokens (Lexer.ofString "shell" source).tokens := by
  intro source text
  have hlegal : ∀ t ∈ (Lexer.ofString "shell" source).tokens, t.kind ≠ .illegal := by decide
  have htokens : (Lexer.ofString "shell" source).tokens.dropLast =
      [⟨.ifWord, "if", ⟨0, 2, "shell"⟩⟩, ⟨.eof, "\x00", ⟨2, 3, "shell"⟩⟩,
        ⟨.string, "'a\"\n'", ⟨3, 8, "shell"⟩⟩, ⟨.float, "1.", ⟨8, 10, "shell"⟩⟩] := by decide
  have hsplit : text.toList = "if".toList ++ (" ".toList ++ ("\x00".toList ++ ("\t".toList ++
      ("'a\"\n'".toList ++ ("\r\n".toList ++ "1.".toList))))) := by decide
  have htext : Spaced (Lexer.ofString "shell" source).tokens.dropLast text.toList := by
    rw [htokens, hsplit]
    refine .cons (by decide) (List.all_eq_true.1 (by decide)) ?_
    refine .cons (by decide) (List.all_eq_true.1 (by decide)) ?_
    exact .cons (by decide) (List.all_eq_true.1 (by decide)) (.last _)
  exact ⟨hlegal, htext, Lexer.tokens_spaced hlegal htext "shell"⟩

end ScriptFront
