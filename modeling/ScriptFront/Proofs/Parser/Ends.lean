import ScriptFront.Proofs.Parser.Stream
import ScriptFront.Proofs.Token.Ending

/-!
# The end of the input

The tokens of a source end with one that says that the input is over. A `NUL` of the source says
so as well, wherever it is not in a string. So a lexer gives one such token, gives nothing behind it
and has a parser read its whole source just for those sources that have each `NUL` in a string
(`one_end_iff`).
-/

namespace ScriptFront

open Text

/-! ## `NUL` in a lexeme -/

/-- A string, closed or not. -/
def Token.IsQuoted (t : Token) : Prop := ∃ c ∈ t.text.toList.head?, isQuote c

instance (t : Token) : Decidable t.IsQuoted :=
  inferInstanceAs (Decidable (∃ c ∈ t.text.toList.head?, isQuote c))

/-- A lexeme that has a `NUL` in it is a string that leaves something, or says that the input is
over. -/
theorem Lexeme.Shaped.nul_mem {x : Lexeme} (h : x.Shaped) (hnul : '\x00' ∈ x.read) :
    (∃ c ∈ x.read.head?, isQuote c) ∧ x.rest ≠ [] ∨ x.read = ['\x00'] ∧ x.kind = .eof := by
  have hword : ¬ isWordChar '\x00' := by decide
  have hquote : ¬ isQuote '\x00' := by decide
  have hdigits {cs : List Char} (hcs : ∀ d ∈ cs, isDigit d) : '\x00' ∉ cs := fun hmem =>
    hword (isWordChar_of_isDigit (hcs _ hmem))
  cases h with
  | alone hc | paired hc =>
    simp only [List.mem_cons, Prod.mk.injEq, List.not_mem_nil, or_false] at hc
    rcases hc with ⟨rfl, -⟩ | ⟨rfl, -⟩ <;> simp at hnul
  | string hq _ hrest => exact .inl ⟨⟨_, rfl, hq⟩, hrest⟩
  | @unclosed quote body last hq _ hlast =>
    refine .inl ⟨⟨_, rfl, hq⟩, fun hrest => ?_⟩
    obtain rfl := hlast (by simpa using hrest)
    rw [List.mem_singleton.1 hnul] at hquote
    exact hquote hq
  | word hc hcs =>
    rcases List.mem_cons.1 hnul with rfl | hnul
    · exact (hword (isWordChar_of_isLetter hc)).elim
    · exact (hword (hcs _ hnul)).elim
  | int hwhole => exact (hdigits hwhole hnul).elim
  | float hwhole hpart | points hwhole hpart =>
    simp only [← List.cons_append] at hnul
    rcases List.mem_append.1 hnul with hnul | hnul
    · exact (hdigits hwhole hnul).elim
    · rcases List.mem_cons.1 hnul with hpoint | hnul
      · exact absurd hpoint (by decide)
      · exact (hdigits hpart hnul).elim
  | mark =>
    obtain rfl := List.mem_singleton.1 hnul
    exact .inr ⟨rfl, rfl⟩

/-- A lexeme that takes a `NUL` at the end of its text is that `NUL`. -/
theorem Lexeme.Shaped.nul_last {kind : Kind} {body : List Char}
    (h : Shaped ⟨kind, body ++ ['\x00'], [], []⟩) : body = [] := by
  rcases h.nul_mem (by simp) with ⟨-, hrest⟩ | ⟨hread, -⟩
  · exact (hrest rfl).elim
  · simpa using hread

/-- A `NUL` in a token says that the input is over, or stands in a string, which is longer. -/
theorem Lexeme.Shaped.nul_split {kind : Kind} {read echo rest before behind : List Char}
    (h : Shaped ⟨kind, read, echo, rest⟩) (hread : read = before ++ '\x00' :: behind) :
    kind = .eof ∨ (∃ c ∈ (read ++ echo).head?, isQuote c) ∧ 0 < width before ∧
      width before < width read := by
  rcases h.nul_mem (show '\x00' ∈ read by simp [hread]) with ⟨⟨c, hc, hquote⟩, -⟩ | ⟨-, hkind⟩
  · refine .inr ⟨⟨c, by simp_all [List.head?_append], hquote⟩, ?_, ?_⟩
    · refine Nat.pos_of_ne_zero fun hzero => ?_
      -- A string starts with its quote.
      rw [hread, width_eq_zero hzero] at hc
      cases hc
      exact absurd hquote (by decide)
    · have : 0 < Char.utf8Size '\x00' := Char.utf8Size_pos _
      rw [hread, width_append, width_cons]
      omega
  · exact .inl hkind

/-! ## `NUL` in a source -/

/-- A character of two texts put together is in the one or in the other. -/
theorem append_eq_append_cons {α : Type} {c : α} {xs ys before behind : List α}
    (h : xs ++ ys = before ++ c :: behind) :
    (∃ mid, xs = before ++ c :: mid) ∨ ∃ mid, before = xs ++ mid ∧ ys = mid ++ c :: behind := by
  rcases List.append_eq_append_iff.1 h with ⟨mid, hbefore, hys⟩ | ⟨mid, hxs, hbehind⟩
  · exact .inr ⟨mid, hbefore, hys⟩
  · cases mid with
    | nil => exact .inr ⟨[], by simpa using hxs.symm, by simpa using hbehind.symm⟩
    | cons d mid =>
      obtain ⟨rfl, -⟩ := List.cons.inj hbehind
      exact .inl ⟨mid, hxs⟩

/-- A string goes on at this offset of the source. -/
def Lexer.InString (lx : Lexer) (n : Nat) : Prop :=
  ∃ i t, lx.tokens[i]? = some t ∧ t.IsQuoted ∧ lx.startOf i < n ∧ n < lx.stopOf i

namespace Tape

/-- The tokens `ts` that come off the tape tell the `NUL`s of the text `cs` from what stands in a
string: each is the one or the other, and nothing else says that the input is over. -/
structure Nuls (tape : Tape) (cs : List Char) (ts : List Token) : Prop where
  told : ∀ before behind, cs = before ++ '\x00' :: behind → ∃ i t, ts[i]? = some t ∧
    (t.kind = .eof ∨ t.IsQuoted ∧ tape.startOf i < tape.offset + width before ∧
      tape.offset + width before < tape.stopOf i)
  start : ∀ i t, ts[i]? = some t → t.kind = .eof →
    ∃ before behind, cs = before ++ '\x00' :: behind ∧
      tape.startOf i = tape.offset + width before

variable {file : String} {n : Nat}

theorem not_isBlank_nul : ¬ isBlank '\x00' := by decide

theorem Nuls.blank {tape : Tape} {gap : List Char} (hgap : ∀ c ∈ gap, isBlank c) :
    Nuls tape gap [] where
  told before behind hcs := (not_isBlank_nul (hgap _ (by simp [hcs]))).elim
  start := nofun

/-- A lexeme adds the `NUL`s that it is read from. -/
theorem Nuls.lexeme {kind : Kind} {gap read echo rest ahead : List Char} {ts : List Token}
    (hgap : ∀ c ∈ gap, isBlank c) (hx : Lexeme.Shaped ⟨kind, read, echo, ahead⟩)
    (hahead : ahead ≠ []) (h : Nuls ⟨file, n + width gap + width read, ahead⟩ rest ts) :
    Nuls ⟨file, n, gap ++ (read ++ ahead)⟩ (gap ++ (read ++ rest))
      (⟨kind, String.ofList (read ++ echo),
        .between (n + width gap) (n + width gap + width read) file⟩ :: ts) := by
  have hnext := @next_cons file n _ _ _ _ _ hgap hx hahead
  have hstart : (Tape.mk file n (gap ++ (read ++ ahead))).startOf 0 = n + width gap :=
    congrArg Tape.offset (skipBlank_lexeme hgap hx)
  have hwidth (cs : List Char) : n + width (gap ++ (read ++ cs)) =
      n + width gap + width read + width cs := by simp [Nat.add_assoc]
  refine ⟨fun before behind hcs => ?_, fun i t ht hkind => ?_⟩
  · rcases append_eq_append_cons hcs with ⟨mid, rfl⟩ | ⟨inner, rfl, hinner⟩
    · exact (not_isBlank_nul (hgap '\x00' (by simp))).elim
    rcases append_eq_append_cons hinner with ⟨mid, hmid⟩ | ⟨tail, rfl, htail⟩
    · refine ⟨0, _, rfl, (hx.nul_split hmid).imp id ?_⟩
      rintro ⟨hquote, hpos, hlt⟩
      refine ⟨by simpa [Token.IsQuoted] using hquote, ?_⟩
      rw [hstart, stopOf_zero hnext, width_append]
      dsimp only
      omega
    · obtain ⟨i, t, ht, hplace⟩ := h.told tail behind htail
      refine ⟨i + 1, t, ht, ?_⟩
      rwa [startOf_succ hnext, stopOf_succ hnext, hwidth]
  · cases i with
    | zero =>
      obtain rfl := Option.some.inj ht
      have hmark : Kind.ofMark? '\x00' = some kind := (congrArg some hkind).symm
      obtain rfl : read = ['\x00'] := hx.read_of_mark hmark
      exact ⟨gap, rest, rfl, hstart⟩
    | succ i =>
      obtain ⟨before, behind, rfl, hplace⟩ := h.start i t ht hkind
      refine ⟨gap ++ (read ++ before), behind, by simp, ?_⟩
      rw [startOf_succ hnext, hplace, hwidth]

/-- Behind the tokens that tell the `NUL`s of a text there is the end. -/
theorem tokens_nuls {cs : List Char} (h : Cuts '\x00' cs) (n : Nat) :
    ∃ ts, (Tape.mk file n (cs ++ ['\x00'])).tokens = ts ++ [.atEnd file (n + width cs)] ∧
      Nuls ⟨file, n, cs ++ ['\x00']⟩ cs ts := by
  induction h generalizing n with
  | blank _ hnul => exact (not_isBlank_nul hnul).elim
  | @last gap body kind hgap _ hx =>
    rw [hx.nul_last, List.append_nil]
    exact ⟨[], tokens_nul hgap, .blank hgap⟩
  | @lexeme gap read echo rest kind hgap _ hx _ ih =>
    obtain ⟨ts, hts, hnuls⟩ := ih (n + width gap + width read)
    rw [List.append_assoc, List.append_assoc]
    refine ⟨_, ?_, hnuls.lexeme hgap hx (by simp)⟩
    rw [tokens_cons hgap hx (by simp), hts]
    simp [Nat.add_assoc]

end Tape

namespace Lexer

theorem tokens_getLast? (file source : String) :
    (ofString file source).tokens.getLast? = some (.atEnd file source.utf8ByteSize) := by
  obtain ⟨ts, htokens, -⟩ := @Tape.tokens_nuls file _ (Tape.cuts '\x00' source.toList) 0
  rw [Nat.zero_add, width_toList] at htokens
  rw [tokens_ofString, htokens, List.getLast?_concat]

/-- No token starts inside another one. -/
theorem not_between_startOf_stopOf (lx : Lexer) {i j : Nat} (h : lx.startOf j < lx.startOf i) :
    ¬ lx.startOf i < lx.stopOf j := by
  have hlt : j < i := Nat.lt_of_not_le fun hle => Nat.not_lt.2 (lx.startOf_mono hle) h
  exact Nat.not_lt.2 (Nat.le_trans (lx.stopOf_le_startOf_succ j) (lx.startOf_mono hlt))

/-- No token but the last says that the input is over just if each `NUL` of the source is in a
string. -/
theorem endsOnce_iff (file source : String) :
    (ofString file source).EndsOnce ↔ ∀ before behind, source.toList = before ++ '\x00' :: behind →
      (ofString file source).InString (width before) := by
  obtain ⟨ts, htokens, hnuls⟩ := @Tape.tokens_nuls file _ (Tape.cuts '\x00' source.toList) 0
  rw [← tape_ofString] at hnuls
  rw [← tokens_ofString] at htokens
  have hoffset : (ofString file source).tape.offset = 0 := rfl
  rw [EndsOnce, htokens, List.dropLast_concat]
  constructor
  · intro hnone before behind hsource
    obtain ⟨i, t, ht, hkind | ⟨hquoted, hplace⟩⟩ := hnuls.told before behind hsource
    · exact (hnone t (List.mem_of_getElem? ht) hkind).elim
    · rw [hoffset, Nat.zero_add, ← startOf_tape, ← stopOf_tape] at hplace
      have hlt := (List.getElem?_eq_some_iff.1 ht).1
      exact ⟨i, t, by rw [htokens, List.getElem?_append_left hlt, ht], hquoted, hplace⟩
  · intro hstrings t ht hkind
    obtain ⟨i, hi⟩ := List.mem_iff_getElem?.1 ht
    obtain ⟨before, behind, hsource, hplace⟩ := hnuls.start i t hi hkind
    rw [hoffset, Nat.zero_add, ← startOf_tape] at hplace
    obtain ⟨j, u, -, -, hlt, hgt⟩ := hstrings before behind hsource
    rw [← hplace] at hlt hgt
    exact not_between_startOf_stopOf _ hlt hgt

/-- Asked again and again, a lexer gives its tokens one by one. -/
theorem next_after (lx : Lexer) (n : Nat) : (lx.after n).next.1 = lx.tokens[n]? := by
  induction n generalizing lx with
  | zero =>
    show lx.next.1 = _
    match h : lx.next with
    | (none, after) => simp [tokens_of_none h]
    | (some t, after) => simp [tokens_of_some h]
  | succ n ih =>
    rw [after_succ, ih]
    cases h : lx.tokens with
    | nil => simp [(nextOrEnd_of_nil h).2]
    | cons t ts => simp [(nextOrEnd_of_cons h).2]

variable {lx : Lexer} {last t : Token}

theorem endsOnce_iff_countP (hlast : lx.tokens.getLast? = some last) (hkind : last.kind = .eof) :
    lx.EndsOnce ↔ lx.tokens.countP (·.kind = .eof) = 1 := by
  obtain ⟨ts, htokens⟩ := List.getLast?_eq_some_iff.1 hlast
  rw [EndsOnce, htokens, List.dropLast_concat, List.countP_append]
  simp [hkind]

/-- Behind a token that says that the input is over there is no other one. -/
theorem EndsOnce.length_le (h : lx.EndsOnce) {n : Nat} (ht : lx.tokens[n]? = some t)
    (hkind : t.kind = .eof) : lx.tokens.length ≤ n + 1 := by
  refine Nat.le_of_not_lt fun hlt => ?_
  have hdrop : lx.tokens.dropLast[n]? = some t := by
    rw [List.getElem?_dropLast, if_pos (by omega), ht]
  exact h t (List.mem_of_getElem? hdrop) hkind

theorem EndsOnce.getLast? (h : lx.EndsOnce) (ht : t ∈ lx.tokens) (hkind : t.kind = .eof) :
    lx.tokens.getLast? = some t := by
  obtain ⟨n, hn⟩ := List.mem_iff_getElem?.1 ht
  have hle := h.length_le hn hkind
  have hlt := (List.getElem?_eq_some_iff.1 hn).1
  rw [List.getLast?_eq_getElem?, ← hn]
  congr 1
  omega

/-- Once a lexer has said that the input is over, it gives nothing any more. -/
theorem EndsOnce.next_after (h : lx.EndsOnce) {m n : Nat} (hlt : m < n)
    (ht : t ∈ (lx.after m).next.1) (hkind : t.kind = .eof) : (lx.after n).next.1 = none := by
  rw [Lexer.next_after] at ht ⊢
  have := h.length_le ht hkind
  exact List.getElem?_eq_none (by omega)

end Lexer

/-! ## Where a program stops -/

/-- The statements of a script go on up to a token that says that the input is over. -/
theorem Grammar.run_script_stops (g : Grammar) (budget : Nat) {s t : State} {body : List Stmt}
    (h : g.run budget (.stmts .script) s = .done body t) : t.current.kind = .eof := by
  induction budget generalizing s body with
  | zero => cases h
  | succ budget ih =>
    simp only [Grammar.run, Grammar.layer] at h
    obtain ⟨token, u, hcurrent, h⟩ := Parse.bind_eq_done.1 h
    cases hcurrent
    split at h
    · rename_i hends
      cases h
      simpa [Scope.endsAt] using hends
    · -- What the first statement gives does not matter, nor where it stops.
      obtain ⟨first, v, -, h⟩ := Parse.bind_eq_done.1 h
      obtain ⟨-, w, -, h⟩ := Parse.bind_eq_done.1 h
      obtain ⟨others, x, hothers, h⟩ := Parse.bind_eq_done.1 h
      cases h
      exact ih hothers

/-- A program is parsed up to an end that the source says. -/
theorem Parser.parse_stops (file source : String) :
    ∃ program p, parse file source = some (.ok program, p) ∧ p.current.kind = .eof ∧
      (p.current ∈ (Lexer.ofString file source).tokens ∨
        p.current = .atEnd file source.utf8ByteSize) := by
  obtain ⟨program, s, hprogram, hrun⟩ :=
    (ofLexer (.ofString file source)).program_ok Grammar.standard_grounded
  refine ⟨program, _, hprogram, Grammar.run_script_stops _ _ hrun, ?_⟩
  obtain ⟨k, -, hk⟩ := (State.at_ofLexer _).reaches (Parse.Forward.done hrun)
  have hcurrent : s.current = _ := hk.current
  have := (Lexer.ofString file source).stream_mem k
  rw [← hcurrent, Lexer.limit_ofString] at this
  exact this

/-- The tokens of a source end with the end of the input. That is said by one token only, behind
which the lexer gives none, and a program is parsed up to there, just if each `NUL` of the source is
in a string. -/
theorem Lexer.one_end_iff (file source : String) :
    (ofString file source).tokens.getLast? = some (.atEnd file source.utf8ByteSize) ∧
      ((ofString file source).tokens.countP (·.kind = .eof) = 1 ∧
          (∀ m n, m < n → (∃ t ∈ ((ofString file source).after m).next.1, t.kind = .eof) →
            ((ofString file source).after n).next.1 = none) ∧
          (∃ program p, parse file source = some (.ok program, p) ∧
            p.current = .atEnd file source.utf8ByteSize) ↔
        ∀ before behind, source.toList = before ++ '\x00' :: behind →
          (ofString file source).InString (width before)) := by
  have hlast := tokens_getLast? file source
  refine ⟨hlast, ?_⟩
  rw [← endsOnce_iff, ← endsOnce_iff_countP hlast rfl]
  constructor
  · rintro ⟨hends, -⟩
    exact hends
  · intro hends
    refine ⟨hends, fun m n hlt => ?_, ?_⟩
    · rintro ⟨t, ht, hkind⟩
      exact hends.next_after hlt ht hkind
    · obtain ⟨program, p, hparse, hkind, hmem | hend⟩ := Parser.parse_stops file source
      · have hcurrent := hlast.symm.trans (hends.getLast? hmem hkind)
        exact ⟨program, p, hparse, (Option.some.inj hcurrent).symm⟩
      · exact ⟨program, p, hparse, hend⟩

/-- A `NUL` between two names is an end with a name behind it. A program is parsed up to there, with
nothing found wrong. -/
theorem ends_before_name :
    (Lexer.ofString "shell" "a\x00b").tokens.countP (·.kind = .eof) = 2 ∧
      ((Lexer.ofString "shell" "a\x00b").after 1).next.1 = some ⟨.eof, "\x00", ⟨1, 2, "shell"⟩⟩ ∧
      ((Lexer.ofString "shell" "a\x00b").after 2).next.1 =
        some ⟨.identifier, "b", ⟨2, 3, "shell"⟩⟩ ∧
      ∃ program p, parse "shell" "a\x00b" = some (.ok program, p) ∧ p.diagnostics = [] ∧
        p.current = ⟨.eof, "\x00", ⟨1, 2, "shell"⟩⟩ := by
  refine ⟨by decide, by decide, by decide, _, _, rfl, rfl, rfl⟩

end ScriptFront
