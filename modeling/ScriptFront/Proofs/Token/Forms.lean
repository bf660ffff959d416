import Mathlib.Logic.ExistsUnique
import ScriptFront.Proofs.Token.Tiling

/-!
# The forms of tokens

`form.Fits text kind value` says what a token of that form is in front of `text`: the text of the
source from where the token starts, with the character that ends the input behind it. Words and
numbers take as much of it as they can (`Longest`). Each token has exactly one form.
-/

namespace ScriptFront

open Text

/-! ## Runs -/

/-- Of all that the text starts with, `run` is the longest of the class. -/
structure Longest (P : List Char → Prop) (text run : List Char) : Prop where
  holds : P run
  starts : run <+: text
  longest : ∀ other, P other → other <+: text → other <+: run

/-- A letter or `_`, then letters, digits and `_`. -/
def IsName (cs : List Char) : Prop :=
  ∃ c more, cs = c :: more ∧ isLetter c ∧ ∀ d ∈ more, isWordChar d

/-- Digits, one or more. -/
def IsWhole (cs : List Char) : Prop := cs ≠ [] ∧ ∀ c ∈ cs, isDigit c

/-- What goes on behind a run is of no class that the run goes on with. -/
theorem prefix_of_stops {p : Char → Bool} {run rest other : List Char}
    (hother : ∀ more, other = run ++ more → ∀ d ∈ more.head?, p d)
    (hrest : ∀ d ∈ rest.head?, ¬ p d) (h : other <+: run ++ rest) : other <+: run := by
  rcases List.prefix_or_prefix_of_prefix h (List.prefix_append run rest) with hle | ⟨more, rfl⟩
  · exact hle
  · have hmore : more <+: rest := (List.prefix_append_right_inj run).1 h
    cases more with
    | nil => simp
    | cons d more =>
      obtain ⟨behind, rfl⟩ := hmore
      exact (hrest d rfl (hother _ rfl d rfl)).elim

theorem longest_name {c : Char} {cs rest : List Char} (hc : isLetter c)
    (hcs : ∀ d ∈ cs, isWordChar d) (hrest : ∀ d ∈ rest.head?, ¬ isWordChar d) :
    Longest IsName (c :: cs ++ rest) (c :: cs) where
  holds := ⟨c, cs, rfl, hc, hcs⟩
  starts := List.prefix_append _ _
  longest other hother := by
    refine prefix_of_stops (p := isWordChar) ?_ hrest
    obtain ⟨d, ds, rfl, -, hds⟩ := hother
    intro more heq e he
    obtain ⟨-, rfl⟩ := List.cons.inj heq
    exact hds e (List.mem_append_right _ (List.mem_of_mem_head? he))

theorem longest_whole {cs rest : List Char} (hcs : IsWhole cs)
    (hrest : ∀ d ∈ rest.head?, ¬ isDigit d) : Longest IsWhole (cs ++ rest) cs where
  holds := hcs
  starts := List.prefix_append _ _
  longest other hother := by
    refine prefix_of_stops (p := isDigit) ?_ hrest
    rintro more rfl e he
    exact hother.2 e (List.mem_append_right _ (List.mem_of_mem_head? he))

theorem longest_decimal {whole part rest : List Char} (hne : whole ≠ [])
    (hwhole : ∀ d ∈ whole, isDigit d) (hpart : ∀ d ∈ part, isDigit d)
    (hrest : ∀ d ∈ rest.head?, ¬ isDigit d) :
    Longest IsDecimal (whole ++ '.' :: part ++ rest) (whole ++ '.' :: part) where
  holds := ⟨whole, part, hne, hwhole, hpart, rfl⟩
  starts := List.prefix_append _ _
  longest other hother := by
    refine prefix_of_stops (p := isDigit) ?_ hrest
    obtain ⟨whole', part', -, hwhole', hpart', rfl⟩ := hother
    intro more heq e he
    -- Both have the digits before their first point in front.
    have hpoint (cs : List Char) : ∀ d ∈ ('.' :: cs).head?, ¬ isDigit d := by
      rintro d ⟨⟩
      decide
    have hdrop := congrArg (List.dropWhile isDigit) heq
    rw [List.append_assoc, List.cons_append, Lexeme.dropWhile_append hwhole' (hpoint _),
      Lexeme.dropWhile_append hwhole (hpoint _)] at hdrop
    obtain ⟨-, rfl⟩ := List.cons.inj hdrop
    exact hpart' e (List.mem_append_right _ (List.mem_of_mem_head? he))

/-! ## Forms -/

inductive Form where
  | word | whole | decimal
  /-- A decimal that a second point follows, which is shown with it. -/
  | points
  | string | unclosed | ending
  /-- `==` and `!=`. -/
  | pair
  /-- `=` and `!`. -/
  | alone
  | mark
  /-- A character that starts no token of another form. -/
  | stray
  deriving DecidableEq, Repr

namespace Form

/-- The operators and delimiters that are a token whatever follows them. -/
def marks : List (Char × Kind) :=
  [('+', .plus), ('-', .dash), ('*', .star), ('/', .slash), ('<', .less), ('>', .greater),
    (',', .comma), (';', .semicolon), (':', .colon), ('(', .openParen), (')', .closeParen),
    ('{', .openCurly), ('}', .closeCurly), ('[', .openBracket), (']', .closeBracket)]

/-- The character starts a token of a form other than `stray`. -/
def Starts (c : Char) : Prop :=
  isLetter c ∨ isDigit c ∨ isQuote c ∨ c ∈ ['\x00', '=', '!'] ∨ c ∈ marks.map Prod.fst

/-- A token of this kind that shows `value` is of the form, in front of `text`. The last character
of the text ends the input. -/
def Fits (text : List Char) (kind : Kind) (value : List Char) : Form → Prop
  | word => Longest IsName text value ∧
      (kind = .identifier ∧ String.ofList value ∉ Kind.reserved.map Prod.fst ∨
        (String.ofList value, kind) ∈ Kind.reserved)
  | whole => kind = .int ∧ Longest IsWhole text value ∧
      ∀ c ∈ (text.drop value.length).head?, ¬ isDigit c ∧ c ≠ '.'
  | decimal => kind = .float ∧ Longest IsDecimal text value ∧
      '.' ∉ (text.drop value.length).head?
  | points => kind = .illegal ∧ ∃ number, Longest IsDecimal text number ∧
      value = number ++ ['.'] ∧ value <+: text
  | string => kind = .string ∧ ∃ quote body, isQuote quote ∧ quote ∉ body ∧
      value = quote :: (body ++ [quote]) ∧ value <+: text.dropLast
  | unclosed => kind = .illegal ∧ ∃ quote rest, isQuote quote ∧ text = quote :: rest ∧
      quote ∉ rest.dropLast ∧ value = quote :: rest.dropLast
  | ending => kind = .eof ∧ value = ['\x00'] ∧ value <+: text
  | pair => (value, kind) ∈ [(['=', '='], .equal), (['!', '='], .notEqual)] ∧ value <+: text
  | alone => (value, kind) ∈ [(['='], .assign), (['!'], .bang)] ∧ value <+: text ∧
      '=' ∉ (text.drop value.length).head?
  | mark => ∃ c, (c, kind) ∈ marks ∧ value = [c] ∧ value <+: text
  | stray => kind = .illegal ∧ ∃ c, value = [c] ∧ ¬ isBlank c ∧ ¬ Starts c ∧ value <+: text

/-- The form that a token can have by its kind and its first character. -/
def of (value : List Char) : Kind → Form
  | .identifier | .fnWord | .letWord | .trueWord | .falseWord | .ifWord | .elseWord | .returnWord =>
    word
  | .int => whole
  | .float => decimal
  | .string => string
  | .eof => ending
  | .equal | .notEqual => pair
  | .assign | .bang => alone
  | .illegal =>
    if value.head?.any isDigit then points else if value.head?.any isQuote then unclosed else stray
  | _ => mark

theorem of_reserved (value : List Char) : ∀ entry ∈ Kind.reserved, of value entry.2 = word := by
  simp [Kind.reserved, of]

theorem of_marks (value : List Char) : ∀ entry ∈ marks, of value entry.2 = mark := by
  simp [marks, of]

theorem Fits.eq_of {form : Form} {text value : List Char} {kind : Kind}
    (h : form.Fits text kind value) : form = of value kind := by
  cases form with
  | word =>
    obtain ⟨-, ⟨rfl, -⟩ | hmem⟩ := h
    · rfl
    · exact (of_reserved value _ hmem).symm
  | whole | decimal | string | ending =>
    obtain ⟨rfl, -⟩ := h
    rfl
  | points =>
    obtain ⟨rfl, number, ⟨⟨whole, part, hne, hwhole, -, rfl⟩, -, -⟩, rfl, -⟩ := h
    obtain ⟨c, cs, rfl⟩ := List.exists_cons_of_ne_nil hne
    simp [of, hwhole c]
  | unclosed =>
    obtain ⟨rfl, quote, rest, hquote, -, -, rfl⟩ := h
    have hdigit : ¬ isDigit quote := fun hd =>
      Lexeme.not_isQuote_of_isWordChar (Lexeme.isWordChar_of_isDigit hd) hquote
    simp [of, hquote, hdigit]
  | pair | alone =>
    obtain ⟨hmem, -⟩ := h
    simp only [List.mem_cons, Prod.mk.injEq, List.not_mem_nil, or_false] at hmem
    rcases hmem with ⟨-, rfl⟩ | ⟨-, rfl⟩ <;> rfl
  | mark =>
    obtain ⟨c, hmem, -⟩ := h
    exact (of_marks value _ hmem).symm
  | stray =>
    obtain ⟨rfl, c, rfl, -, hstarts, -⟩ := h
    simp only [Starts, not_or] at hstarts
    simp [of, hstarts]

end Form

theorem Kind.ofWord_reserved (word : String) :
    ofWord word = .identifier ∧ word ∉ reserved.map Prod.fst ∨ (word, ofWord word) ∈ reserved := by
  unfold ofWord
  cases h : reserved.lookup word with
  | none =>
    refine .inl ⟨rfl, fun hmem => ?_⟩
    obtain ⟨entry, hentry, rfl⟩ := List.mem_map.1 hmem
    simpa using List.lookup_eq_none_iff.1 h entry hentry
  | some kind =>
    obtain ⟨before, behind, heq, -⟩ := List.lookup_eq_some_iff.1 h
    exact .inr (by simp [heq])

theorem Kind.ofMark?_eq_some {c : Char} {kind : Kind} :
    ofMark? c = some kind ↔ (c, kind) ∈ ('\x00', eof) :: Form.marks := by
  constructor
  · intro h
    unfold ofMark? at h
    split at h <;> cases h <;> decide
  · have hmarks : ∀ entry ∈ ('\x00', eof) :: Form.marks, ofMark? entry.1 = some entry.2 := by decide
    exact hmarks (c, kind)

/-- A lexeme of any shape has a form in front of what it was read from. -/
theorem Lexeme.Shaped.fits {x : Lexeme} (h : x.Shaped) :
    ∃ form : Form, form.Fits (x.read ++ x.rest) x.kind (x.read ++ x.echo) := by
  cases h with
  | @alone c kind rest hc hrest =>
    refine ⟨.alone, by simpa using hc, List.prefix_append _ _, ?_⟩
    simpa using hrest
  | @paired c kind rest hc => exact ⟨.pair, by simpa using hc, List.prefix_append _ _⟩
  | @string quote body rest hq hbody hrest =>
    refine ⟨.string, rfl, quote, body, hq, hbody, by simp, ?_⟩
    rw [List.append_nil, List.dropLast_append_of_ne_nil hrest]
    exact List.prefix_append _ _
  | @unclosed quote body last hq hbody hlast =>
    have hdrop : (body ++ last.toList).dropLast = body := by
      cases last with
      | none => simp [hlast rfl]
      | some c => simp
    refine ⟨.unclosed, rfl, quote, body ++ last.toList, hq, by simp, ?_, ?_⟩
    · rwa [hdrop]
    · simp [hdrop]
  | @word c cs rest hc hcs hrest =>
    refine ⟨.word, ?_, ?_⟩
    · simpa using longest_name hc hcs hrest
    · simpa using Kind.ofWord_reserved (String.ofList (c :: cs))
  | @int c cs rest hwhole hrest =>
    refine ⟨.whole, rfl, ?_, ?_⟩
    · simpa using longest_whole ⟨by simp, hwhole⟩ fun d hd => (hrest d hd).1
    · simpa using hrest
  | @float c cs part rest hwhole hpart hrest =>
    refine ⟨.decimal, rfl, ?_, ?_⟩
    · simpa using longest_decimal (by simp) hwhole hpart fun d hd => (hrest d hd).1
    · have hpoint : '.' ∉ rest.head? := fun hd => (hrest '.' hd).2 rfl
      rw [List.append_nil, List.drop_left]
      exact hpoint
  | @points c cs part rest hwhole hpart =>
    refine ⟨.points, rfl, c :: cs ++ '.' :: part, ?_, by simp, by simp⟩
    have hpoint : ∀ d ∈ ('.' :: rest).head?, ¬ isDigit d := by
      rintro d ⟨⟩
      decide
    simpa using longest_decimal (by simp) hwhole hpart hpoint
  | @mark c rest heq hbang hquote hword hblank =>
    cases hmark : Kind.ofMark? c with
    | none =>
      have hother : ∀ kind, (c, kind) ∉ ('\x00', Kind.eof) :: Form.marks := fun kind hmem => by
        rw [Kind.ofMark?_eq_some.2 hmem] at hmark
        cases hmark
      have hnul : c ≠ '\x00' := fun hnul => hother .eof (by simp [hnul])
      have hmarks : c ∉ Form.marks.map Prod.fst := fun hmem => by
        obtain ⟨⟨_, kind⟩, hentry, rfl⟩ := List.mem_map.1 hmem
        exact hother kind (List.mem_cons_of_mem _ hentry)
      simp only [isWordChar, Bool.or_eq_true, not_or] at hword
      refine ⟨.stray, rfl, c, rfl, hblank, ?_, List.prefix_append _ _⟩
      simp [Form.Starts, heq, hbang, hquote, hword, hnul, hmarks]
    | some kind =>
      rcases List.mem_cons.1 (Kind.ofMark?_eq_some.1 hmark) with hend | hmem
      · cases hend
        exact ⟨.ending, rfl, rfl, List.prefix_append _ _⟩
      · exact ⟨.mark, c, hmem, rfl, List.prefix_append _ _⟩

/-- A token is made of a lexeme of what is left of the text where the token starts. -/
theorem Tape.tokens_shaped {file : String} {before text : List Char} {i : Nat} {t : Token}
    (ht : (Tape.mk file (width before) text).tokens[i]? = some t) :
    ∃ (gap : List Char) (x : Lexeme), x.Shaped ∧ before ++ text = gap ++ (x.read ++ x.rest) ∧
      (Tape.mk file (width before) text).startOf i = width gap ∧
      t.span.start = .ofNat (width gap) ∧ t.kind = x.kind ∧ t.text = x.shown := by
  rcases gap_or_lexeme text with hblank | ⟨gap, ⟨kind, read, echo, rest⟩, hgap, hx, rfl⟩
  · rw [tokens_blank hblank] at ht
    cases ht
  have hfirst : width before + width gap = width (before ++ gap) := (width_append _ _).symm
  rw [tokens_lexeme hgap hx] at ht
  cases i with
  | zero =>
    obtain rfl := Option.some.inj ht
    rw [hfirst]
    refine ⟨before ++ gap, _, hx, by simp, ?_, rfl, rfl, rfl⟩
    rw [← hfirst]
    exact congrArg Tape.offset (skipBlank_lexeme hgap hx)
  | succ i =>
    cases rest with
    | nil =>
      rw [List.getElem?_cons_succ, tokens_of_none (next_of_pending_nil rfl)] at ht
      cases ht
    | cons c rest =>
      have hshort : rest.length + 1 < (gap ++ (read ++ c :: rest)).length := by
        obtain ⟨d, ds, hread, -⟩ := hx.head
        simp only at hread
        simp only [hread, List.length_append, List.length_cons]
        omega
      have hnext := @next_cons file (width before) _ _ _ _ _ hgap hx (by simp)
      change (Tape.mk file (width before + width gap + width read) (c :: rest)).tokens[i]? =
        some t at ht
      rw [hfirst, ← width_append] at ht
      obtain ⟨gap', x, hx', htext, hplace, hstart⟩ := tokens_shaped ht
      refine ⟨gap', x, hx', by simpa using htext, ?_, hstart⟩
      rw [startOf_succ hnext, hfirst, ← width_append, hplace]
termination_by text.length

/-- Whatever a source holds and whatever character ends it, each token has exactly one form, in
front of the source from where the token starts and of that character. -/
theorem Lexer.tokens_fit {file source : String} {c : Char} {i : Nat} {t : Token}
    (ht : ((ofString file source).endingWith c).tokens[i]? = some t) :
    ∃ before text, source.toList ++ [c] = before ++ text ∧
      ((ofString file source).endingWith c).startOf i = width before ∧
      t.span.start = .ofNat (width before) ∧
      ∃! form : Form, form.Fits text t.kind t.text.toList := by
  rw [tokens_endingWith] at ht
  obtain ⟨before, x, hx, htext, hplace, hstart, hkind, hshown⟩ :=
    @Tape.tokens_shaped file [] _ _ t ht
  obtain ⟨form, hform⟩ := hx.fits
  have hvalue : t.text.toList = x.read ++ x.echo := by
    rw [hshown, Lexeme.shown, String.toList_ofList]
  rw [startOf_tape, tape_endingWith, hkind, hvalue]
  refine ⟨before, _, htext, hplace, hstart, form, hform, fun other hother => ?_⟩
  exact hother.eq_of.trans hform.eq_of.symm

/-- A reserved word that the end of the input completes, behind a number with two points. -/
theorem tokens_fit_return :
    let lx := (Lexer.ofString "shell" "1.2.retur").endingWith 'n'
    let t : Token := ⟨.returnWord, "return", ⟨4, 9, "shell"⟩⟩
    lx.tokens[2]? = some t ∧
      ∃ before text, "1.2.retur".toList ++ ['n'] = before ++ text ∧ lx.startOf 2 = width before ∧
        t.span.start = .ofNat (width before) ∧
        ∃! form : Form, form.Fits text t.kind t.text.toList := by
  intro lx t
  have ht : lx.tokens[2]? = some t := by decide
  exact ⟨ht, Lexer.tokens_fit ht⟩

end ScriptFront
