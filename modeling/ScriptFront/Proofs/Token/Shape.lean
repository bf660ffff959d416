import ScriptFront.Proofs.Token.Lexeme

/-!
# Shapes of lexemes

What a lexeme looks like in front of what is left behind it. `scan` gives a lexeme of one of these
shapes, and what such a lexeme reads, with what it leaves, scans to it again. So a text starts with
one lexeme only, and that depends on no more than one character behind it.
-/

namespace ScriptFront

open Text

namespace Kind

/-- The kinds of the marks that are a token by themselves. -/
def marks : List Kind :=
  [eof, plus, dash, star, slash, less, greater, comma, semicolon, colon, openParen, closeParen,
    openCurly, closeCurly, openBracket, closeBracket]

theorem ofMark?_mem {c : Char} {kind : Kind} (h : ofMark? c = some kind) : kind ∈ marks := by
  unfold ofMark? at h
  split at h <;> cases h <;> decide

theorem ofMark?_injective {c d : Char} {kind : Kind} (hc : ofMark? c = some kind)
    (hd : ofMark? d = some kind) : c = d := by
  unfold ofMark? at hc
  split at hc <;> cases hc
  all_goals
    unfold ofMark? at hd
    split at hd <;> first | rfl | cases hd

theorem ofWord_mem (word : String) : ofWord word ∈ identifier :: reserved.map Prod.snd := by
  unfold ofWord
  cases h : reserved.lookup word with
  | none => exact List.mem_cons_self
  | some kind =>
    obtain ⟨before, behind, heq, -⟩ := List.lookup_eq_some_iff.1 h
    exact List.mem_cons_of_mem _ (List.mem_map.2 ⟨(word, kind), by simp [heq], rfl⟩)

theorem ofWord_not_mark (word : String) : ofWord word ∉ marks := by
  have hapart : ∀ kind ∈ identifier :: reserved.map Prod.snd, kind ∉ marks := by decide
  exact hapart _ (ofWord_mem word)

end Kind

namespace Lexeme

inductive Shaped : Lexeme → Prop where
  | alone {c : Char} {kind : Kind} {rest : List Char} :
      (c, kind) ∈ [('=', .assign), ('!', .bang)] → '=' ∉ rest.head? → Shaped ⟨kind, [c], [], rest⟩
  | paired {c : Char} {kind : Kind} {rest : List Char} :
      (c, kind) ∈ [('=', .equal), ('!', .notEqual)] → Shaped ⟨kind, [c, '='], [], rest⟩
  | string {quote : Char} {body rest : List Char} :
      isQuote quote → quote ∉ body → rest ≠ [] →
      Shaped ⟨.string, quote :: (body ++ [quote]), [], rest⟩
  /-- The string takes all but the last character, or is that character. -/
  | unclosed {quote : Char} {body : List Char} {last : Option Char} :
      isQuote quote → quote ∉ body → (last = none → body = []) →
      Shaped ⟨.illegal, quote :: body, [], last.toList⟩
  | word {c : Char} {cs rest : List Char} :
      isLetter c → (∀ d ∈ cs, isWordChar d) → (∀ d ∈ rest.head?, ¬ isWordChar d) →
      Shaped ⟨.ofWord (String.ofList (c :: cs)), c :: cs, [], rest⟩
  | int {c : Char} {cs rest : List Char} :
      (∀ d ∈ c :: cs, isDigit d) → (∀ d ∈ rest.head?, ¬ isDigit d ∧ d ≠ '.') →
      Shaped ⟨.int, c :: cs, [], rest⟩
  | float {c : Char} {cs part rest : List Char} :
      (∀ d ∈ c :: cs, isDigit d) → (∀ d ∈ part, isDigit d) →
      (∀ d ∈ rest.head?, ¬ isDigit d ∧ d ≠ '.') →
      Shaped ⟨.float, c :: (cs ++ '.' :: part), [], rest⟩
  | points {c : Char} {cs part rest : List Char} :
      (∀ d ∈ c :: cs, isDigit d) → (∀ d ∈ part, isDigit d) →
      Shaped ⟨.illegal, c :: (cs ++ '.' :: part), ['.'], '.' :: rest⟩
  | mark {c : Char} {rest : List Char} :
      c ≠ '=' → c ≠ '!' → ¬ isQuote c → ¬ isWordChar c → ¬ isBlank c →
      Shaped ⟨(Kind.ofMark? c).getD .illegal, [c], [], rest⟩

theorem Shaped.nul (rest : List Char) : Shaped ⟨.eof, ['\x00'], [], rest⟩ :=
  @mark '\x00' rest (by decide) (by decide) (by decide) (by decide) (by decide)

/-! ## What is scanned has a shape -/

theorem shaped_scanPair {alone paired : Kind} {c : Char} (rest : List Char)
    (halone : (c, alone) ∈ [('=', Kind.assign), ('!', .bang)])
    (hpaired : (c, paired) ∈ [('=', Kind.equal), ('!', .notEqual)]) :
    (scanPair alone paired c rest).Shaped := by
  unfold scanPair
  split
  · exact .paired hpaired
  · rename_i h
    refine .alone halone fun hhead => ?_
    obtain ⟨more, rfl⟩ := List.head?_eq_some_iff.1 hhead
    exact h more rfl

theorem shaped_scanString {quote : Char} (rest : List Char) (hq : isQuote quote) :
    (scanString quote rest).Shaped := by
  have hbody : quote ∉ rest.dropLast.takeWhile (· != quote) := fun h => by
    simpa using List.all_eq_true.1 List.all_takeWhile quote h
  simp only [scanString]
  split
  · refine .unclosed hq hbody fun hnone => ?_
    rw [List.getLast?_eq_none_iff.1 hnone]
    rfl
  · refine .string hq hbody fun hnil => ?_
    obtain ⟨-, hlast⟩ := List.append_eq_nil_iff.1 hnil
    rename_i h
    cases hrest : rest.getLast? with
    | none => simp [List.getLast?_eq_none_iff.1 hrest] at h
    | some c => simp [hrest] at hlast

theorem head?_dropWhile {p : Char → Bool} {cs : List Char} :
    ∀ d ∈ (cs.dropWhile p).head?, ¬ p d := by
  intro d hd
  have := List.head?_dropWhile_not p cs
  rw [hd] at this
  simpa using this

theorem all_takeWhile {p : Char → Bool} {cs : List Char} : ∀ d ∈ cs.takeWhile p, p d :=
  List.all_eq_true.1 List.all_takeWhile

theorem shaped_scanNumber {c : Char} (rest : List Char) (hc : isDigit c) :
    (scanNumber c rest).Shaped := by
  have hwhole : ∀ d ∈ c :: rest.takeWhile isDigit, isDigit d := by
    simpa using ⟨hc, fun d hd => all_takeWhile d hd⟩
  by_cases hpoint : (rest.dropWhile isDigit).head? = some '.'
  · obtain ⟨part, hpart⟩ := List.head?_eq_some_iff.1 hpoint
    rw [scanNumber_twoRuns hpart]
    dsimp only
    split
    · rename_i hmore
      obtain ⟨more, hmore⟩ := List.head?_eq_some_iff.1 hmore
      rw [hmore]
      exact .points hwhole all_takeWhile
    · rename_i hstop
      exact .float hwhole all_takeWhile fun d hd =>
        ⟨head?_dropWhile d hd, fun heq => hstop (heq ▸ hd)⟩
  · rw [scanNumber_oneRun hpoint]
    exact .int hwhole fun d hd => ⟨head?_dropWhile d hd, fun heq => hpoint (heq ▸ hd)⟩

theorem shaped_scan {c : Char} (rest : List Char) (hc : ¬ isBlank c) : (scan c rest).Shaped := by
  unfold scan
  split
  · rename_i h
    exact shaped_scanPair rest (by simp [h]) (by simp [h])
  split
  · rename_i h
    exact shaped_scanPair rest (by simp [h]) (by simp [h])
  split
  · exact shaped_scanString rest ‹_›
  split
  · exact .word ‹_› all_takeWhile head?_dropWhile
  split
  · exact shaped_scanNumber rest ‹_›
  · refine .mark ‹_› ‹_› ‹_› ?_ hc
    simp_all [isWordChar]

/-! ## What has a shape is scanned -/

theorem takeWhile_append {p : Char → Bool} {cs rest : List Char} (hcs : ∀ d ∈ cs, p d)
    (hrest : ∀ d ∈ rest.head?, ¬ p d) : (cs ++ rest).takeWhile p = cs := by
  rw [List.takeWhile_append_of_pos hcs]
  cases rest with
  | nil => simp
  | cons d rest => simp [hrest d rfl]

theorem dropWhile_append {p : Char → Bool} {cs rest : List Char} (hcs : ∀ d ∈ cs, p d)
    (hrest : ∀ d ∈ rest.head?, ¬ p d) : (cs ++ rest).dropWhile p = rest := by
  rw [List.dropWhile_append_of_pos hcs]
  cases rest with
  | nil => rfl
  | cons d rest => simp [hrest d rfl]

theorem ne_of_class {p : Char → Bool} {c d : Char} (hc : p c) (hd : ¬ p d) : c ≠ d := by
  rintro rfl
  exact hd hc

theorem isQuote_iff {c : Char} : isQuote c ↔ c = '"' ∨ c = '\'' := by simp [isQuote]

theorem isBlank_iff {c : Char} : isBlank c ↔ c = ' ' ∨ c = '\t' ∨ c = '\n' ∨ c = '\r' := by
  simp [isBlank, or_assoc]

theorem not_isQuote_of_isWordChar {c : Char} (h : isWordChar c) : ¬ isQuote c := by
  rw [isQuote_iff]
  rintro (rfl | rfl) <;> exact absurd h (by decide)

theorem not_isBlank_of_isWordChar {c : Char} (h : isWordChar c) : ¬ isBlank c := by
  rw [isBlank_iff]
  rintro (rfl | rfl | rfl | rfl) <;> exact absurd h (by decide)

theorem not_isLetter_of_isDigit {c : Char} (h : isDigit c) : ¬ isLetter c := by
  have hc : c.toNat ≤ 57 := (Char.isDigit_iff_toNat.1 h).2
  simp only [isLetter, Bool.or_eq_true, decide_eq_true_eq]
  rintro (halpha | rfl)
  · rcases (Bool.or_eq_true _ _).mp halpha with hupper | hlower
    · have : 65 ≤ c.toNat := (of_decide_eq_true hupper).1
      omega
    · have : 97 ≤ c.toNat := of_decide_eq_true ((Bool.and_eq_true _ _).mp hlower).1
      omega
  · exact absurd h (by decide)

theorem isWordChar_of_isLetter {c : Char} (h : isLetter c) : isWordChar c := by
  simp [isWordChar, h]

theorem isWordChar_of_isDigit {c : Char} (h : isDigit c) : isWordChar c := by
  simp [isWordChar, h]

theorem scan_letter {c : Char} (h : isLetter c) (rest : List Char) :
    scan c rest = scanWord c rest := by
  have hword := isWordChar_of_isLetter h
  unfold scan
  rw [if_neg (ne_of_class hword (by decide)), if_neg (ne_of_class hword (by decide)),
    if_neg (not_isQuote_of_isWordChar hword), if_pos h]

theorem scan_digit {c : Char} (h : isDigit c) (rest : List Char) :
    scan c rest = scanNumber c rest := by
  have hword := isWordChar_of_isDigit h
  unfold scan
  rw [if_neg (ne_of_class hword (by decide)), if_neg (ne_of_class hword (by decide)),
    if_neg (not_isQuote_of_isWordChar hword), if_neg (not_isLetter_of_isDigit h), if_pos h]

theorem scan_quote {c : Char} (h : isQuote c) (rest : List Char) :
    scan c rest = scanString c rest := by
  unfold scan
  rw [if_neg (ne_of_class h (by decide)), if_neg (ne_of_class h (by decide)), if_pos h]

theorem scan_other {c : Char} (heq : c ≠ '=') (hbang : c ≠ '!') (hquote : ¬ isQuote c)
    (hword : ¬ isWordChar c) (rest : List Char) :
    scan c rest = ⟨(Kind.ofMark? c).getD .illegal, [c], [], rest⟩ := by
  simp only [isWordChar, Bool.or_eq_true, not_or] at hword
  unfold scan
  rw [if_neg heq, if_neg hbang, if_neg hquote, if_neg hword.1, if_neg hword.2]

theorem scanString_closed {quote : Char} {body rest : List Char} (hbody : quote ∉ body)
    (hrest : rest ≠ []) : scanString quote (body ++ quote :: rest) =
      ⟨.string, quote :: (body ++ [quote]), [], rest⟩ := by
  have hcs : ∀ d ∈ body, (d != quote) = true := fun d hd => by
    simpa using fun (h : d = quote) => hbody (h ▸ hd)
  have hstop : ∀ d ∈ (quote :: rest.dropLast).head?, ¬ (d != quote) = true := by simp
  have hcut : (body ++ quote :: rest).dropLast = body ++ quote :: rest.dropLast := by
    rw [List.dropLast_append_of_ne_nil (by simp), List.dropLast_cons_of_ne_nil hrest]
  have hlast : (body ++ quote :: rest).getLast? = rest.getLast? := by
    obtain ⟨d, hd⟩ := Option.ne_none_iff_exists'.1 (mt List.getLast?_eq_none_iff.1 hrest)
    simp [List.getLast?_append, List.getLast?_cons, hd]
  simp only [scanString, hcut, hlast, takeWhile_append hcs hstop, dropWhile_append hcs hstop]
  rw [dropLast_append_getLast?]

theorem scanString_unclosed {quote : Char} {body : List Char} {last : Option Char}
    (hbody : quote ∉ body) (hlast : last = none → body = []) :
    scanString quote (body ++ last.toList) = ⟨.illegal, quote :: body, [], last.toList⟩ := by
  have hcs : ∀ d ∈ body, (d != quote) = true := fun d hd => by
    simpa using fun (h : d = quote) => hbody (h ▸ hd)
  have htake : body.takeWhile (· != quote) = body := by
    simpa using @takeWhile_append _ body [] hcs (by simp)
  have hdrop : body.dropWhile (· != quote) = [] := by
    simpa using @dropWhile_append _ body [] hcs (by simp)
  cases last with
  | none => simp [scanString, hlast rfl]
  | some d => simp [scanString, htake, hdrop]

theorem scanNumber_int {c : Char} {whole rest : List Char} (hwhole : ∀ d ∈ whole, isDigit d)
    (hrest : ∀ d ∈ rest.head?, ¬ isDigit d ∧ d ≠ '.') :
    scanNumber c (whole ++ rest) = ⟨.int, c :: whole, [], rest⟩ := by
  have hstop : ∀ d ∈ rest.head?, ¬ isDigit d := fun d hd => (hrest d hd).1
  have hpoint : rest.head? ≠ some '.' := fun hhead => (hrest '.' hhead).2 rfl
  rw [scanNumber_oneRun (by rwa [dropWhile_append hwhole hstop]), takeWhile_append hwhole hstop,
    dropWhile_append hwhole hstop]

theorem scanNumber_point {c : Char} {whole part rest : List Char}
    (hwhole : ∀ d ∈ whole, isDigit d) (hpart : ∀ d ∈ part, isDigit d)
    (hrest : ∀ d ∈ rest.head?, ¬ isDigit d) :
    scanNumber c (whole ++ '.' :: (part ++ rest)) =
      if rest.head? = some '.' then ⟨.illegal, c :: (whole ++ '.' :: part), ['.'], rest⟩
      else ⟨.float, c :: (whole ++ '.' :: part), [], rest⟩ := by
  have hpoint : ∀ d ∈ ('.' :: (part ++ rest)).head?, ¬ isDigit d := by
    rintro d ⟨⟩
    decide
  rw [scanNumber_twoRuns (dropWhile_append hwhole hpoint), takeWhile_append hwhole hpoint,
    takeWhile_append hpart hrest, dropWhile_append hpart hrest]
  rfl

/-- What a lexeme of a shape reads, with what it leaves, scans to it. -/
theorem Shaped.scan_eq {x : Lexeme} (h : x.Shaped) {c : Char} {cs : List Char}
    (hx : x.read ++ x.rest = c :: cs) : scan c cs = x := by
  cases h <;>
    simp only [List.cons_append, List.nil_append, List.append_assoc, List.cons.injEq] at hx
  case alone hc hrest =>
    obtain ⟨rfl, rfl⟩ := hx
    simp only [List.mem_cons, Prod.mk.injEq, List.not_mem_nil, or_false] at hc
    rcases hc with ⟨rfl, rfl⟩ | ⟨rfl, rfl⟩ <;> exact scanPair_alone hrest
  case paired hc =>
    obtain ⟨rfl, rfl⟩ := hx
    simp only [List.mem_cons, Prod.mk.injEq, List.not_mem_nil, or_false] at hc
    rcases hc with ⟨rfl, rfl⟩ | ⟨rfl, rfl⟩ <;> rfl
  case string hq hbody hrest =>
    obtain ⟨rfl, rfl⟩ := hx
    rw [scan_quote hq, scanString_closed hbody hrest]
  case unclosed hq hbody hlast =>
    obtain ⟨rfl, rfl⟩ := hx
    rw [scan_quote hq, scanString_unclosed hbody hlast]
  case word hc hcs hrest =>
    obtain ⟨rfl, rfl⟩ := hx
    rw [scan_letter hc, scanWord, takeWhile_append hcs hrest, dropWhile_append hcs hrest]
  case int hwhole hrest =>
    obtain ⟨rfl, rfl⟩ := hx
    obtain ⟨hc, hcs⟩ := List.forall_mem_cons.1 hwhole
    rw [scan_digit hc, scanNumber_int hcs hrest]
  case float hwhole hpart hrest =>
    obtain ⟨rfl, rfl⟩ := hx
    obtain ⟨hc, hcs⟩ := List.forall_mem_cons.1 hwhole
    rw [scan_digit hc, scanNumber_point hcs hpart fun d hd => (hrest d hd).1,
      if_neg fun hhead : _ = some '.' => (hrest '.' hhead).2 rfl]
  case points hwhole hpart =>
    obtain ⟨rfl, rfl⟩ := hx
    obtain ⟨hc, hcs⟩ := List.forall_mem_cons.1 hwhole
    rw [scan_digit hc, scanNumber_point hcs hpart (by rintro d ⟨⟩; decide)]
    exact if_pos rfl
  case mark heq hbang hquote hword _ =>
    obtain ⟨rfl, rfl⟩ := hx
    exact scan_other heq hbang hquote hword _

/-! ## What stands behind a lexeme -/

/-- A string that no quote closes. -/
def Unclosed (x : Lexeme) : Prop := x.kind = .illegal ∧ ∃ c ∈ x.read.head?, isQuote c

/-- A character that goes on with no lexeme. -/
def Breaks (c : Char) : Prop := ¬ isWordChar c ∧ c ≠ '.' ∧ c ≠ '='

instance (c : Char) : Decidable (Breaks c) :=
  inferInstanceAs (Decidable (¬ isWordChar c ∧ c ≠ '.' ∧ c ≠ '='))

/-- A lexeme that is closed stays what it is in front of another text, if that starts alike or with
a character that goes on with nothing. -/
theorem Shaped.behind {kind : Kind} {read echo rest rest' : List Char}
    (h : Shaped ⟨kind, read, echo, rest⟩) (hclosed : ¬ Unclosed ⟨kind, read, echo, rest⟩)
    (hrest : rest'.head? = rest.head? ∨ echo = [] ∧ ∃ c ∈ rest'.head?, Breaks c) :
    Shaped ⟨kind, read, echo, rest'⟩ := by
  -- What does not stand behind the lexeme here stands not behind it there.
  have hstop {p : Char → Prop} (hp : ∀ c, Breaks c → p c) (hx : ∀ c ∈ rest.head?, p c) :
      ∀ c ∈ rest'.head?, p c := by
    rcases hrest with heq | ⟨-, c, hc, hbreaks⟩
    · rwa [heq]
    · intro d hd
      cases hc.symm.trans hd
      exact hp c hbreaks
  have hdigit (c : Char) (hc : Breaks c) : ¬ isDigit c ∧ c ≠ '.' :=
    ⟨fun hd => hc.1 (isWordChar_of_isDigit hd), hc.2.1⟩
  cases h with
  | alone hc halone =>
    refine .alone hc fun hmem => ?_
    have hkept : ∀ c ∈ rest.head?, c ≠ '=' := by rintro c hc rfl; exact halone hc
    exact hstop (p := (· ≠ '=')) (fun c hc => hc.2.2) hkept _ hmem rfl
  | paired hc => exact .paired hc
  | string hq hbody hne =>
    refine .string hq hbody ?_
    rintro rfl
    rcases hrest with heq | ⟨-, c, hc, -⟩
    · exact hne (List.head?_eq_none_iff.1 heq.symm)
    · cases hc
  | unclosed hq => exact (hclosed ⟨rfl, _, rfl, hq⟩).elim
  | word hc hcs hword => exact .word hc hcs (hstop (fun c hc => hc.1) hword)
  | int hwhole hint => exact .int hwhole (hstop hdigit hint)
  | float hwhole hpart hfloat => exact .float hwhole hpart (hstop hdigit hfloat)
  | points hwhole hpart =>
    rcases hrest with heq | ⟨hecho, -⟩
    · obtain ⟨more, rfl⟩ := List.head?_eq_some_iff.1 heq
      exact .points hwhole hpart
    · cases hecho
  | mark heq hbang hquote hword hblank => exact .mark heq hbang hquote hword hblank

/-- A lexeme starts with no blank. -/
theorem Shaped.head {x : Lexeme} (h : x.Shaped) : ∃ c cs, x.read = c :: cs ∧ ¬ isBlank c := by
  have hword {c : Char} (hc : isWordChar c) : ¬ isBlank c := not_isBlank_of_isWordChar hc
  have hquote {c : Char} (hc : isQuote c) : ¬ isBlank c := by
    rcases isQuote_iff.1 hc with rfl | rfl <;> decide
  cases h with
  | alone hc | paired hc =>
    simp only [List.mem_cons, Prod.mk.injEq, List.not_mem_nil, or_false] at hc
    rcases hc with ⟨rfl, -⟩ | ⟨rfl, -⟩ <;> exact ⟨_, _, rfl, by decide⟩
  | string hq | unclosed hq => exact ⟨_, _, rfl, hquote hq⟩
  | word hc => exact ⟨_, _, rfl, hword (isWordChar_of_isLetter hc)⟩
  | int hwhole | float hwhole | points hwhole =>
    exact ⟨_, _, rfl, hword (isWordChar_of_isDigit (hwhole _ List.mem_cons_self))⟩
  | mark _ _ _ _ hblank => exact ⟨_, _, rfl, hblank⟩

/-- The last character of the text is no blank if a lexeme takes it. -/
theorem Shaped.last {x : Lexeme} (h : x.Shaped) (hrest : x.rest = []) :
    ∀ c ∈ x.read.getLast?, ¬ isBlank c := by
  have hword {c : Char} {cs : List Char} (hcs : ∀ d ∈ c :: cs, isWordChar d) :
      ∀ d ∈ (c :: cs).getLast?, ¬ isBlank d := fun d hd =>
    not_isBlank_of_isWordChar (hcs d (List.mem_of_getLast? hd))
  have hdigits {cs : List Char} (hcs : ∀ d ∈ cs, isDigit d) : ∀ d ∈ cs, isWordChar d :=
    fun d hd => isWordChar_of_isDigit (hcs d hd)
  cases h with
  | alone hc | paired hc =>
    simp only [List.mem_cons, Prod.mk.injEq, List.not_mem_nil, or_false] at hc
    rcases hc with ⟨rfl, -⟩ | ⟨rfl, -⟩ <;> rintro d ⟨⟩ <;> decide
  | string _ _ hne => exact (hne hrest).elim
  | unclosed hq _ hlast =>
    cases hlast (by simpa using hrest)
    rintro c ⟨⟩
    rcases isQuote_iff.1 hq with rfl | rfl <;> decide
  | word hc hcs => exact hword (List.forall_mem_cons.2 ⟨isWordChar_of_isLetter hc, hcs⟩)
  | int hwhole => exact hword (hdigits hwhole)
  | @float c cs part _ hwhole hpart =>
    intro d hd
    have hd : d ∈ ('.' :: part).getLast? := by
      rw [← List.cons_append, List.getLast?_append] at hd
      simpa [List.getLast?_cons] using hd
    rcases List.mem_cons.1 (List.mem_of_getLast? hd) with rfl | hmem
    · decide
    · exact not_isBlank_of_isWordChar (hdigits hpart d hmem)
  | points => cases hrest
  | mark _ _ _ _ hblank =>
    rintro d ⟨⟩
    exact hblank

/-! ## Marks -/

/-- The kind of a mark says which one it is. -/
theorem Shaped.read_of_mark {kind : Kind} {read echo rest : List Char} {c : Char}
    (h : Shaped ⟨kind, read, echo, rest⟩) (hc : Kind.ofMark? c = some kind) : read = [c] := by
  have hmark := Kind.ofMark?_mem hc
  cases h with
  | @mark d rest =>
    cases hd : Kind.ofMark? d with
    | none => rw [hd] at hmark; exact absurd hmark (by decide)
    | some kind =>
      rw [hd] at hc
      rw [Kind.ofMark?_injective hd hc]
  | @word c cs _ => exact (Kind.ofWord_not_mark _ hmark).elim
  | alone hc' | paired hc' =>
    simp only [List.mem_cons, Prod.mk.injEq, List.not_mem_nil, or_false] at hc'
    rcases hc' with ⟨-, rfl⟩ | ⟨-, rfl⟩ <;> exact absurd hmark (by decide)
  | string | unclosed | int | float | points => exact absurd hmark (by decide)

end Lexeme

end ScriptFront
