import Mathlib.Data.List.TakeWhile
import ScriptFront.Proofs.Token.Tape
import ScriptFront.Token.Lexer

/-!
# What a lexer reads

`lx.tape` is the text that a lexer has before it, wherever in that its cursor is. To take a
character from the source or the one that ends the input is to move on by one character of that
text, so what the lexer reads is one lexeme of it (`read_makes`), and it gives the tokens of its
tape (`next_tape`, `tokens_tape`).
-/

namespace ScriptFront

open Text

theorem Kind.ofMark?_apart {c : Char} {kind : Kind} (h : ofMark? c = some kind) :
    ¬ isQuote c ∧ ¬ isLetter c ∧ ¬ isDigit c := by
  unfold ofMark? at h
  split at h <;> cases h <;> decide

namespace Lexer

/-- What is left of the source, then the character that ends the input unless it is read. -/
def pending (lx : Lexer) : List Char :=
  if lx.cursor = .exhausted then [] else lx.rest ++ [lx.ending]

def tape (lx : Lexer) : Tape := ⟨lx.file, lx.offset, lx.pending⟩

variable {lx : Lexer} {c : Char} {rest : List Char}

/-! ## Cursors -/

theorem rest_of_ne_input (h : lx.cursor ≠ .input) : lx.rest = [] :=
  Decidable.not_not.1 fun hrest => h (lx.input_iff.2 hrest)

theorem pending_of_input (h : lx.cursor = .input) : lx.pending = lx.rest ++ [lx.ending] := by
  simp [pending, h]

theorem pending_of_terminator (h : lx.cursor = .terminator) : lx.pending = [lx.ending] := by
  have hrest : lx.rest = [] := rest_of_ne_input (by simp [h])
  simp [pending, h, hrest]

theorem pending_of_exhausted (h : lx.cursor = .exhausted) : lx.pending = [] := by
  simp [pending, h]

theorem exhausted_iff (lx : Lexer) : lx.cursor = .exhausted ↔ lx.pending = [] := by
  unfold pending
  split <;> simp_all

theorem left_eq (lx : Lexer) : lx.left = lx.pending.length := by
  unfold left pending
  split <;> simp

theorem pending_dropLast (lx : Lexer) : lx.pending.dropLast = lx.rest := by
  cases h : lx.cursor with
  | input => rw [pending_of_input h, List.dropLast_concat]
  | terminator => rw [pending_of_terminator h, rest_of_ne_input (by simp [h])]; rfl
  | exhausted => rw [pending_of_exhausted h, rest_of_ne_input (by simp [h])]; rfl

theorem peek_eq (lx : Lexer) : lx.peek = lx.pending.head? := by
  unfold peek
  cases h : lx.cursor with
  | input =>
    obtain ⟨c, cs, hrest⟩ := List.exists_cons_of_ne_nil (lx.input_iff.1 h)
    simp [pending_of_input h, hrest]
  | terminator => rw [pending_of_terminator h]; rfl
  | exhausted => rw [pending_of_exhausted h]; rfl

/-- Lexers of the same tape are the same, as long as that is not at its end. -/
theorem eq_of_tape {lx' : Lexer} (h : lx.tape = lx'.tape) (hne : lx.pending ≠ []) : lx = lx' := by
  have hpending : lx.pending = lx'.pending := congrArg Tape.pending h
  have hcursor : lx.cursor ≠ .exhausted := mt lx.exhausted_iff.1 hne
  have hcursor' : lx'.cursor ≠ .exhausted := mt lx'.exhausted_iff.1 (hpending ▸ hne)
  rw [pending, pending, if_neg hcursor, if_neg hcursor'] at hpending
  obtain ⟨hrest, hending⟩ := List.append_inj' hpending rfl
  -- What is left of the source tells input from the end.
  have hinput : lx.cursor = .input ↔ lx'.cursor = .input := by
    rw [lx.input_iff, lx'.input_iff, hrest]
  have hsame : lx.cursor = lx'.cursor := by
    cases hlx : lx.cursor <;> cases hlx' : lx'.cursor <;> simp_all
  obtain ⟨file, offset, source, ending, cursor, hiff⟩ := lx
  cases congrArg Tape.file h
  cases congrArg Tape.offset h
  cases hrest
  cases hending
  cases hsame
  rfl

/-! ## One character -/

theorem close_tape (lx : Lexer) : lx.close.tape = lx.tape.past [lx.ending] [] := by
  simp [tape, Tape.past, close, pending]

theorem advanceBy_cursor (h : lx.cursor = .input) (n : Nat) :
    (lx.advanceBy n).cursor = if lx.rest.drop n = [] then .terminator else .input := by
  simp [advanceBy, h]

theorem advanceBy_tape (h : lx.cursor = .input) (n : Nat) :
    (lx.advanceBy n).tape = lx.tape.past (lx.rest.take n) (lx.rest.drop n ++ [lx.ending]) := by
  have hpending : (lx.advanceBy n).pending = lx.rest.drop n ++ [lx.ending] := by
    have hcursor : (lx.advanceBy n).cursor ≠ .exhausted := by
      rw [advanceBy_cursor h]
      split <;> decide
    rw [pending, if_neg hcursor]
    rfl
  rw [tape, hpending]
  simp [Tape.past, advanceBy, tape]

theorem advance_of_cons (h : lx.pending = c :: rest) :
    lx.advance.1 = some c ∧ lx.advance.2.tape = lx.tape.past [c] rest := by
  unfold advance
  cases hcursor : lx.cursor with
  | input =>
    obtain ⟨d, ds, hrest⟩ := List.exists_cons_of_ne_nil (lx.input_iff.1 hcursor)
    rw [pending_of_input hcursor, hrest, List.cons_append, List.cons.injEq] at h
    obtain ⟨rfl, rfl⟩ := h
    have htape := lx.advanceBy_tape hcursor 1
    rw [hrest] at htape
    exact ⟨by rw [hrest]; rfl, htape⟩
  | terminator =>
    rw [pending_of_terminator hcursor, List.cons.injEq] at h
    obtain ⟨rfl, rfl⟩ := h
    exact ⟨rfl, lx.close_tape⟩
  | exhausted =>
    rw [pending_of_exhausted hcursor] at h
    cases h

theorem advance_of_exhausted (h : lx.cursor = .exhausted) : lx.advance = (none, lx) := by
  simp only [advance, h]

theorem takeEndingIf_some {p : Char → Bool} (h : lx.cursor = .terminator) (hp : p lx.ending) :
    lx.takeEndingIf p = (some lx.ending, lx.close) := by
  simp [takeEndingIf, advance, h, hp]

theorem takeEndingIf_none {p : Char → Bool} (h : lx.cursor = .terminator → ¬ p lx.ending) :
    lx.takeEndingIf p = (none, lx) := by
  rw [takeEndingIf, if_neg fun hp => h hp.1 hp.2]

/-! ## Runs of characters -/

theorem skipBlanks_tape (lx : Lexer) {cs : List Char} (h : lx.rest.length ≤ cs.length) :
    (lx.skipBlanks cs).tape = lx.tape.skipBlank := by
  induction cs generalizing lx with
  | nil =>
    have hrest : lx.rest = [] := List.length_eq_zero_iff.1 (Nat.le_zero.1 h)
    show (lx.takeEndingIf isBlank).2.tape = _
    cases hcursor : lx.cursor with
    | input => exact (lx.input_iff.1 hcursor hrest).elim
    | terminator =>
      have hpending : lx.tape.pending = [lx.ending] := pending_of_terminator hcursor
      by_cases hblank : isBlank lx.ending
      · rw [takeEndingIf_some hcursor hblank, close_tape, Tape.skipBlank_of_blank hpending hblank,
          Tape.skipBlank_of_nil rfl]
      · rw [takeEndingIf_none fun _ => hblank, Tape.skipBlank_of_not_blank hpending hblank]
    | exhausted =>
      rw [takeEndingIf_none (by simp [hcursor]),
        Tape.skipBlank_of_nil (pending_of_exhausted hcursor)]
  | cons d cs ih =>
    unfold skipBlanks
    rw [peek_eq]
    cases hpending : lx.pending with
    | nil => exact (Tape.skipBlank_of_nil hpending).symm
    | cons c rest =>
      by_cases hc : isBlank c
      · obtain ⟨-, hadvance⟩ := advance_of_cons hpending
        have hrest : lx.advance.2.rest = lx.rest.tail := by
          rw [← pending_dropLast, ← pending_dropLast, hpending]
          have hbehind : lx.advance.2.pending = rest := congrArg Tape.pending hadvance
          rw [hbehind]
          cases rest <;> rfl
        rw [Tape.skipBlank_of_blank hpending hc, ← hadvance, List.head?_cons, Option.any_some,
          if_pos hc]
        refine ih _ ?_
        rw [hrest, List.length_tail]
        exact Nat.sub_le_of_le_add h
      · rw [Tape.skipBlank_of_not_blank hpending hc, List.head?_cons, Option.any_some, if_neg hc]

theorem skipBlank_tape (lx : Lexer) : lx.skipBlank.tape = lx.tape.skipBlank :=
  lx.skipBlanks_tape (Nat.le_refl _)

/-- A run that starts in the source, up to `more`. It takes the character that ends the input if
nothing else is left and the run goes on with that. -/
theorem run_cases {run more : List Char} (h : lx.cursor = .input) (hrest : lx.rest = run ++ more)
    (goesOn : Char → Bool) :
    ∃ last after, (lx.advanceBy run.length).takeEndingIf goesOn = (last, after) ∧
      (more = [] ∧ goesOn lx.ending ∧ last = some lx.ending ∧
          after.tape = lx.tape.past (run ++ [lx.ending]) [] ∨
        (more = [] → ¬ goesOn lx.ending) ∧ last = none ∧
          after.tape = lx.tape.past run (more ++ [lx.ending])) := by
  have hcursor := advanceBy_cursor h run.length
  have htape := advanceBy_tape h run.length
  rw [hrest, List.drop_left] at hcursor
  rw [hrest, List.drop_left, List.take_left] at htape
  by_cases htakes : more = [] ∧ goesOn lx.ending
  · obtain ⟨rfl, hgoes⟩ := htakes
    refine ⟨_, _, @takeEndingIf_some (lx.advanceBy run.length) _ hcursor hgoes,
      .inl ⟨rfl, hgoes, rfl, ?_⟩⟩
    rw [close_tape, htape]
    exact lx.tape.past_past run [lx.ending] []
  · have hleft : (lx.advanceBy run.length).cursor = .terminator → ¬ goesOn lx.ending := by
      intro hend hgoes
      refine htakes ⟨Decidable.by_contra fun hne => ?_, hgoes⟩
      rw [hcursor, if_neg hne] at hend
      cases hend
    exact ⟨_, _, @takeEndingIf_none (lx.advanceBy run.length) _ hleft,
      .inr ⟨fun hmore hgoes => htakes ⟨hmore, hgoes⟩, rfl, htape⟩⟩

/-! ## One token -/

/-- The lexer reads the lexeme `x` off the tape. -/
structure Makes (r : Reading) (tape : Tape) (x : Lexeme) : Prop where
  kind : r.1 = x.kind
  text : r.2.1 = x.read ++ x.echo
  behind : r.2.2.tape = tape.past x.read x.rest

variable {tape : Tape} {start : Lexer}

theorem pending_of_tape {read : List Char} (h : lx.tape = tape.past read rest) :
    lx.pending = rest := congrArg Tape.pending h

theorem readPair_makes (alone paired : Kind) (h : lx.tape = tape.past [c] rest) :
    Makes (lx.readPair alone paired c) tape (.scanPair alone paired c rest) := by
  have hpending := pending_of_tape h
  unfold readPair
  rw [peek_eq, hpending]
  split
  · rename_i hhead
    obtain ⟨more, rfl⟩ := List.head?_eq_some_iff.1 hhead
    have hadvance := (advance_of_cons hpending).2
    rw [h] at hadvance
    exact ⟨rfl, rfl, hadvance.trans (tape.past_past [c] ['='] more)⟩
  · rename_i hhead
    rw [Lexeme.scanPair_alone hhead]
    exact ⟨rfl, rfl, h⟩

/-- In a string that is open already, with `taken` read of it in reverse. -/
theorem readString_makes {quote : Char} {taken cs : List Char}
    (h : lx.tape = tape.past taken.reverse rest) (hcs : lx.rest = cs) :
    Makes (lx.readString quote taken cs) tape
      { Lexeme.scanString quote rest with
        read := taken.reverse ++ (Lexeme.scanString quote rest).read.tail } := by
  have hpending := pending_of_tape h
  induction cs generalizing lx taken rest with
  | nil =>
    have hlast : rest.dropLast = [] := by rw [← hpending, pending_dropLast, hcs]
    have hwhole := Lexeme.dropLast_append_getLast? rest
    rw [hlast, List.nil_append] at hwhole
    simp only [Lexeme.scanString, hlast, hwhole]
    exact ⟨rfl, by simp [readString], by simpa [readString] using h⟩
  | cons d ds ih =>
    have hcursor : lx.cursor = .input := lx.input_iff.2 (by simp [hcs])
    rw [pending_of_input hcursor, hcs, List.cons_append] at hpending
    subst hpending
    obtain ⟨hfirst, hadvance⟩ := advance_of_cons (pending_of_tape h)
    have htaken : lx.advance.2.tape =
        tape.past (d :: taken).reverse (ds ++ [lx.ending]) := by
      rw [hadvance, h, List.reverse_cons]
      exact tape.past_past taken.reverse [d] _
    have hsource : lx.advanceInSource = (some d, lx.advance.2) := by
      rw [← hfirst, advanceInSource, hcursor]
    unfold readString
    simp only [hsource]
    by_cases hd : d = quote
    · subst hd
      rw [if_pos rfl, Lexeme.scanString_quote _ (by simp)]
      exact ⟨rfl, by simp, by simpa using htaken⟩
    · rw [if_neg hd, Lexeme.scanString_cons hd (by simp)]
      have hbehind : lx.advance.2.rest = ds := by
        rw [← pending_dropLast, pending_of_tape htaken, List.dropLast_concat]
      have hmakes := ih htaken hbehind (pending_of_tape htaken)
      simpa using hmakes

/-- A run that the character behind it goes on. -/
theorem run_concat {p : Char → Bool} {cs : List Char} (hcs : cs.dropWhile p = []) (hc : p c) :
    (cs ++ [c]).takeWhile p = cs.takeWhile p ++ [c] ∧ (cs ++ [c]).dropWhile p = [] := by
  have hall : ∀ d ∈ cs, p d := List.dropWhile_eq_nil_iff.1 hcs
  rw [List.takeWhile_append_of_pos hall, List.takeWhile_eq_self_iff.2 hall,
    List.dropWhile_append_of_pos hall]
  simp [hc]

/-- A run that stops before the character behind it, or earlier. -/
theorem run_stops {p : Char → Bool} {cs : List Char} (h : cs.dropWhile p = [] → ¬ p c) :
    (cs ++ [c]).takeWhile p = cs.takeWhile p ∧
      (cs ++ [c]).dropWhile p = cs.dropWhile p ++ [c] := by
  induction cs with
  | nil => simp [h rfl]
  | cons d ds ih =>
    by_cases hd : p d
    · obtain ⟨htake, hdrop⟩ := ih fun hds => h (by rw [List.dropWhile_cons_of_pos hd, hds])
      simp [hd, htake, hdrop]
    · simp [hd]

/-- The first character of a word or a number is the character that ends the input, or the run is
looked for in the source. -/
theorem first_cases (h : start.pending = c :: rest) :
    start.rest = [] ∧ rest = [] ∨
      ∃ ds, start.cursor = .input ∧ start.rest = c :: ds ∧ rest = ds ++ [start.ending] := by
  cases hcursor : start.cursor with
  | input =>
    obtain ⟨d, ds, hrest⟩ := List.exists_cons_of_ne_nil (start.input_iff.1 hcursor)
    rw [pending_of_input hcursor, hrest, List.cons_append, List.cons.injEq] at h
    obtain ⟨rfl, rfl⟩ := h
    exact .inr ⟨ds, rfl, hrest, rfl⟩
  | terminator =>
    rw [pending_of_terminator hcursor, List.cons.injEq] at h
    exact .inl ⟨rest_of_ne_input (by simp [hcursor]), h.2.symm⟩
  | exhausted =>
    rw [pending_of_exhausted hcursor] at h
    cases h

theorem readWord_makes (hc : isLetter c) (hstart : start.pending = c :: rest)
    (h : lx.tape = start.tape.past [c] rest) :
    Makes (start.readWord c lx) start.tape (.scanWord c rest) := by
  rcases first_cases hstart with ⟨hsource, rfl⟩ | ⟨ds, hcursor, hsource, rfl⟩
  · have hword : word? start.rest = none := by rw [hsource]; rfl
    simp only [readWord, hword]
    exact ⟨rfl, rfl, h⟩
  · have hword : word? start.rest = some (c :: ds.takeWhile isWordChar) := by
      simp [word?, hsource, hc]
    have hsplit : start.rest = (c :: ds.takeWhile isWordChar) ++ ds.dropWhile isWordChar := by
      rw [hsource, List.cons_append, List.takeWhile_append_dropWhile]
    obtain ⟨last, after, htaken, hcases⟩ := run_cases hcursor hsplit isWordChar
    simp only [readWord, hword, htaken, Lexeme.scanWord]
    rcases hcases with ⟨hmore, hgoes, rfl, htape⟩ | ⟨hstop, rfl, htape⟩
    · obtain ⟨htake, hdrop⟩ := run_concat hmore hgoes
      rw [htake, hdrop]
      exact ⟨rfl, by simp, htape⟩
    · obtain ⟨htake, hdrop⟩ := run_stops hstop
      rw [htake, hdrop]
      exact ⟨by simp, by simp, htape⟩

theorem readNumber_eq {number : List Char} {last : Option Char} {after : Lexer}
    (hnumber : number? start.rest = some number)
    (hrun : (start.advanceBy number.length).takeEndingIf
      (fun d => isDigit d || d = '.' && !number.contains '.') = (last, after)) :
    start.readNumber c lx =
      let isFloat := number.contains '.' || last = some '.'
      if isFloat && after.pending.head? = some '.' then
        (.illegal, number ++ last.toList ++ ['.'], after)
      else (if isFloat then .float else .int, number ++ last.toList, after) := by
  simp only [readNumber, hnumber, hrun, peek_eq]

/-- Digits with a point behind them. -/
theorem readPoint_makes {ds part : List Char} (hc : isDigit c)
    (hcursor : start.cursor = .input) (hsource : start.rest = c :: ds)
    (hpart : ds.dropWhile isDigit = '.' :: part) (lx : Lexer) :
    Makes (start.readNumber c lx) start.tape (.scanNumber c (ds ++ [start.ending])) := by
  have hnumber : number? start.rest =
      some (c :: ds.takeWhile isDigit ++ '.' :: part.takeWhile isDigit) := by
    simp [number?, hsource, hc, hpart]
  have hsplit : start.rest = (c :: ds.takeWhile isDigit ++ '.' :: part.takeWhile isDigit) ++
      part.dropWhile isDigit := by
    rw [List.append_assoc, List.cons_append, List.cons_append, List.takeWhile_append_dropWhile,
      ← hpart, List.takeWhile_append_dropWhile, hsource]
  obtain ⟨htake, hdrop⟩ := @run_stops start.ending isDigit ds (by simp [hpart])
  rw [hpart, List.cons_append] at hdrop
  have hgoesOn : (fun d => isDigit d || d = '.' &&
      !(c :: ds.takeWhile isDigit ++ '.' :: part.takeWhile isDigit).contains '.') = isDigit := by
    simp
  obtain ⟨last, after, htaken, hcases⟩ := run_cases hcursor hsplit isDigit
  rw [readNumber_eq hnumber (by rw [hgoesOn, htaken]), Lexeme.scanNumber_twoRuns hdrop, htake]
  have hpoint :
      (c :: ds.takeWhile isDigit ++ '.' :: part.takeWhile isDigit).contains '.' = true := by
    simp
  simp only [hpoint, Bool.true_or, Bool.true_and, decide_eq_true_eq, if_true]
  rcases hcases with ⟨hmore, hgoes, rfl, htape⟩ | ⟨hstop, rfl, htape⟩
  · obtain ⟨htake, hdrop⟩ := run_concat hmore hgoes
    rw [htake, hdrop, pending_of_tape htape]
    exact ⟨rfl, by simp, by simpa using htape⟩
  · obtain ⟨htake, hdrop⟩ := run_stops hstop
    rw [htake, hdrop, pending_of_tape htape]
    split <;> exact ⟨rfl, by simp, htape⟩

/-- Digits with none behind them. -/
theorem readWhole_makes {ds : List Char} (hc : isDigit c)
    (hcursor : start.cursor = .input) (hsource : start.rest = c :: ds)
    (hpart : (ds.dropWhile isDigit).head? ≠ some '.') (lx : Lexer) :
    Makes (start.readNumber c lx) start.tape (.scanNumber c (ds ++ [start.ending])) := by
  have hnumber : number? start.rest = some (c :: ds.takeWhile isDigit) := by
    have hdrop : ∀ more, ds.dropWhile isDigit ≠ '.' :: more := by
      rintro more hmore
      simp [hmore] at hpart
    simp [number?, hsource, hc]
  have hsplit : start.rest = c :: ds.takeWhile isDigit ++ ds.dropWhile isDigit := by
    rw [List.cons_append, List.takeWhile_append_dropWhile, hsource]
  have hpoint : (c :: ds.takeWhile isDigit).contains '.' = false := by
    refine Bool.eq_false_iff.2 fun hmem => ?_
    have hdigits : ∀ d ∈ c :: ds.takeWhile isDigit, isDigit d :=
      List.forall_mem_cons.2 ⟨hc, List.all_eq_true.1 List.all_takeWhile⟩
    exact absurd (hdigits '.' (List.contains_iff_mem.1 hmem)) (by decide)
  obtain ⟨last, after, htaken, hcases⟩ :=
    run_cases hcursor hsplit fun d => isDigit d || d = '.' && !false
  rw [readNumber_eq hnumber (by rw [hpoint, htaken])]
  simp only [hpoint, Bool.false_or]
  rcases hcases with ⟨hmore, hgoes, rfl, htape⟩ | ⟨hstop, rfl, htape⟩
  · by_cases hdigit : isDigit start.ending
    · obtain ⟨htake, hdrop⟩ := run_concat hmore hdigit
      have hother : start.ending ≠ '.' := fun heq => absurd (heq ▸ hdigit) (by decide)
      rw [Lexeme.scanNumber_oneRun (by simp [hdrop]), htake, hdrop]
      simp only [Option.some.injEq, hother, decide_false, Bool.false_and]
      exact ⟨rfl, by simp, htape⟩
    · have hlast : start.ending = '.' := by simpa [hdigit] using hgoes
      obtain ⟨htake, hdrop⟩ := run_stops fun _ => hdigit
      rw [hmore, hlast] at hdrop
      rw [hlast] at htape htake ⊢
      rw [Lexeme.scanNumber_twoRuns hdrop, htake, pending_of_tape htape]
      exact ⟨rfl, by simp, htape⟩
  · have hdigit : ds.dropWhile isDigit = [] → ¬ isDigit start.ending := by
      intro hmore hdigit
      exact hstop hmore (by simp [hdigit])
    obtain ⟨htake, hdrop⟩ := run_stops hdigit
    rw [Lexeme.scanNumber_oneRun ?_, htake, hdrop]
    · exact ⟨rfl, by simp, htape⟩
    · rw [hdrop]
      cases hmore : ds.dropWhile isDigit with
      | nil => simpa using fun heq => hstop hmore (by simp [heq])
      | cons d more => simpa [hmore] using hpart

theorem readNumber_makes (hc : isDigit c) (hstart : start.pending = c :: rest)
    (h : lx.tape = start.tape.past [c] rest) :
    Makes (start.readNumber c lx) start.tape (.scanNumber c rest) := by
  rcases first_cases hstart with ⟨hsource, rfl⟩ | ⟨ds, hcursor, hsource, rfl⟩
  · have hnumber : number? start.rest = none := by rw [hsource]; rfl
    simp only [readNumber, hnumber]
    exact ⟨rfl, rfl, h⟩
  · cases hpart : ds.dropWhile isDigit with
    | nil => exact readWhole_makes hc hcursor hsource (by simp [hpart]) lx
    | cons d part =>
      by_cases hd : d = '.'
      · exact readPoint_makes hc hcursor hsource (hd ▸ hpart) lx
      · exact readWhole_makes hc hcursor hsource (by simpa [hpart] using hd) lx

/-- What starts with `c` is read off the tape as a lexeme. -/
theorem read_makes (hstart : start.pending = c :: rest) (h : lx.tape = start.tape.past [c] rest) :
    Makes (start.read c lx) start.tape (.scan c rest) := by
  unfold read Lexeme.scan
  split
  · exact readPair_makes _ _ h
  split
  · exact readPair_makes _ _ h
  cases hmark : Kind.ofMark? c with
  | some kind =>
    obtain ⟨hquote, hletter, hdigit⟩ := Kind.ofMark?_apart hmark
    dsimp only
    rw [if_neg hquote, if_neg hletter, if_neg hdigit]
    exact ⟨rfl, rfl, h⟩
  | none =>
    dsimp only
    split
    · have hstring := @readString_makes lx rest start.tape c [c] _ h rfl
      rwa [List.reverse_singleton, List.singleton_append, Lexeme.scanString_read] at hstring
    split
    · rename_i hletter
      exact readWord_makes hletter hstart h
    split
    · rename_i hdigit
      exact readNumber_makes hdigit hstart h
    · exact ⟨rfl, rfl, h⟩

theorem Makes.token {r : Reading} {x : Lexeme} (h : Makes r start.tape x) :
    start.token r.1 r.2.1 r.2.2 = start.tape.token x := by
  rw [Lexer.token, Tape.token, h.kind, h.text, Lexeme.shown, ← h.behind]
  rfl

/-- A lexer gives the token that its tape gives, and goes on from where that goes on. -/
theorem next_tape (lx : Lexer) :
    lx.next.1 = lx.tape.next.1 ∧ lx.next.2.tape = lx.tape.next.2 := by
  have hskip : lx.skipBlank.pending = lx.tape.skipBlank.pending :=
    congrArg Tape.pending lx.skipBlank_tape
  by_cases hnext : lx.cursor = .exhausted
  · rw [Tape.next_of_pending_nil (show lx.tape.pending = [] from pending_of_exhausted hnext)]
    simp [next, hasNext, hnext]
  simp only [next, hasNext, hnext, ne_eq, not_false_eq_true, decide_true, if_true]
  cases hpending : lx.skipBlank.pending with
  | nil =>
    rw [advance_of_exhausted (lx.skipBlank.exhausted_iff.2 hpending),
      Tape.next_eq_none (hskip ▸ hpending)]
    exact ⟨rfl, lx.skipBlank_tape⟩
  | cons c rest =>
    obtain ⟨hfirst, hadvance⟩ := advance_of_cons hpending
    have hmakes := read_makes hpending hadvance
    rw [Tape.next_eq_some (hskip ▸ hpending), ← skipBlank_tape]
    generalize lx.skipBlank.advance = taken at hfirst hmakes
    obtain ⟨first, after⟩ := taken
    cases hfirst
    exact ⟨congrArg some hmakes.token, hmakes.behind⟩

/-! ## All tokens -/

theorem take_tape (n : Nat) (lx : Lexer) :
    (lx.take n).1 = (lx.tape.take n).1 ∧ (lx.take n).2.tape = (lx.tape.take n).2 := by
  induction n generalizing lx with
  | zero => exact ⟨rfl, rfl⟩
  | succ n ih =>
    obtain ⟨hfirst, hbehind⟩ := lx.next_tape
    unfold take Tape.take
    generalize lx.next = taken at hfirst hbehind
    generalize lx.tape.next = taken' at hfirst hbehind
    obtain ⟨first, after⟩ := taken
    obtain ⟨first', after'⟩ := taken'
    cases hfirst
    cases hbehind
    cases first with
    | none => exact ⟨rfl, rfl⟩
    | some t => exact ⟨congrArg (t :: ·) (ih after).1, (ih after).2⟩

theorem tokens_tape (lx : Lexer) : lx.tokens = lx.tape.tokens := by
  unfold tokens drain Tape.tokens
  rw [left_eq]
  exact (lx.take_tape _).1

variable {behind : Lexer} {t : Token}

theorem tape_next {first : Option Token} (h : lx.next = (first, behind)) :
    lx.tape.next = (first, behind.tape) := by
  obtain ⟨hfirst, hafter⟩ := lx.next_tape
  rw [h] at hfirst hafter
  exact Prod.ext hfirst.symm hafter.symm

theorem next_file (lx : Lexer) : lx.next.2.file = lx.file := by
  have hafter := congrArg Tape.file lx.next_tape.2
  rw [Tape.next_file] at hafter
  exact hafter

theorem next_of_exhausted (h : lx.cursor = .exhausted) : lx.next = (none, lx) := by
  simp [next, hasNext, h]

/-- There is no token just when the input is over. -/
theorem exhausted_of_none (h : lx.next = (none, behind)) : behind.cursor = .exhausted :=
  behind.exhausted_iff.2 (Tape.next_pending_of_none (tape_next h))

theorem take_of_exhausted (h : lx.cursor = .exhausted) (n : Nat) : lx.take n = ([], lx) := by
  cases n with
  | zero => rfl
  | succ n => simp only [take, next_of_exhausted h]

theorem tokens_of_none (h : lx.next = (none, behind)) : lx.tokens = [] := by
  rw [tokens_tape, Tape.tokens_of_none (tape_next h)]

theorem tokens_of_some (h : lx.next = (some t, behind)) : lx.tokens = t :: behind.tokens := by
  rw [tokens_tape, Tape.tokens_of_some (tape_next h), ← tokens_tape]

theorem tokens_length_le (lx : Lexer) : lx.tokens.length ≤ lx.left := by
  rw [tokens_tape, left_eq]
  exact lx.tape.tokens_length_le

theorem next_left_lt (h : lx.next = (some t, behind)) : behind.left < lx.left := by
  rw [left_eq, left_eq]
  exact Tape.next_pending_length_lt (tape_next h)

theorem nextOrEnd_of_tape (h : lx.tape.next = (some t, behind.tape)) (hne : behind.pending ≠ []) :
    lx.nextOrEnd = (t, behind) := by
  obtain ⟨hfirst, hafter⟩ := lx.next_tape
  rw [h] at hfirst hafter
  unfold nextOrEnd
  cases hnext : lx.next with
  | mk first after =>
    rw [hnext] at hfirst hafter
    cases hfirst
    rw [eq_of_tape hafter.symm hne]

/-! ## Where tokens are -/

/-- The lexer once it was asked for `n` tokens. -/
def after (lx : Lexer) (n : Nat) : Lexer := (lx.take n).2

/-- Where the `i`-th token is read from, counted from zero. -/
def startOf (lx : Lexer) (i : Nat) : Nat := (lx.after i).skipBlank.offset

/-- Up to where the `i`-th token is read. -/
def stopOf (lx : Lexer) (i : Nat) : Nat := (lx.after (i + 1)).offset

theorem after_tape (lx : Lexer) (n : Nat) : (lx.after n).tape = lx.tape.after n :=
  (lx.take_tape n).2

theorem startOf_tape (lx : Lexer) (i : Nat) : lx.startOf i = lx.tape.startOf i := by
  rw [Tape.startOf, ← after_tape, ← skipBlank_tape]
  rfl

theorem stopOf_tape (lx : Lexer) (i : Nat) : lx.stopOf i = lx.tape.stopOf i := by
  rw [Tape.stopOf, ← after_tape]
  rfl

/-! ## Lexers of a source -/

/-- A source that nothing is read of yet, with the character that ends it. -/
theorem tape_endingWith (file source : String) (c : Char) :
    ((ofString file source).endingWith c).tape = ⟨file, 0, source.toList ++ [c]⟩ := by
  have hcursor : ((ofString file source).endingWith c).cursor ≠ .exhausted := by
    show (if source.toList = [] then Cursor.terminator else .input) ≠ _
    split <;> decide
  rw [tape, pending, if_neg hcursor]
  rfl

theorem tape_ofString (file source : String) :
    (ofString file source).tape = ⟨file, 0, source.toList ++ ['\x00']⟩ :=
  tape_endingWith file source '\x00'

theorem tokens_endingWith (file source : String) (c : Char) :
    ((ofString file source).endingWith c).tokens =
      (Tape.mk file 0 (source.toList ++ [c])).tokens := by
  rw [tokens_tape, tape_endingWith]

theorem tokens_ofString (file source : String) :
    (ofString file source).tokens = (Tape.mk file 0 (source.toList ++ ['\x00'])).tokens := by
  rw [tokens_tape, tape_ofString]

/-- The lexer with another offset to count from. -/
def countingFrom (lx : Lexer) (offset : Nat) : Lexer := { lx with offset := offset }

theorem tape_countingFrom (file source : String) (n : Nat) :
    ((ofString file source).countingFrom n).tape = ⟨file, n, source.toList ++ ['\x00']⟩ :=
  congrArg (fun tape : Tape => { tape with offset := n }) (tape_ofString file source)

theorem pending_countingFrom (file source : String) (n : Nat) :
    ((ofString file source).countingFrom n).pending ≠ [] := by
  have hpending : ((ofString file source).countingFrom n).pending = source.toList ++ ['\x00'] :=
    congrArg Tape.pending (tape_countingFrom file source n)
  simp [hpending]

end Lexer

end ScriptFront
