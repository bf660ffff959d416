import ScriptFront.Proofs.Token.Tiling

/-!
# The place of a lexer in its source

A lexer has `Read source before` if it stands behind `before` and has the rest of the source ahead
of it. Reading a token and setting the character that ends the input keep that, in any order
(`Read.serve`), so a lexer is always between two characters of its source and its tokens cover whole
characters. A lexer that is done stays so, whatever is asked of it.
-/

namespace ScriptFront

open Text

namespace Lexer

/-! ## Requests -/

/-- What a lexer can be asked for: a token, or to end the input by another character. -/
inductive Request where
  | next
  | endBy (c : Char)
  deriving DecidableEq, Repr

def answer (lx : Lexer) : Request → Option Token × Lexer
  | .next => lx.next
  | .endBy c => (none, lx.endingWith c)

/-- The tokens that the requests give one after the other, and the lexer behind them. -/
def serve (lx : Lexer) : List Request → List Token × Lexer
  | [] => ([], lx)
  | r :: rs =>
    let behind := (lx.answer r).2.serve rs
    ((lx.answer r).1.toList ++ behind.1, behind.2)

/-! ## What is read and what is left -/

/-- The lexer has read `before`, and the rest of the source is ahead of it. -/
structure Read (source before : List Char) (lx : Lexer) : Prop where
  split : source = before ++ lx.rest
  offset : lx.offset = width before

variable {source before : List Char} {lx : Lexer}

theorem read_ofString (file source : String) : Read source.toList [] (ofString file source) where
  split := rfl
  offset := rfl

/-- What is taken from the text is read, but for the character that ends the input. -/
theorem Read.past {after : Lexer} (h : Read source before lx) {read rest : List Char}
    (hsplit : read ++ rest = lx.pending) (hafter : after.tape = lx.tape.past read rest) :
    ∃ taken, Read source (before ++ taken) after := by
  have hsource := h.split
  have hoffset : after.offset = (lx.tape.past read rest).offset := congrArg Tape.offset hafter
  rw [← pending_dropLast, ← hsplit] at hsource
  have hrest : after.rest = rest.dropLast := by
    rw [← pending_dropLast, pending_of_tape hafter]
  cases rest with
  | nil =>
    refine ⟨read.dropLast, ?_, ?_⟩
    · simpa [hrest] using hsource
    · simp [hoffset, Tape.past, tape, h.offset]
  | cons c rest =>
    refine ⟨read, ?_, ?_⟩
    · rwa [List.dropLast_append_of_ne_nil (by simp), ← hrest, ← List.append_assoc] at hsource
    · simp [hoffset, Tape.past, tape, h.offset]

theorem Read.next (h : Read source before lx) :
    (∃ before', Read source before' lx.next.2) ∧
      ∀ t ∈ lx.next.1, ∃ body, t.Covers source body := by
  match hnext : lx.next with
  | (none, after) =>
    obtain ⟨-, hafter⟩ := Tape.next_none (tape_next hnext)
    obtain ⟨taken, htaken⟩ := h.past List.takeWhile_append_dropWhile hafter
    exact ⟨⟨_, htaken⟩, nofun⟩
  | (some t, after) =>
    obtain ⟨gap, hgap⟩ := h.past List.takeWhile_append_dropWhile lx.skipBlank_tape
    obtain ⟨c, rest, hp, rfl, hafter⟩ := Tape.next_some (tape_next hnext)
    rw [← skipBlank_tape] at hp hafter ⊢
    obtain ⟨body, hbody⟩ := hgap.past ((Lexeme.scan_split c rest).trans hp.symm) hafter
    refine ⟨⟨_, hbody⟩, ?_⟩
    rintro t ⟨⟩
    refine ⟨body, before ++ gap, _, by simpa using hbody.split, ?_⟩
    rw [← hbody.offset, ← hgap.offset]
    show Span.between _ (Tape.offset _) _ = .between _ after.tape.offset _
    rw [← hafter]
    rfl

theorem Read.endingWith (h : Read source before lx) (c : Char) :
    Read source before (lx.endingWith c) := ⟨h.split, h.offset⟩

theorem Read.answer (h : Read source before lx) (r : Request) :
    (∃ before', Read source before' (lx.answer r).2) ∧
      ∀ t ∈ (lx.answer r).1, ∃ body, t.Covers source body := by
  cases r with
  | next => exact h.next
  | endBy c => exact ⟨⟨before, h.endingWith c⟩, nofun⟩

/-- Whatever a lexer is asked for, it stays in its source and its tokens cover parts of that. -/
theorem Read.serve (h : Read source before lx) (rs : List Request) :
    (∃ before', Read source before' (lx.serve rs).2) ∧
      ∀ t ∈ (lx.serve rs).1, ∃ body, t.Covers source body := by
  induction rs generalizing before lx with
  | nil => exact ⟨⟨before, h⟩, by simp [Lexer.serve]⟩
  | cons r rs ih =>
    obtain ⟨⟨before', h'⟩, hfirst⟩ := h.answer r
    obtain ⟨hrest, hothers⟩ := ih h'
    refine ⟨hrest, fun t ht => ?_⟩
    rcases List.mem_append.1 ht with ht | ht
    · exact hfirst t (by simpa using ht)
    · exact hothers t ht

/-! ## Cursors -/

/-- Before the end of the source there is input, and nowhere else. -/
theorem Read.cursor_input_iff (h : Read source before lx) :
    lx.cursor = .input ↔ lx.offset < width source := by
  rw [lx.input_iff, h.split, width_append, h.offset]
  constructor
  · intro hne
    have : width lx.rest ≠ 0 := mt width_eq_zero hne
    omega
  · intro hlt hnil
    rw [hnil, width_nil] at hlt
    omega

/-- A lexer that is done stays done, whatever character is to end its input. -/
theorem serve_of_exhausted (h : lx.cursor = .exhausted) (rs : List Request) :
    ∃ c, lx.serve rs = ([], lx.endingWith c) := by
  induction rs generalizing lx with
  | nil => exact ⟨lx.ending, rfl⟩
  | cons r rs ih =>
    cases r with
    | next =>
      obtain ⟨c, hserve⟩ := ih h
      exact ⟨c, by simp [serve, answer, next_of_exhausted h, hserve]⟩
    | endBy d =>
      obtain ⟨c, hserve⟩ := @ih (lx.endingWith d) h
      exact ⟨c, by simp [serve, answer, hserve]; rfl⟩

/-- Each token uses up a character, and nothing gives one back. -/
theorem serve_length_le (lx : Lexer) (rs : List Request) :
    (lx.serve rs).1.length + (lx.serve rs).2.left ≤ lx.left := by
  induction rs generalizing lx with
  | nil => simp [serve]
  | cons r rs ih =>
    have hanswer : (lx.answer r).1.toList.length + (lx.answer r).2.left ≤ lx.left := by
      cases r with
      | next =>
        show lx.next.1.toList.length + lx.next.2.left ≤ _
        match h : lx.next with
        | (none, after) => simp [left, exhausted_of_none h]
        | (some t, after) =>
          have := next_left_lt h
          simp only [Option.toList_some, List.length_singleton]
          omega
      | endBy c => exact Nat.le_of_eq (Nat.zero_add _)
    have := ih (lx.answer r).2
    simp only [serve, List.length_append]
    omega

/-- Wherever requests in any order lead a lexer, it stands at a character of its source or behind
the last one, with input ahead just before the end of the source. Its tokens cover parts of the
source, and there are no more of them than characters and the one that ends the input. A lexer that
is done, as it is whenever it has no token to give, gives none any more and stays as it is, but for
the character that is to end its input. -/
theorem serve_keeps_place (file source : String) (rs : List Request) :
    let (ts, lx) := (ofString file source).serve rs
    (∃ before behind, source.toList = before ++ behind ∧ lx.offset = width before) ∧
      lx.offset ≤ source.utf8ByteSize ∧
      (lx.cursor = .input ↔ lx.offset < source.utf8ByteSize) ∧
      (∀ t ∈ ts, ∃ body, t.Covers source.toList body) ∧
      ts.length ≤ source.length + 1 ∧
      (lx.cursor = .exhausted → ∀ more, ∃ c, lx.serve more = ([], lx.endingWith c)) ∧
      (lx.next.1 = none → lx.next.2.cursor = .exhausted ∧
        ∀ more, ∃ c, lx.next.2.serve more = ([], lx.next.2.endingWith c)) := by
  obtain ⟨⟨before, hread⟩, hcovers⟩ := (read_ofString file source).serve rs
  have hlength := (ofString file source).serve_length_le rs
  generalize (ofString file source).serve rs = served at hread hcovers hlength
  obtain ⟨ts, lx⟩ := served
  simp only at hread hcovers hlength ⊢
  have hwidth : width source.toList = source.utf8ByteSize := width_toList source
  refine ⟨⟨before, _, hread.split, hread.offset⟩, ?_, ?_, hcovers, ?_, serve_of_exhausted, ?_⟩
  · rw [← hwidth, hread.split, width_append, hread.offset]
    exact Nat.le_add_right ..
  · rw [← hwidth]
    exact hread.cursor_input_iff
  · have hleft : (ofString file source).left = source.length + 1 := by
      have hpending : (ofString file source).pending = source.toList ++ ['\x00'] :=
        congrArg Tape.pending (tape_ofString file source)
      rw [left_eq, hpending, List.length_append, String.length_toList]
      rfl
    omega
  · intro hnone
    have hdone : lx.next.2.cursor = .exhausted := exhausted_of_none (Prod.ext hnone rfl)
    exact ⟨hdone, serve_of_exhausted hdone⟩

end Lexer

end ScriptFront
