import ScriptFront.Diagnostic.Report
import ScriptFront.Proofs.Parser.Causes
import ScriptFront.Proofs.Text.Line
import ScriptFront.Proofs.Token.Forms

/-!
# The caret of a report

A diagnostic stands where a token starts, or where the source ends, so no blank is behind its place
(`Lexer.tokens_start`). That puts the place behind the indentation of its line
(`Line.Holds.points`): between the two is a gap, and the caret of the report stands under the
character behind that gap.
-/

namespace ScriptFront

open Text

/-! ## Where tokens start -/

/-- Where a token starts the source goes on with its first character, which is no blank. There is no
character there if the token is the end of the input alone. -/
theorem Lexer.tokens_start {file source : String} {c : Char} {t : Token}
    (ht : t ∈ ((ofString file source).endingWith c).tokens) :
    ∃ before behind, source.toList = before ++ behind ∧ t.span.start = .ofNat (width before) ∧
      ∀ d ∈ behind.head?, ¬ isBlank d ∧ t.text.toList.head? = some d := by
  rw [tokens_endingWith] at ht
  obtain ⟨i, hi⟩ := List.mem_iff_getElem?.1 ht
  obtain ⟨before, x, hx, htext, -, hstart, -, hshown⟩ := @Tape.tokens_shaped file [] _ i t hi
  obtain ⟨d, ds, hread, hd⟩ := hx.head
  have hhead : t.text.toList.head? = some d := by
    rw [hshown, Lexeme.shown, String.toList_ofList, hread]
    rfl
  rw [List.nil_append, hread, List.cons_append] at htext
  rcases List.eq_nil_or_concat (ds ++ x.rest) with hnil | ⟨init, last, hconcat⟩
  · rw [hnil] at htext
    obtain ⟨hsource, -⟩ := List.append_inj' htext rfl
    exact ⟨before, [], by rw [hsource, List.append_nil], hstart, by simp⟩
  · rw [hconcat, List.concat_eq_append, ← List.cons_append, ← List.append_assoc] at htext
    obtain ⟨hsource, -⟩ := List.append_inj' htext rfl
    refine ⟨before, d :: init, hsource, hstart, ?_⟩
    rintro d' ⟨⟩
    exact ⟨hd, hhead⟩

/-! ## Places behind an indentation -/

namespace Text

theorem isBlank_of_isIndent {c : Char} (h : isIndent c) : isBlank c := by
  simp only [isIndent, Bool.or_eq_true, decide_eq_true_eq] at h
  rcases h with rfl | rfl <;> rfl

/-- Of two starts of a text, the one that takes less room is a start of the other. -/
theorem prefix_of_width_le {before behind text rest : List Char}
    (h : before ++ behind = text ++ rest) (hle : width before ≤ width text) : before <+: text := by
  rcases List.append_eq_append_iff.1 h with ⟨more, rfl, -⟩ | ⟨more, rfl, -⟩
  · exact List.prefix_append _ _
  · rw [width_append] at hle
    have hmore : more = [] := width_eq_zero (by omega)
    exact ⟨[], by rw [hmore, List.append_nil, List.append_nil]⟩

theorem charsIn?_cons {bytes : Nat} (h : bytes ≠ 0) (c : Char) (cs : List Char) :
    charsIn? (c :: cs) bytes =
      if c.utf8Size ≤ bytes then (charsIn? cs (bytes - c.utf8Size)).map (· + 1) else none := by
  cases bytes with
  | zero => exact (h rfl).elim
  | succ bytes => rfl

theorem charsIn?_append (cs ds : List Char) : charsIn? (cs ++ ds) (width cs) = some cs.length := by
  induction cs with
  | nil => simp [charsIn?]
  | cons c cs ih =>
    have hpos : width (c :: cs) ≠ 0 := fun h => List.cons_ne_nil _ _ (width_eq_zero h)
    rw [List.cons_append, charsIn?_cons hpos, width_cons, if_pos (Nat.le_add_right _ _),
      Nat.add_sub_cancel_left, ih]
    rfl

/-- The place is in the line behind its indentation and a gap, and the source goes on with `behind`
from there. -/
structure Line.Points (line : Line) (source : List Char) (offset : Nat)
    (above gap behind : List Char) : Prop where
  source : source = above ++ (line.text.takeWhile isIndent ++ (gap ++ behind))
  offset : offset = width above + line.column
  column : line.column = width (line.text.takeWhile isIndent ++ gap)
  text : ∃ tail, tail <+: behind ∧ line.text = line.text.takeWhile isIndent ++ (gap ++ tail)

/-- Without a blank behind it, a place is not inside the indentation. -/
theorem indent_prefix {head tail text : List Char} (htext : text = head ++ tail)
    (htail : ∀ d ∈ tail.head?, ¬ isBlank d) : text.takeWhile isIndent <+: head := by
  have hindent := List.takeWhile_prefix isIndent (l := text)
  rcases List.prefix_or_prefix_of_prefix hindent ⟨tail, htext.symm⟩ with hle | ⟨more, hmore⟩
  · exact hle
  · cases more with
    | nil => exact ⟨[], by rw [← hmore, List.append_nil, List.append_nil]⟩
    | cons d more =>
      have hd : isIndent d := Lexeme.all_takeWhile d (by rw [← hmore]; simp)
      obtain ⟨rest, hrest⟩ := hindent
      have hhead : tail = d :: (more ++ rest) := by
        rw [← hmore, List.append_assoc, htext] at hrest
        exact (List.append_cancel_left hrest).symm
      exact (htail d (by rw [hhead]; rfl) (isBlank_of_isIndent hd)).elim

theorem Line.Holds.points {first offset : Nat} {source before behind : List Char} {line : Line}
    (h : line.Holds first source offset) (hsource : source = before ++ behind)
    (hoffset : offset = width before) (hbehind : ∀ d ∈ behind.head?, ¬ isBlank d) :
    ∃ above gap, line.Points source offset above gap behind := by
  -- In both cases the line reaches up to the place or goes on behind it.
  obtain ⟨above, below, hline, habove, hcolumn⟩ : ∃ above below,
      source = above ++ (line.text ++ below) ∧ offset = width above + line.column ∧
        line.column ≤ width line.text := by
    cases h with
    | @broken above body below hline _ _ htext _ habove hcolumn =>
      refine ⟨above, below, hline, habove, ?_⟩
      rw [htext, width_append]
      omega
    | @last above hline _ _ _ habove hcolumn =>
      exact ⟨above, [], by rw [hline, List.append_nil], habove, hcolumn⟩
  obtain ⟨head, rfl⟩ : above <+: before :=
    prefix_of_width_le (hline.symm.trans hsource) (by omega)
  have hhead : line.column = width head := by
    rw [width_append] at hoffset
    omega
  have hrest : head ++ behind = line.text ++ below := by
    rw [hline, List.append_assoc] at hsource
    exact (List.append_cancel_left hsource).symm
  obtain ⟨tail, htext⟩ : head <+: line.text := prefix_of_width_le hrest (by omega)
  have htail : behind = tail ++ below := by
    rw [← htext, List.append_assoc] at hrest
    exact List.append_cancel_left hrest
  obtain ⟨gap, hgap⟩ := indent_prefix htext.symm fun d hd => hbehind d (by
    rw [htail, List.head?_append, Option.mem_def.1 hd]
    rfl)
  refine ⟨above, gap, ?_, habove, by rw [hhead, hgap], tail, ⟨below, htail.symm⟩, ?_⟩
  · rw [hsource, ← hgap, List.append_assoc, List.append_assoc]
  · rw [← List.append_assoc, hgap, htext]

namespace Line

variable {line : Line} {source above gap behind : List Char} {first offset : Nat}

theorem Points.caret (h : line.Points source offset above gap behind) :
    line.caret = gap.length := by
  obtain ⟨tail, -, htext⟩ := h.text
  have hchars : charsIn? line.text line.column =
      some (line.text.takeWhile isIndent ++ gap).length := by
    conv => lhs; rw [htext, h.column, ← List.append_assoc]
    exact charsIn?_append _ _
  rw [Line.caret, hchars, Option.getD_some, List.length_append, Nat.add_sub_cancel_left]

end Line

end Text

/-! ## Reports -/

/-- A token of the source, or the end behind them, starts where no blank is. -/
theorem Token.starts {file source : String} {c : Char} {t : Token}
    (ht : t ∈ ((Lexer.ofString file source).endingWith c).tokens ∨
      t = .atEnd file source.utf8ByteSize) :
    ∃ before behind, source.toList = before ++ behind ∧ t.span.start = .ofNat (width before) ∧
      ∀ d ∈ behind.head?, ¬ isBlank d ∧ t.text.toList.head? = some d := by
  rcases ht with ht | rfl
  · exact Lexer.tokens_start ht
  · exact ⟨source.toList, [], (List.append_nil _).symm, by rw [width_toList]; rfl, by simp⟩

end ScriptFront
