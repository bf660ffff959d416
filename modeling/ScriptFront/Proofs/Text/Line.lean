import Mathlib.Data.List.DropRight
import ScriptFront.Proofs.Token.Tiling
import ScriptFront.Text.Line

/-!
# The line of an offset

Looking for a line goes through the lines before it and takes their bytes off the offset. What is
found (`Line.Holds`) is said of the source as a whole: the text of the line is all between two
breaks, as many breaks are above it as its number tells, and the offset is `column` bytes into it.
`lineAt?_exact` says the same of the bytes of the source.
-/

namespace ScriptFront.Text

/-! ## Lines -/

/-- Lines as they follow one another: each ends with its only break, but the last has none. -/
inductive Ruled : List (List Char) → Prop where
  | last {text : List Char} : '\n' ∉ text → Ruled [text]
  | line {body : List Char} {below : List (List Char)} : '\n' ∉ body → Ruled below →
      Ruled ((body ++ ['\n']) :: below)

theorem Ruled.ne_nil {ls : List (List Char)} (h : Ruled ls) : ls ≠ [] := by
  cases h <;> simp

/-- A character that is no break goes to the first line. -/
theorem Ruled.cons {c : Char} {text : List Char} {below : List (List Char)} (hc : c ≠ '\n')
    (h : Ruled (text :: below)) : Ruled ((c :: text) :: below) := by
  cases h with
  | last htext => exact .last (List.not_mem_cons_of_ne_of_not_mem hc.symm htext)
  | @line body below hbody hbelow =>
    exact @Ruled.line (c :: body) below (List.not_mem_cons_of_ne_of_not_mem hc.symm hbody) hbelow

theorem ruled_lines (cs : List Char) : Ruled (lines cs) := by
  induction cs with
  | nil => exact .last List.not_mem_nil
  | cons c cs ih =>
    unfold lines
    split
    · rename_i hc
      exact hc ▸ @Ruled.line [] _ List.not_mem_nil ih
    · rename_i hc
      split
      · rename_i hnil
        exact (ih.ne_nil hnil).elim
      · rename_i line rest hline
        exact (hline ▸ ih).cons hc

/-! ## What is found -/

/-- The offset is in this line of the source, whose first line has the number `first`. Only behind
the last line there can be an offset that is at the end of its line. -/
inductive Line.Holds (first : Nat) (source : List Char) (offset : Nat) (line : Line) : Prop where
  | broken {above body below : List Char} : source = above ++ (line.text ++ below) →
      (∀ c ∈ above.getLast?, c = '\n') → line.number = first + above.count '\n' →
      line.text = body ++ ['\n'] → '\n' ∉ body → offset = width above + line.column →
      line.column ≤ width body → Holds first source offset line
  | last {above : List Char} : source = above ++ line.text →
      (∀ c ∈ above.getLast?, c = '\n') → line.number = first + above.count '\n' →
      '\n' ∉ line.text → offset = width above + line.column →
      line.column ≤ width line.text → Holds first source offset line

/-- A line that is held below the first one is held with that above it. -/
theorem Line.Holds.below {first offset : Nat} {body source : List Char} {line : Line}
    (hbody : '\n' ∉ body) (h : Line.Holds (first + 1) source offset line) :
    Line.Holds first (body ++ '\n' :: source) (width (body ++ ['\n']) + offset) line := by
  have hcount (above : List Char) :
      (body ++ '\n' :: above).count '\n' = 1 + above.count '\n' := by
    rw [List.count_append, List.count_eq_zero.2 hbody, List.count_cons_self, Nat.zero_add,
      Nat.add_comm]
  have hends (above : List Char) (habove : ∀ c ∈ above.getLast?, c = '\n') :
      ∀ c ∈ (body ++ '\n' :: above).getLast?, c = '\n' := by
    intro c hc
    rcases List.eq_nil_or_concat above with rfl | ⟨init, d, rfl⟩
    · simpa [eq_comm] using hc
    · simp only [List.concat_eq_append] at habove hc
      rw [← List.cons_append, ← List.append_assoc, List.getLast?_concat] at hc
      exact habove c (by rwa [List.getLast?_concat])
  cases h with
  | @broken above text below hsource habove hnumber htext hnotin hoffset hcolumn =>
    refine @broken _ _ _ _ (body ++ '\n' :: above) text below ?_ (hends above habove) ?_ htext
      hnotin ?_ hcolumn
    · simp [hsource]
    · rw [hnumber, hcount, Nat.add_assoc]
    · simp [hoffset, Nat.add_assoc]
  | @last above hsource habove hnumber hnotin hoffset hcolumn =>
    refine @last _ _ _ _ (body ++ '\n' :: above) ?_ (hends above habove) ?_ hnotin ?_ hcolumn
    · simp [hsource]
    · rw [hnumber, hcount, Nat.add_assoc]
    · simp [hoffset, Nat.add_assoc]

theorem findLine?_last (first offset : Nat) (text : List Char) :
    findLine? first offset [text] =
      if offset ≤ width text then some ⟨first, text, offset⟩ else none := rfl

theorem findLine?_cons {text : List Char} {below : List (List Char)} (h : below ≠ [])
    (first offset : Nat) : findLine? first offset (text :: below) =
      if offset < width text then some ⟨first, text, offset⟩
      else findLine? (first + 1) (offset - width text) below := by
  cases below with
  | nil => exact (h rfl).elim
  | cons => rfl

/-- Every offset up to the end of the lines is in one of them. -/
theorem Ruled.holds {ls : List (List Char)} (h : Ruled ls) (first offset : Nat)
    (hle : offset ≤ width ls.flatten) :
    ∃ line, findLine? first offset ls = some line ∧ line.Holds first ls.flatten offset := by
  induction h generalizing first offset with
  | @last text htext =>
    have hle : offset ≤ width text := by simpa using hle
    refine ⟨⟨first, text, offset⟩, by rw [findLine?_last, if_pos hle], ?_⟩
    exact @Line.Holds.last _ _ _ _ [] (by simp) (by simp) rfl htext (by simp) hle
  | @line body below hbody hbelow ih =>
    rw [findLine?_cons hbelow.ne_nil]
    by_cases hin : offset < width (body ++ ['\n'])
    · refine ⟨⟨first, body ++ ['\n'], offset⟩, if_pos hin, ?_⟩
      have hcolumn : offset ≤ width body := by
        have hnewline : '\n'.utf8Size = 1 := rfl
        simp only [width_append, width_cons, width_nil] at hin
        omega
      exact @Line.Holds.broken _ _ _ _ [] body below.flatten (by simp) (by simp) rfl rfl hbody
        (by simp) hcolumn
    · have hle' : offset - width (body ++ ['\n']) ≤ width below.flatten := by
        simp only [List.flatten_cons, width_append] at hle hin ⊢
        omega
      obtain ⟨line, hline, hholds⟩ := ih (first + 1) _ hle'
      refine ⟨line, by rw [if_neg hin, hline], ?_⟩
      have hholds := hholds.below hbody
      rw [Nat.add_sub_cancel' (Nat.le_of_not_lt hin)] at hholds
      simpa using hholds

theorem Ruled.findLine?_eq_none {ls : List (List Char)} (h : Ruled ls) (first offset : Nat)
    (hlt : width ls.flatten < offset) : findLine? first offset ls = none := by
  induction h generalizing first offset with
  | @last text htext =>
    have hlt : width text < offset := by simpa using hlt
    rw [findLine?_last, if_neg (Nat.not_le_of_lt hlt)]
  | @line body below hbody hbelow ih =>
    rw [List.flatten_cons, width_append] at hlt
    rw [findLine?_cons hbelow.ne_nil, if_neg (by omega)]
    exact ih (first + 1) _ (by omega)

/-- A source has a line for each offset up to its end. -/
theorem lineAt?_holds {source : String} {offset : Nat} (h : offset ≤ source.utf8ByteSize) :
    ∃ line, lineAt? source offset = some line ∧ line.Holds 1 source.toList offset := by
  have hholds := (ruled_lines source.toList).holds 1 offset
  rw [flatten_lines, width_toList] at hholds
  exact hholds h

theorem lineAt?_eq_none_iff {source : String} {offset : Nat} :
    lineAt? source offset = none ↔ source.utf8ByteSize < offset := by
  constructor
  · intro hnone
    refine Nat.lt_of_not_le fun hle => ?_
    obtain ⟨line, hline, -⟩ := lineAt?_holds hle
    rw [hnone] at hline
    cases hline
  · intro hlt
    refine (ruled_lines source.toList).findLine?_eq_none 1 offset ?_
    rwa [flatten_lines, width_toList]

/-! ## Bytes -/

/-- The bytes that a source is stored as. -/
def bytes (source : String) : List UInt8 := source.toUTF8.data.toList

def utf8 (cs : List Char) : List UInt8 := cs.flatMap String.utf8EncodeChar

/-- The byte of a break. No other character has it. -/
def newline : UInt8 := 10

theorem utf8_append (cs ds : List Char) : utf8 (cs ++ ds) = utf8 cs ++ utf8 ds :=
  List.flatMap_append

theorem bytes_eq (source : String) : bytes source = utf8 source.toList := by
  have hstored := String.toByteArray_ofList (l := source.toList)
  rw [String.ofList_toList] at hstored
  rw [bytes, String.toUTF8_eq_toByteArray, hstored]
  simp [utf8, List.utf8Encode]

theorem length_utf8 (cs : List Char) : (utf8 cs).length = width cs := by
  induction cs with
  | nil => rfl
  | cons c cs ih => simp [utf8, ← ih]

theorem newline_eq_ofNat {n : Nat} (h : newline = UInt8.ofNat n) : n % 256 = 10 := by
  have hnat := congrArg UInt8.toNat h.symm
  rwa [UInt8.toNat_ofNat'] at hnat

theorem newline_mem_utf8EncodeChar {c : Char} (h : newline ∈ String.utf8EncodeChar c) :
    c = '\n' := by
  simp only [String.utf8EncodeChar] at h
  split at h
  · have hc := newline_eq_ofNat (List.mem_singleton.1 h)
    exact Char.toNat_inj.1 (show c.val.toNat = 10 by omega)
  · -- each byte of a longer character is at least 128
    split_ifs at h <;> simp only [List.mem_cons, List.not_mem_nil, or_false] at h
    · rcases h with h | h <;> have := newline_eq_ofNat h <;> omega
    · rcases h with h | h | h <;> have := newline_eq_ofNat h <;> omega
    · rcases h with h | h | h | h <;> have := newline_eq_ofNat h <;> omega

theorem count_newline_utf8 (cs : List Char) : (utf8 cs).count newline = cs.count '\n' := by
  induction cs with
  | nil => rfl
  | cons c cs ih =>
    have hhead : (String.utf8EncodeChar c).count newline = if c = '\n' then 1 else 0 := by
      split
      · rename_i hc
        subst hc
        decide
      · rename_i hc
        exact List.count_eq_zero.2 fun hmem => hc (newline_mem_utf8EncodeChar hmem)
    rw [utf8, List.flatMap_cons, List.count_append, hhead, List.count_cons, ← ih, Nat.add_comm]
    simp [utf8]

theorem newline_mem_utf8 {cs : List Char} : newline ∈ utf8 cs ↔ '\n' ∈ cs := by
  rw [← List.count_pos_iff, count_newline_utf8, List.count_pos_iff]

/-- Bytes that are whole lines: there are none, or the last is a break. -/
def Broken (bytes : List UInt8) : Prop := ∀ b ∈ bytes.getLast?, b = newline

theorem broken_utf8 {cs : List Char} (h : ∀ c ∈ cs.getLast?, c = '\n') : Broken (utf8 cs) := by
  rcases List.eq_nil_or_concat cs with rfl | ⟨init, c, rfl⟩
  · exact fun b hb => by cases hb
  · rw [List.concat_eq_append] at h ⊢
    have hc : c = '\n' := h c (by simp)
    have hbytes : utf8 ['\n'] = [newline] := by decide
    rw [hc, utf8_append, hbytes]
    exact fun b hb => by simpa [eq_comm] using hb

/-- Where the line of an offset starts: behind the last break before it. -/
def lineStart (bytes : List UInt8) (offset : Nat) : Nat :=
  ((bytes.take offset).rdropWhile (· ≠ newline)).length

/-- The bytes up to the first break, which is one of them, or all if there is none. -/
def lineFrom (bytes : List UInt8) : List UInt8 :=
  bytes.takeWhile (· ≠ newline) ++ (bytes.dropWhile (· ≠ newline)).take 1

theorem lineStart_append {above text : List UInt8} {column : Nat} (habove : Broken above)
    (htext : newline ∉ text.take column) :
    lineStart (above ++ text) (above.length + column) = above.length := by
  have hdrop : ∀ {init tail : List UInt8}, newline ∉ tail →
      (init ++ tail).rdropWhile (· ≠ newline) = init.rdropWhile (· ≠ newline) := by
    intro init tail htail
    induction tail using List.reverseRecOn with
    | nil => rw [List.append_nil]
    | append_singleton tail b ih =>
      have hb : b ≠ newline := fun hb => htail (hb ▸ List.mem_append_right _ (by simp))
      rw [← List.append_assoc, List.rdropWhile_concat, if_pos (by simpa using hb)]
      exact ih fun hmem => htail (List.mem_append_left _ hmem)
  have hself : above.rdropWhile (· ≠ newline) = above := by
    refine List.rdropWhile_eq_self_iff.2 fun hne => ?_
    have hlast := habove (above.getLast hne) (List.getLast?_eq_some_getLast hne)
    simpa using hlast
  rw [lineStart, List.take_length_add_append, hdrop htext, hself]

theorem lineFrom_broken {body below : List UInt8} (h : newline ∉ body) :
    lineFrom (body ++ newline :: below) = body ++ [newline] := by
  have hbody : ∀ b ∈ body, decide (b ≠ newline) = true := fun b hb =>
    decide_eq_true fun heq => h (heq ▸ hb)
  rw [lineFrom, List.takeWhile_append_of_pos hbody, List.dropWhile_append_of_pos hbody]
  simp

theorem lineFrom_last {text : List UInt8} (h : newline ∉ text) : lineFrom text = text := by
  have htext : ∀ b ∈ text, decide (b ≠ newline) = true := fun b hb =>
    decide_eq_true fun heq => h (heq ▸ hb)
  rw [lineFrom, List.takeWhile_eq_self_iff.2 htext, List.dropWhile_eq_nil_iff.2 htext]
  simp

/-- A line of an offset, told by the bytes of the source. -/
structure Line.Exact (bytes : List UInt8) (offset : Nat) (line : Line) : Prop where
  number : line.number = 1 + (bytes.take offset).count newline
  start_le : lineStart bytes offset ≤ offset
  column : line.column = offset - lineStart bytes offset
  text : utf8 line.text = lineFrom (bytes.drop (lineStart bytes offset))

theorem Line.Exact.of_split {above text : List UInt8} {line : Line} (habove : Broken above)
    (hnumber : line.number = 1 + above.count newline) (hnotin : newline ∉ text.take line.column)
    (htext : utf8 line.text = lineFrom text) :
    line.Exact (above ++ text) (above.length + line.column) := by
  have hstart := lineStart_append habove hnotin
  constructor
  · rw [List.take_length_add_append, List.count_append, List.count_eq_zero.2 hnotin, hnumber,
      Nat.add_zero]
  · rw [hstart]
    exact Nat.le_add_right _ _
  · rw [hstart, Nat.add_sub_cancel_left]
  · rw [hstart, List.drop_left, htext]

theorem Line.Holds.exact {source : List Char} {offset : Nat} {line : Line}
    (h : line.Holds 1 source offset) : line.Exact (utf8 source) offset := by
  cases h with
  | @broken above body below hsource habove hnumber htext hnotin hoffset hcolumn =>
    have hbytes : utf8 (line.text ++ below) = utf8 body ++ newline :: utf8 below := by
      rw [htext, List.append_assoc, utf8_append, utf8_append]
      rfl
    have hbody : newline ∉ utf8 body := fun hmem => hnotin (newline_mem_utf8.1 hmem)
    rw [hsource, hoffset, utf8_append, ← length_utf8]
    refine .of_split (broken_utf8 habove) (by rw [count_newline_utf8, hnumber]) ?_ ?_
    · rw [hbytes, List.take_append_of_le_length (by rwa [length_utf8])]
      exact fun hmem => hbody (List.mem_of_mem_take hmem)
    · rw [hbytes, lineFrom_broken hbody, htext, utf8_append]
      rfl
  | @last above hsource habove hnumber hnotin hoffset hcolumn =>
    have htext : newline ∉ utf8 line.text := fun hmem => hnotin (newline_mem_utf8.1 hmem)
    rw [hsource, hoffset, utf8_append, ← length_utf8]
    exact .of_split (broken_utf8 habove) (by rw [count_newline_utf8, hnumber])
      (fun hmem => htext (List.mem_of_mem_take hmem)) (lineFrom_last htext).symm

theorem Line.Exact.of_broken {bytes : List UInt8} {line : Line} (h : Broken bytes)
    (hline : line.Exact bytes bytes.length) : line = ⟨1 + bytes.count newline, [], 0⟩ := by
  have hstart : lineStart bytes bytes.length = bytes.length := by
    have happend := @lineStart_append bytes [] 0 h (by simp)
    rwa [List.append_nil] at happend
  obtain ⟨number, text, column⟩ := line
  have hnumber : number = 1 + bytes.count newline := by
    simpa only [List.take_length] using hline.number
  have hcolumn : column = 0 := by
    simpa only [hstart, Nat.sub_self] using hline.column
  have htext : utf8 text = [] := by
    rw [hline.text, hstart, List.drop_length]
    rfl
  cases text with
  | nil => rw [hnumber, hcolumn]
  | cons c cs => exact (String.utf8EncodeChar_ne_nil (List.append_eq_nil_iff.1 htext).1).elim

/-- A line is found for every offset but those behind the end of the source, and it is the one that
the bytes around the offset tell. Behind a last break, and in an empty source, it is empty. -/
theorem lineAt?_exact (source : String) (offset : Nat) :
    (lineAt? source offset = none ↔ (bytes source).length < offset) ∧
    (∀ line ∈ lineAt? source offset, line.Exact (bytes source) offset) ∧
    (Broken (bytes source) →
      lineAt? source (bytes source).length = some ⟨1 + (bytes source).count newline, [], 0⟩) := by
  have hlength : (bytes source).length = source.utf8ByteSize := by
    rw [bytes_eq, length_utf8, width_toList]
  have hexact (o : Nat) (line : Line) (hline : lineAt? source o = some line) :
      line.Exact (bytes source) o := by
    have hle : o ≤ source.utf8ByteSize := Nat.le_of_not_lt fun hlt => by
      rw [lineAt?_eq_none_iff.2 hlt] at hline
      cases hline
    obtain ⟨found, hfound, hholds⟩ := lineAt?_holds hle
    rw [hline] at hfound
    cases hfound
    exact bytes_eq source ▸ hholds.exact
  refine ⟨by rw [hlength, lineAt?_eq_none_iff], hexact offset, fun hbroken => ?_⟩
  obtain ⟨line, hline, -⟩ := lineAt?_holds (Nat.le_of_eq hlength)
  rw [hline, (hexact _ line hline).of_broken hbroken]

/-- A source of two breaks, the first behind a character of two bytes. -/
theorem lineAt?_exact_breaks :
    Broken (bytes "ä\n\n") ∧ lineAt? "ä\n\n" 4 = some ⟨3, [], 0⟩ := by
  have hbytes : bytes "ä\n\n" = [195, 164, newline, newline] := by
    rw [bytes_eq]
    decide
  have hbroken : Broken (bytes "ä\n\n") := by
    rw [hbytes]
    rintro b ⟨⟩
    rfl
  have hline := (lineAt?_exact "ä\n\n" 4).2.2 hbroken
  rw [hbytes] at hline
  exact ⟨hbroken, hline⟩

end ScriptFront.Text
