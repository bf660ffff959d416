import ScriptFront.Proofs.Parser.Stream
import ScriptFront.Proofs.Token.Ending
import ScriptFront.Proofs.Tree.Spans

/-!
# Sources that are cut, moved and put together

A semicolon that is a token cuts its source in two: what is before it is read as the same tokens
whatever is put there instead and behind it, as long as that goes on with no lexeme
(`tokens_semicolon`). A source that is read from another offset gives the same tokens with their
spans moved (`tokens_moved`). So behind a source that a semicolon ends another one gives its own
tokens, only further on (`tokens_append`). Spans are moved in 32 bits, which is to add a number as
long as the sources are not too long for that (`moves_of_mem`).
-/

namespace ScriptFront

open Text

namespace Tape

variable {file : String} {n : Nat}

/-! ## A cut at a semicolon -/

theorem tokens_head_semicolon {rest : List Char} (hrest : rest ≠ []) :
    (Tape.mk file n (';' :: rest)).tokens =
      ⟨.semicolon, ";", .between n (n + 1) file⟩ :: (Tape.mk file (n + 1) rest).tokens := by
  have hmark : Lexeme.Shaped ⟨.semicolon, [';'], [], rest⟩ :=
    @Lexeme.Shaped.mark ';' rest (by decide) (by decide) (by decide) (by decide) (by decide)
  exact @tokens_cons file n [] _ _ _ _ (by simp) hmark hrest

/-- A lexeme that is closed stays what it is if a character that goes on with nothing is put for one
behind it that is no point. -/
theorem shaped_replace {kind : Kind} {read echo head tail : List Char} {c d : Char}
    (hx : Lexeme.Shaped ⟨kind, read, echo, head ++ d :: tail⟩)
    (hclosed : ¬ Lexeme.Unclosed ⟨kind, read, echo, head ++ d :: tail⟩) (hd : d ≠ '.')
    (hc : Lexeme.Breaks c) (rest : List Char) :
    Lexeme.Shaped ⟨kind, read, echo, head ++ c :: rest⟩ := by
  refine hx.behind hclosed ?_
  cases head with
  | cons e head => exact .inl rfl
  | nil =>
    refine .inr ⟨?_, c, rfl, hc⟩
    rcases hx.echo with hecho | ⟨-, -, -, more, hmore⟩
    · exact hecho
    · exact (hd (List.cons.inj hmore).1).elim

/-- A lexeme in front of a semicolon, or of more that has one behind it, stays what it is if a
character that goes on with nothing is put for the semicolon. -/
theorem shaped_before_semicolon {kind : Kind} {read echo head tail : List Char}
    (hx : Lexeme.Shaped ⟨kind, read, echo, head ++ ';' :: (tail ++ ['\x00'])⟩) {c : Char}
    (hc : Lexeme.Breaks c) (rest : List Char) :
    Lexeme.Shaped ⟨kind, read, echo, head ++ c :: rest⟩ := by
  refine shaped_replace hx (fun hunclosed => ?_) (by decide) hc rest
  -- A string that is not closed goes up to the last character of its text.
  have hlength := (hx.unclosed_before hunclosed).1
  simp only [List.length_append, List.length_cons] at hlength
  omega

/-- The tokens of a source around a semicolon are those of the text before it and those of the text
behind it. Those before are the same whatever stands there instead and goes on with no lexeme. -/
theorem tokens_semicolon {cs : List Char} {ts us : List Token} {t : Token}
    (h : (Tape.mk file n (cs ++ ['\x00'])).tokens = ts ++ t :: us) (ht : t.kind = .semicolon) :
    ∃ head tail, cs = head ++ ';' :: tail ∧
      (Tape.mk file n (cs ++ ['\x00'])).startOf ts.length = n + width head ∧
      t = ⟨.semicolon, ";", .between (n + width head) (n + width head + 1) file⟩ ∧
      us = (Tape.mk file (n + width head + 1) (tail ++ ['\x00'])).tokens ∧
      ∀ c rest, Lexeme.Breaks c → (Tape.mk file n (head ++ c :: rest)).tokens =
        ts ++ (Tape.mk file (n + width head) (c :: rest)).tokens := by
  induction cuts '\x00' cs generalizing n ts with
  | @blank gap hgap hnul => exact absurd hnul (by decide)
  | @last gap body kind hgap _ hx =>
    rw [List.append_assoc, tokens_last hgap hx] at h
    obtain ⟨rfl, hlast⟩ : ts = [] ∧ _ = t := by
      cases ts with
      | nil => exact ⟨rfl, (List.cons.inj h).1⟩
      | cons u ts => simp at h
    obtain rfl : kind = .semicolon := by rw [← ht, ← hlast]
    have hread := congrArg List.getLast? (hx.read_of_mark (c := ';') rfl)
    simp at hread
  | @lexeme gap read echo rest kind hgap _ hx _ ih =>
    rw [List.append_assoc, List.append_assoc, tokens_cons hgap hx (by simp)] at h
    cases ts with
    | nil =>
      obtain ⟨hfirst, rfl⟩ := List.cons.inj h
      obtain rfl : kind = .semicolon := by rw [← ht, ← hfirst]
      obtain rfl := hx.read_of_mark (c := ';') rfl
      have hecho : echo = [] := by
        rcases hx.echo with hecho | ⟨-, hkind, -⟩
        · exact hecho
        · cases hkind
      subst hecho
      refine ⟨gap, rest, rfl, ?_, hfirst.symm, rfl, fun c rest' _ => tokens_gap hgap _⟩
      rw [List.append_assoc, List.append_assoc]
      exact congrArg Tape.offset (skipBlank_lexeme hgap hx)
    | cons u ts =>
      obtain ⟨rfl, htail⟩ := List.cons.inj h
      obtain ⟨head, tail, rfl, hplace, hsemi, hbehind, hbefore⟩ := ih htail
      have hwidth : n + width (gap ++ (read ++ head)) =
          n + width gap + width read + width head := by simp [Nat.add_assoc]
      refine ⟨gap ++ (read ++ head), tail, by simp, ?_, hwidth ▸ hsemi, hwidth ▸ hbehind, ?_⟩
      · rw [List.append_assoc, List.append_assoc, hwidth, ← hplace]
        exact startOf_succ (next_cons hgap hx (by simp)) ts.length
      intro c rest' hc
      rw [List.append_assoc] at hx
      have hx' := shaped_before_semicolon hx hc rest'
      rw [List.append_assoc, List.append_assoc, tokens_cons hgap hx' (by simp), hbefore c rest' hc,
        hwidth]
      rfl

end Tape

/-! ## Another offset -/

/-- The span `k` bytes further on. -/
def Span.moved (k : Nat) (s : Span) : Span := { s with start := s.start + k, stop := s.stop + k }

/-- The span can be moved `k` bytes without an offset that starts again from zero. -/
def Span.Moves (k : Nat) (s : Span) : Prop :=
  (s.moved k).start.toNat = s.start.toNat + k ∧ (s.moved k).stop.toNat = s.stop.toNat + k

theorem Span.between_moved (k start stop : Nat) (file : String) :
    (between start stop file).moved k = between (start + k) (stop + k) file := by
  simp [moved, between]

theorem Token.atEnd_moved (k n : Nat) (file : String) :
    respan (Span.moved k) (atEnd file n) = atEnd file (n + k) := by
  show Token.mk _ _ ((Span.between ..).moved k) = _
  rw [Span.between_moved]
  rfl

namespace Tape

/-- The tape `k` bytes further on. -/
def moved (k : Nat) (tape : Tape) : Tape := { tape with offset := tape.offset + k }

variable (k : Nat) (tape : Tape)

theorem past_moved (read rest : List Char) :
    (tape.moved k).past read rest = (tape.past read rest).moved k := by
  simp only [past, moved, Nat.add_right_comm]

theorem skipBlank_moved : (tape.moved k).skipBlank = tape.skipBlank.moved k :=
  past_moved k tape _ _

theorem token_moved (x : Lexeme) :
    (tape.moved k).token x = respan (Span.moved k) (tape.token x) := by
  show Token.mk _ _ _ = Token.mk _ _ ((Span.between ..).moved k)
  rw [Span.between_moved, past_moved]
  rfl

theorem next_moved :
    (tape.moved k).next = (respan (Span.moved k) tape.next.1, tape.next.2.moved k) := by
  cases h : tape.skipBlank.pending with
  | nil =>
    rw [next_eq_none h, next_eq_none (by rw [skipBlank_moved]; exact h), skipBlank_moved]
    rfl
  | cons c rest =>
    rw [next_eq_some h, next_eq_some (by rw [skipBlank_moved]; exact h), skipBlank_moved,
      token_moved, past_moved]
    rfl

theorem take_moved (m : Nat) :
    ((tape.moved k).take m).1 = respan (Span.moved k) (tape.take m).1 := by
  induction m generalizing tape with
  | zero => rfl
  | succ m ih =>
    have hnext := tape.next_moved k
    cases h : tape.next with
    | mk first after =>
      rw [h] at hnext
      cases first with
      | none => simp only [take, h, hnext]; rfl
      | some t => simp only [take, h, hnext, ih, respan_some, respan_cons]

theorem tokens_moved : (tape.moved k).tokens = respan (Span.moved k) tape.tokens :=
  take_moved k tape _

/-! ## One source behind another -/

variable {file : String} {n : Nat}

/-- What is left of a source without `NUL` is blank if there is no token but the end. -/
theorem blank_of_eof {cs : List Char} (hnul : '\x00' ∉ cs)
    (h : ∀ t ∈ (Tape.mk file n (cs ++ ['\x00'])).tokens.head?, t.kind = .eof) :
    ∀ c ∈ cs, isBlank c := by
  rcases gap_or_lexeme (cs ++ ['\x00']) with
    hblank | ⟨gap, ⟨kind, read, echo, rest⟩, hgap, hx, htext⟩
  · exact fun c hc => hblank c (List.mem_append_left _ hc)
  · rw [htext, tokens_lexeme hgap hx] at h
    obtain rfl : kind = .eof := h _ rfl
    obtain rfl := hx.read_of_mark (c := '\x00') rfl
    cases rest with
    | nil =>
      obtain ⟨rfl, -⟩ := List.append_inj' htext rfl
      exact hgap
    | cons d rest =>
      have hcs : cs = gap ++ '\x00' :: (d :: rest).dropLast := by
        simpa using congrArg List.dropLast htext
      simp [hcs] at hnul

end Tape

namespace Lexer

variable {file : String}

/-- Behind `k` bytes the tokens of a source are moved as numbers are, if both are not too long. -/
theorem moves_of_mem {lx : Lexer} {k : Nat} {t : Token} (hfits : k + lx.limit < 2 ^ 32)
    (ht : t ∈ lx.tokens) : t.span.Moves k := by
  obtain ⟨i, hi⟩ := List.mem_iff_getElem?.1 ht
  have hspan : t.span = .between (lx.startOf i) (lx.stopOf i) lx.file := by
    rw [← stream_span, stream, hi]
    rfl
  have hstart := lx.startOf_le_stopOf i
  have hstop := lx.stopOf_le_limit i
  rw [Span.Moves, hspan, Span.between_moved, Span.between_start_toNat (by omega),
    Span.between_start_toNat (by omega), Span.between_stop_toNat (by omega),
    Span.between_stop_toNat (by omega)]
  exact ⟨rfl, rfl⟩

theorem tokens_script (lx : Lexer) :
    ∃ us, lx.tokens = lx.script ++ us ∧ ∀ u ∈ us.head?, u.kind = .eof := by
  refine ⟨lx.tokens.dropWhile (·.kind ≠ .eof), List.takeWhile_append_dropWhile.symm, ?_⟩
  intro u hu
  have := List.head?_dropWhile_not (fun t : Token => t.kind ≠ .eof) lx.tokens
  rw [hu] at this
  simpa using this

/-- Behind a source that a semicolon ends another one is read as it is alone, only further on. -/
theorem tokens_append {a : String} (hnul : '\x00' ∉ a.toList)
    (hlast : ∃ t ∈ (ofString file a).script.getLast?, t.kind = .semicolon) (b : String) :
    (ofString file (a ++ b)).tokens = (ofString file a).script ++
      respan (Span.moved a.utf8ByteSize) (ofString file b).tokens := by
  obtain ⟨t, ht, hsemi⟩ := hlast
  obtain ⟨ts, hscript⟩ := List.getLast?_eq_some_iff.1 ht
  obtain ⟨us, htokens, heof⟩ := (ofString file a).tokens_script
  rw [hscript, List.append_assoc, tokens_ofString] at htokens
  obtain ⟨head, tail, hsource, -, ht, rfl, hread⟩ := Tape.tokens_semicolon htokens hsemi
  have hblank : ∀ c ∈ tail, isBlank c :=
    Tape.blank_of_eof (fun hc => hnul (by simp [hsource, hc])) heof
  have hwidth : 0 + width head + 1 + width tail = 0 + a.utf8ByteSize := by
    rw [← width_toList, hsource, width_append, width_cons, Nat.zero_add, Nat.zero_add,
      Nat.add_assoc]
    rfl
  calc (ofString file (a ++ b)).tokens
    _ = (Tape.mk file 0 (head ++ ';' :: (tail ++ (b.toList ++ ['\x00'])))).tokens := by
      simp [tokens_ofString, hsource]
    _ = ts ++ (Tape.mk file (0 + width head) (';' :: (tail ++ (b.toList ++ ['\x00'])))).tokens :=
      hread ';' _ (by decide)
    _ = ts ++ t :: (Tape.mk file (0 + width head + 1)
        (tail ++ (b.toList ++ ['\x00']))).tokens := by
      rw [Tape.tokens_head_semicolon (by simp), ht]
    _ = ts ++ t :: (Tape.mk file (0 + a.utf8ByteSize) (b.toList ++ ['\x00'])).tokens := by
      rw [Tape.tokens_gap hblank, hwidth]
    _ = (ofString file a).script ++
        respan (Span.moved a.utf8ByteSize) (ofString file b).tokens := by
      rw [hscript, List.append_assoc, tokens_ofString, ← Tape.tokens_moved]
      rfl

/-- Without `NUL` in it such a source has no end but the one behind it. -/
theorem endsOnce_of_semicolon {a : String} (hnul : '\x00' ∉ a.toList)
    (hlast : ∃ t ∈ (ofString file a).script.getLast?, t.kind = .semicolon) :
    (ofString file a).EndsOnce := by
  have htokens := tokens_append hnul hlast ""
  rw [String.append_empty, show (ofString file "").tokens = [.atEnd file 0] from rfl] at htokens
  intro t ht
  rw [htokens, respan_cons, respan_nil, List.dropLast_concat] at ht
  simpa using List.all_eq_true.1 List.all_takeWhile t ht

/-- What a lexer gives of such a source, and then of the one behind it. -/
theorem stream_append {a : String} (hnul : '\x00' ∉ a.toList)
    (hlast : ∃ t ∈ (ofString file a).script.getLast?, t.kind = .semicolon) (b : String) :
    (∀ i t, (ofString file a).script[i]? = some t → (ofString file (a ++ b)).stream i = t) ∧
      ∀ i, (ofString file (a ++ b)).stream ((ofString file a).script.length + i) =
        respan (Span.moved a.utf8ByteSize) ((ofString file b).stream i) := by
  have htokens := tokens_append hnul hlast b
  refine ⟨fun i t ht => ?_, fun i => ?_⟩
  · obtain ⟨hi, -⟩ := List.getElem?_eq_some_iff.1 ht
    rw [stream, htokens, List.getElem?_append_left hi, ht]
    rfl
  · have hmap : respan (Span.moved a.utf8ByteSize) (ofString file b).tokens =
        (ofString file b).tokens.map (respan (Span.moved a.utf8ByteSize)) := rfl
    rw [stream, htokens, List.getElem?_append_right (Nat.le_add_right ..), Nat.add_sub_cancel_left,
      hmap, List.getElem?_map, stream, limit_ofString, limit_ofString, String.utf8ByteSize_append]
    cases (ofString file b).tokens[i]? with
    | none =>
      rw [Option.getD_none, Option.map_none, Option.getD_none, Nat.add_comm]
      exact (Token.atEnd_moved ..).symm
    | some t => rfl

end Lexer

end ScriptFront
