import ScriptFront.Literal.Decimal
import ScriptFront.Proofs.Token.Lexer

/-!
# Tokens and what they are read from

Every token of a lexer is made of a lexeme of its text. A decimal is made of digits, a point and
digits, so it has a value.
-/

namespace ScriptFront

open Text

/-! ## The lexemes of a lexer -/

theorem Lexer.mem_tokens {lx : Lexer} {t : Token} (ht : t ∈ lx.tokens) :
    ∃ c rest, t.kind = (Lexeme.scan c rest).kind ∧ t.text = (Lexeme.scan c rest).shown := by
  have key : ∀ n (tape : Tape), t ∈ (tape.take n).1 →
      ∃ c rest, t.kind = (Lexeme.scan c rest).kind ∧ t.text = (Lexeme.scan c rest).shown := by
    intro n
    induction n with
    | zero =>
      intro tape ht
      simp [Tape.take] at ht
    | succ n ih =>
      intro tape ht
      cases hp : tape.skipBlank.pending with
      | nil => simp [Tape.take, Tape.next_eq_none hp] at ht
      | cons c rest =>
        simp only [Tape.take, Tape.next_eq_some hp, List.mem_cons] at ht
        rcases ht with rfl | ht
        · exact ⟨c, rest, rfl, rfl⟩
        · exact ih _ ht
  rw [tokens_tape] at ht
  exact key _ lx.tape ht

/-! ## Decimals -/

namespace Literal

theorem isDigitOf_ten {c : Char} (h : isDigit c) : isDigitOf 10 c := by
  have hc : 48 ≤ c.toNat ∧ c.toNat ≤ 57 := Char.isDigit_iff_toNat.1 h
  have hle : '0' ≤ c ∧ c ≤ '9' := hc
  simp only [isDigitOf, digit?, if_pos hle, Option.any_some, decide_eq_true_eq]
  show c.toNat - 48 < 10
  omega

theorem fraction?_isSome {whole part : List Char} (hne : whole ≠ [])
    (hwhole : ∀ c ∈ whole, isDigit c) (hpart : ∀ c ∈ part, isDigit c) :
    (fraction? (whole ++ '.' :: part)).isSome := by
  have hpoint : ¬ isDigitOf 10 '.' := by decide
  have htake : (whole ++ '.' :: part).takeWhile (isDigitOf 10) = whole := by
    rw [List.takeWhile_append_of_pos fun c hc => isDigitOf_ten (hwhole c hc)]
    simp [hpoint]
  have hdrop : (whole ++ '.' :: part).dropWhile (isDigitOf 10) = '.' :: part := by
    rw [List.dropWhile_append_of_pos fun c hc => isDigitOf_ten (hwhole c hc)]
    simp [hpoint]
  unfold fraction?
  simp only [htake, hdrop]
  rw [if_pos]
  · rfl
  · refine ⟨rfl, ?_, by simp [hne]⟩
    simpa using fun c hc => isDigitOf_ten (hpart c hc)

theorem decimal?_isSome {text : String} (h : (fraction? text.toList).isSome) :
    (decimal? text).isSome := by
  unfold decimal?
  split
  · rfl
  · rfl
  · rfl
  · simpa using h

end Literal

namespace Kind

theorem ofWord_ne_float (word : String) : ofWord word ≠ .float := by
  unfold ofWord reserved
  simp only [List.lookup_cons, List.lookup_nil]
  repeat' split
  all_goals decide

theorem ofMark?_ne_float (c : Char) : (ofMark? c).getD .illegal ≠ .float := by
  unfold ofMark?
  split <;> decide

end Kind

namespace Lexeme

theorem scan_of_float {c : Char} {rest : List Char} (h : (scan c rest).kind = .float) :
    isDigit c ∧ scan c rest = scanNumber c rest := by
  revert h
  unfold scan
  split
  · unfold scanPair
    split <;> exact nofun
  split
  · unfold scanPair
    split <;> exact nofun
  split
  · unfold scanString
    simp only
    split <;> exact nofun
  split
  · intro h
    exact (Kind.ofWord_ne_float _ h).elim
  split
  · rename_i hc
    exact fun _ => ⟨hc, rfl⟩
  · intro h
    exact (Kind.ofMark?_ne_float _ h).elim

theorem scan_float {c : Char} {rest : List Char} (h : (scan c rest).kind = .float) :
    ∃ whole part, whole ≠ [] ∧ (∀ d ∈ whole, isDigit d) ∧ (∀ d ∈ part, isDigit d) ∧
      (scan c rest).shown = String.ofList (whole ++ '.' :: part) := by
  obtain ⟨hc, hscan⟩ := scan_of_float h
  rw [hscan] at h ⊢
  simp only [scanNumber] at h ⊢
  split at h
  · rename_i part hpart
    split at h
    · cases h
    · refine ⟨c :: rest.takeWhile isDigit, part.takeWhile isDigit, by simp, ?_, ?_, ?_⟩
      · intro d hd
        rcases List.mem_cons.1 hd with rfl | hd
        · exact hc
        · exact List.all_eq_true.1 List.all_takeWhile d hd
      · exact List.all_eq_true.1 List.all_takeWhile
      · simp [shown]
  · cases h

end Lexeme

theorem Lexer.decimal_isSome {lx : Lexer} {t : Token} (ht : t ∈ lx.tokens) (hk : t.kind = .float) :
    (Literal.decimal? t.text).isSome := by
  obtain ⟨c, rest, hkind, htext⟩ := mem_tokens ht
  obtain ⟨whole, part, hne, hwhole, hpart, hshown⟩ := Lexeme.scan_float (hkind.symm.trans hk)
  refine Literal.decimal?_isSome ?_
  rw [htext, hshown, String.toList_ofList]
  exact Literal.fraction?_isSome hne hwhole hpart

end ScriptFront
