import Mathlib.Data.List.Forall2
import Mathlib.Data.List.Induction
import Mathlib.Data.Nat.Digits.Defs
import ScriptFront.Literal.Integer
import ScriptFront.Proofs.Token.Decimal

/-!
# Which texts are integers

A text announces the base of its digits by what it starts with (`Announces`), and digits of a base
denote a number (`Denotes`); letters count in either case. A text is read as an integer if it
announces a base and goes on with digits of that base, one or more, that denote a number below
`2 ^ 63`, and it is read as that number (`integer_iff`). Of texts that are decimal digits only,
those are left that are above that, or that a zero makes octal and an `8` or `9` does not
(`refused_of_none`).
-/

namespace ScriptFront.Literal

/-! ## Digits -/

/-- What stands for the digits from zero on. -/
def figures : List Char := "0123456789abcdef".toList

def capitals : List Char := "0123456789ABCDEF".toList

def IsFigure (c : Char) (d : Nat) : Prop := figures[d]? = some c ∨ capitals[d]? = some c

/-- The characters are digits of the base, one or more, and denote `n`. -/
def Denotes (base : Nat) (digits : List Char) (n : Nat) : Prop :=
  digits ≠ [] ∧ ∃ values : List Nat,
    List.Forall₂ (fun c d => IsFigure c d ∧ d < base) digits values ∧
      n = Nat.ofDigits base values.reverse

/-- The same characters in lower case. -/
def lower (cs : List Char) : List Char := cs.map Char.toLower

/-- A capital is 32 places before its small letter. -/
theorem toLower_cases {c l : Char} (h : c.toLower = l) :
    c = l ∨ 65 ≤ c.toNat ∧ c = Char.ofNat (l.toNat - 32) := by
  unfold Char.toLower at h
  split at h
  · rename_i hc
    obtain ⟨hlow, hhigh⟩ : 65 ≤ c.toNat ∧ c.toNat ≤ 90 := hc
    refine .inr ⟨hlow, ?_⟩
    have hl : l.toNat = c.toNat + 32 := by
      rw [← h]
      show (c.val + 32).toNat = c.val.toNat + 32
      rw [UInt32.toNat_add]
      exact Nat.mod_eq_of_lt (by simp at hhigh ⊢; omega)
    rw [hl, Nat.add_sub_cancel, Char.ofNat_toNat]
  · exact .inl h

theorem figures_of_digit {c : Char} {d : Nat} (h : digit? c = some d) : figures[d]? = some c := by
  unfold digit? at h
  split at h
  · rename_i hc
    obtain ⟨hlow, hhigh⟩ : 48 ≤ c.toNat ∧ c.toNat ≤ 57 := hc
    have hd : c.toNat - 48 = d := Option.some.inj h
    have hfigure : ∀ d < 10, figures[d]? = some (Char.ofNat (48 + d)) := by decide
    rw [hfigure d (by omega), show 48 + d = c.toNat by omega, Char.ofNat_toNat]
  split at h
  · rename_i hc
    obtain ⟨hlow, hhigh⟩ : 97 ≤ c.toNat ∧ c.toNat ≤ 102 := hc
    have hd : c.toNat - 97 + 10 = d := Option.some.inj h
    have hfigure : ∀ d < 6, figures[d + 10]? = some (Char.ofNat (97 + d)) := by decide
    rw [← hd, hfigure _ (by omega), show 97 + (c.toNat - 97) = c.toNat by omega, Char.ofNat_toNat]
  · cases h

theorem isFigure_iff {c : Char} {d : Nat} : IsFigure c d ↔ digit? c.toLower = some d := by
  constructor
  · have hfigures : ∀ d, ∀ h : d < figures.length, digit? figures[d].toLower = some d := by decide
    have hcapitals : ∀ d, ∀ h : d < capitals.length, digit? capitals[d].toLower = some d := by
      decide
    rintro (h | h) <;> obtain ⟨hd, rfl⟩ := List.getElem?_eq_some_iff.1 h
    · exact hfigures d hd
    · exact hcapitals d hd
  · intro h
    have hfigure := figures_of_digit h
    rcases toLower_cases (c := c) rfl with hc | ⟨hupper, hc⟩
    · exact .inl (by rwa [← hc] at hfigure)
    · have hcapital : ∀ d, ∀ h : d < figures.length,
          65 ≤ (Char.ofNat (figures[d].toNat - 32)).toNat →
            capitals[d]? = some (Char.ofNat (figures[d].toNat - 32)) := by decide
      obtain ⟨hd, hget⟩ := List.getElem?_eq_some_iff.1 hfigure
      refine .inr ?_
      rw [hc, ← hget] at hupper ⊢
      exact hcapital d hd hupper

/-! ## Numbers -/

/-- The digit that a character stands for, zero if it stands for none. -/
def digitOf (c : Char) : Nat := (digit? c.toLower).getD 0

theorem isDigitOf_lower {base : Nat} {c : Char} :
    isDigitOf base c.toLower ↔ ∃ d, IsFigure c d ∧ d < base := by
  simp [isDigitOf, isFigure_iff, Option.any_eq_true]

theorem positional_lower (base : Nat) (digits : List Char) :
    positional base (lower digits) = Nat.ofDigits base (digits.map digitOf).reverse := by
  induction digits using List.reverseRecOn with
  | nil => rfl
  | append_singleton digits c ih =>
    have hstep : positional base (lower (digits ++ [c])) =
        positional base (lower digits) * base + digitOf c := by
      simp [positional, lower, digitOf]
    rw [hstep, ih, List.map_append, List.reverse_append, Nat.mul_comm, Nat.add_comm]
    rfl

/-- The values of digits are those that the characters stand for. -/
theorem values_eq {base : Nat} {digits : List Char} {values : List Nat}
    (h : List.Forall₂ (fun c d => IsFigure c d ∧ d < base) digits values) :
    values = digits.map digitOf ∧ ∀ c ∈ digits, isDigitOf base c.toLower := by
  induction h with
  | nil => simp
  | @cons c d _ _ hc _ ih =>
    have hd : digitOf c = d := by rw [digitOf, isFigure_iff.1 hc.1, Option.getD_some]
    exact ⟨by rw [ih.1, List.map_cons, hd],
      List.forall_mem_cons.2 ⟨isDigitOf_lower.2 ⟨d, hc⟩, ih.2⟩⟩

theorem denotes_iff {base n : Nat} {digits : List Char} : Denotes base digits n ↔
    digits ≠ [] ∧ (∀ c ∈ digits, isDigitOf base c.toLower) ∧
      positional base (lower digits) = n := by
  refine and_congr_right fun _ => ?_
  constructor
  · rintro ⟨values, hvalues, rfl⟩
    obtain ⟨rfl, hdigits⟩ := values_eq hvalues
    exact ⟨hdigits, positional_lower base digits⟩
  · rintro ⟨hdigits, rfl⟩
    refine ⟨digits.map digitOf, ?_, positional_lower base digits⟩
    rw [List.forall₂_map_right_iff, List.forall₂_same]
    intro c hc
    obtain ⟨d, hd⟩ := isDigitOf_lower.1 (hdigits c hc)
    rwa [digitOf, isFigure_iff.1 hd.1, Option.getD_some]

/-! ## Bases -/

/-- A text announces the base of its digits, which are those behind what announces it. -/
inductive Announces : List Char → Nat → List Char → Prop where
  | hexadecimal {x : Char} {digits : List Char} : x = 'x' ∨ x = 'X' →
      Announces ('0' :: x :: digits) 16 digits
  | octal {o : Char} {digits : List Char} : o = 'o' ∨ o = 'O' →
      Announces ('0' :: o :: digits) 8 digits
  | binary {b : Char} {digits : List Char} : b = 'b' ∨ b = 'B' →
      Announces ('0' :: b :: digits) 2 digits
  | zero {digits : List Char} : Announces ('0' :: digits) 8 digits
  | decimal {digits : List Char} : digits = ['0'] ∨ digits.head? ≠ some '0' →
      Announces digits 10 digits

variable {text digits : List Char} {base : Nat}

/-- A letter is small or a capital. -/
theorem cases_of_small {c l : Char} (h : c.toLower = l) : c = l ∨ c = Char.ofNat (l.toNat - 32) :=
  (toLower_cases h).imp_right And.right

theorem eq_zero_of_toLower {c : Char} (h : c.toLower = '0') : c = '0' := by
  rcases toLower_cases h with hc | ⟨hupper, hc⟩
  · exact hc
  · rw [hc] at hupper
    exact absurd hupper (by decide)

theorem announced_of_head {c : Char} {digits : List Char} (h : c ≠ '0') :
    announced (lower (c :: digits)) = (10, lower (c :: digits)) := by
  have hc : c.toLower ≠ '0' := mt eq_zero_of_toLower h
  simp [announced, lower, hc]

/-- A digit that is octal announces no other base behind a zero. -/
theorem announced_of_zero {c : Char} {digits : List Char}
    (hx : c.toLower ≠ 'x') (ho : c.toLower ≠ 'o') (hb : c.toLower ≠ 'b') :
    announced (lower ('0' :: c :: digits)) = (8, lower (c :: digits)) := by
  show announced ('0' :: c.toLower :: lower digits) = _
  simp [announced, lower]

theorem Announces.announced (h : Announces text base digits) (hne : digits ≠ [])
    (hdigits : ∀ c ∈ digits, isDigitOf base c.toLower) :
    announced (lower text) = (base, lower digits) := by
  cases h with
  | hexadecimal hx => rcases hx with rfl | rfl <;> rfl
  | octal ho => rcases ho with rfl | rfl <;> rfl
  | binary hb => rcases hb with rfl | rfl <;> rfl
  | zero =>
    obtain ⟨c, digits, rfl⟩ := List.exists_cons_of_ne_nil hne
    have hc : isDigitOf 8 c.toLower := hdigits c List.mem_cons_self
    refine announced_of_zero ?_ ?_ ?_ <;> intro h <;> rw [h] at hc <;> exact absurd hc (by decide)
  | decimal hzero =>
    rcases hzero with rfl | hhead
    · rfl
    · obtain ⟨c, digits, rfl⟩ := List.exists_cons_of_ne_nil hne
      exact announced_of_head fun hc => hhead (by rw [hc]; rfl)

theorem announces_zero (rest : List Char) :
    ∃ base digits, Announces ('0' :: rest) base digits ∧
      announced (lower ('0' :: rest)) = (base, lower digits) := by
  cases rest with
  | nil => exact ⟨10, ['0'], .decimal (.inl rfl), rfl⟩
  | cons c digits =>
    by_cases hx : c.toLower = 'x'
    · exact ⟨16, digits, .hexadecimal (cases_of_small hx), by simp [announced, lower, hx]⟩
    by_cases ho : c.toLower = 'o'
    · exact ⟨8, digits, .octal (cases_of_small ho), by simp [announced, lower, ho]⟩
    by_cases hb : c.toLower = 'b'
    · exact ⟨2, digits, .binary (cases_of_small hb), by simp [announced, lower, hb]⟩
    · exact ⟨8, c :: digits, .zero, announced_of_zero hx ho hb⟩

/-- Every text announces a base, and `announced` finds it. -/
theorem announces_announced (text : List Char) :
    ∃ base digits, Announces text base digits ∧ announced (lower text) = (base, lower digits) := by
  cases text with
  | nil => exact ⟨10, [], .decimal (.inr (by simp)), rfl⟩
  | cons c rest =>
    by_cases hc : c = '0'
    · rw [hc]
      exact announces_zero rest
    · exact ⟨10, c :: rest, .decimal (.inr (by simpa using hc)), announced_of_head hc⟩

/-! ## Integers -/

theorem integer?_of_announced {text : String} {digits : List Char} {base : Nat}
    (h : announced (lower text.toList) = (base, lower digits)) (n : Nat) :
    integer? text = some n ↔ Denotes base digits n ∧ n ≤ maxInteger := by
  change announced (text.toList.map Char.toLower) = _ at h
  simp only [integer?, h, Option.ite_none_right_eq_some, Option.some.injEq, denotes_iff]
  constructor
  · rintro ⟨⟨hne, hdigits, hle⟩, rfl⟩
    exact ⟨⟨by simpa [lower] using hne, by simpa [lower] using hdigits, rfl⟩, hle⟩
  · rintro ⟨⟨hne, hdigits, rfl⟩, hle⟩
    exact ⟨⟨by simpa [lower] using hne, by simpa [lower] using hdigits, hle⟩, rfl⟩

/-- The text is an integer literal, of the value `n`. -/
def IsInteger (text : String) (n : Nat) : Prop :=
  ∃ base digits, Announces text.toList base digits ∧ Denotes base digits n ∧ n ≤ 2 ^ 63 - 1

theorem integer?_eq_some {text : String} {n : Nat} :
    integer? text = some n ↔ IsInteger text n := by
  constructor
  · intro h
    obtain ⟨base, digits, hannounces, hannounced⟩ := announces_announced text.toList
    exact ⟨base, digits, hannounces, (integer?_of_announced hannounced n).1 h⟩
  · rintro ⟨base, digits, hannounces, hdenotes, hle⟩
    obtain ⟨hne, hdigits, -⟩ := denotes_iff.1 hdenotes
    exact (integer?_of_announced (hannounces.announced hne hdigits) n).2 ⟨hdenotes, hle⟩

/-- A text is read as an integer just if it is one. -/
theorem integer_iff (text : String) :
    (∀ n, integer? text = some n ↔ IsInteger text n) ∧
      (integer? text = none ↔ ∀ n, ¬ IsInteger text n) := by
  refine ⟨fun n => integer?_eq_some, ?_⟩
  simp only [← integer?_eq_some, Option.eq_none_iff_forall_ne_some, ne_eq]

example : integer? "0B101" = some 5 ∧ integer? "0b" = none ∧ integer? "08" = none := by decide

/-! ## Digits alone -/

open Text

/-- The base of a text that is decimal digits only: a zero before more of them makes it octal. -/
def plainBase : List Char → Nat
  | '0' :: _ :: _ => 8
  | _ => 10

/-- Decimal digits that are not digits of their base, or denote a number above the limit. -/
def Refused (cs : List Char) : Prop :=
  2 ≤ cs.length ∧ cs.head? = some '0' ∧ ('8' ∈ cs ∨ '9' ∈ cs) ∨
    ∃ n, Denotes (plainBase cs) cs n ∧ 2 ^ 63 - 1 < n

theorem toLower_digit {c : Char} (h : isDigit c) : c.toLower = c := by
  have hc : 48 ≤ c.toNat ∧ c.toNat ≤ 57 := Char.isDigit_iff_toNat.1 h
  rcases toLower_cases (c := c) rfl with heq | ⟨hupper, -⟩
  · exact heq.symm
  · omega

theorem isDigitOf_eight {c : Char} (h : isDigit c) (hnot : ¬ isDigitOf 8 c) :
    c = '8' ∨ c = '9' := by
  have hc : 48 ≤ c.toNat ∧ c.toNat ≤ 57 := Char.isDigit_iff_toNat.1 h
  have hle : '0' ≤ c ∧ c ≤ '9' := hc
  simp only [isDigitOf, digit?, if_pos hle, Option.any_some, decide_eq_true_eq] at hnot
  have hlow : 8 ≤ c.toNat - 48 := Nat.le_of_not_lt hnot
  rw [← Char.ofNat_toNat c]
  obtain heq | heq : c.toNat = 56 ∨ c.toNat = 57 := by omega
  · exact .inl (by rw [heq])
  · exact .inr (by rw [heq])

theorem denotes_zero_cons {base n : Nat} {digits : List Char} (hbase : 0 < base)
    (hne : digits ≠ []) : Denotes base ('0' :: digits) n ↔ Denotes base digits n := by
  have hzero : isDigitOf base '0' := decide_eq_true hbase
  have hvalue : positional base (lower ('0' :: digits)) = positional base (lower digits) := by
    show (lower digits).foldl _ (0 * base + 0) = _
    rw [Nat.zero_mul]
    rfl
  simp [denotes_iff, hvalue, hzero, hne]

variable {text : String}

/-- Digits alone announce their base by a zero before them, which adds nothing to the number. -/
theorem integer?_of_digits (hdigits : ∀ c ∈ text.toList, isDigit c) (n : Nat) :
    integer? text = some n ↔
      Denotes (plainBase text.toList) text.toList n ∧ n ≤ maxInteger := by
  unfold plainBase
  split
  · rename_i c digits htext
    have hc : isDigit c := hdigits c (by simp [htext])
    have hother {l : Char} (hl : ¬ isDigit l) : c.toLower ≠ l := by
      rw [toLower_digit hc]
      rintro rfl
      exact hl hc
    have hoctal : announced (lower text.toList) = (8, lower (c :: digits)) := by
      rw [htext]
      exact announced_of_zero (hother (by decide)) (hother (by decide)) (hother (by decide))
    rw [integer?_of_announced hoctal, htext, denotes_zero_cons (by decide) (by simp)]
  · rename_i hzero
    refine integer?_of_announced ?_ n
    cases htext : text.toList with
    | nil => rfl
    | cons c digits =>
      by_cases hc : c = '0'
      · cases digits with
        | nil => rw [hc]; rfl
        | cons d digits => exact (hzero d digits (by rw [htext, hc])).elim
      · exact announced_of_head hc

theorem refused_of_none (hne : text.toList ≠ []) (hdigits : ∀ c ∈ text.toList, isDigit c)
    (h : integer? text = none) : Refused text.toList := by
  by_cases hbase : ∀ c ∈ text.toList, isDigitOf (plainBase text.toList) c.toLower
  · have hdenotes := denotes_iff.2 ⟨hne, hbase, rfl⟩
    refine .inr ⟨_, hdenotes, Nat.lt_of_not_le fun hle => ?_⟩
    rw [(integer?_of_digits hdigits _).2 ⟨hdenotes, hle⟩] at h
    cases h
  · simp only [not_forall] at hbase
    obtain ⟨c, hc, hnot⟩ := hbase
    rw [toLower_digit (hdigits c hc)] at hnot
    unfold plainBase at hnot
    split at hnot
    · rename_i d digits htext
      refine .inl ⟨by simp [htext], by simp [htext], ?_⟩
      rcases isDigitOf_eight (hdigits c hc) hnot with rfl | rfl
      · exact .inl hc
      · exact .inr hc
    · exact (hnot (isDigitOf_ten (hdigits c hc))).elim

end ScriptFront.Literal
