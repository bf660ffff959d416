import ScriptFront.Text.Chars
import ScriptFront.Token.Kind

/-!
# Lexemes

`Lexeme.scan` reads one lexeme off a text that starts with no blank. The last character of that
text is the one that ends the input: it is read like any other, but no string goes past it.
-/

namespace ScriptFront

open Text

structure Lexeme where
  kind : Kind
  /-- The characters taken from the text. -/
  read : List Char
  /-- Characters that are shown after `read` but stay in the text. -/
  echo : List Char
  rest : List Char
  deriving DecidableEq, Repr

namespace Lexeme

def shown (x : Lexeme) : String := String.ofList (x.read ++ x.echo)

/-- A mark that a `=` behind it turns into another one. -/
def scanPair (alone paired : Kind) (c : Char) : List Char → Lexeme
  | '=' :: rest => ⟨paired, [c, '='], [], rest⟩
  | rest => ⟨alone, [c], [], rest⟩

/-- A string runs to the next quote like its first; without one it is all that is left of the
source, and illegal. -/
def scanString (quote : Char) (rest : List Char) : Lexeme :=
  let body := rest.dropLast.takeWhile (· != quote)
  match rest.dropLast.dropWhile (· != quote) with
  | [] => ⟨.illegal, quote :: body, [], rest.getLast?.toList⟩
  | _ :: more => ⟨.string, quote :: (body ++ [quote]), [], more ++ rest.getLast?.toList⟩

def scanWord (c : Char) (rest : List Char) : Lexeme :=
  let word := c :: rest.takeWhile isWordChar
  ⟨.ofWord (String.ofList word), word, [], rest.dropWhile isWordChar⟩

/-- A second point makes a number illegal. It is shown with the number and left to be read again. -/
def scanNumber (c : Char) (rest : List Char) : Lexeme :=
  let whole := c :: rest.takeWhile isDigit
  match rest.dropWhile isDigit with
  | '.' :: rest =>
    let number := whole ++ '.' :: rest.takeWhile isDigit
    match rest.dropWhile isDigit with
    | '.' :: rest => ⟨.illegal, number, ['.'], '.' :: rest⟩
    | rest => ⟨.float, number, [], rest⟩
  | rest => ⟨.int, whole, [], rest⟩

def scan (c : Char) (rest : List Char) : Lexeme :=
  if c = '=' then scanPair .assign .equal c rest
  else if c = '!' then scanPair .bang .notEqual c rest
  else if isQuote c then scanString c rest
  else if isLetter c then scanWord c rest
  else if isDigit c then scanNumber c rest
  else ⟨(Kind.ofMark? c).getD .illegal, [c], [], rest⟩

theorem dropLast_append_getLast? (l : List Char) : l.dropLast ++ l.getLast?.toList = l := by
  cases l with
  | nil => rfl
  | cons c l => simp [List.getLast?_eq_some_getLast, List.dropLast_concat_getLast]

theorem scanPair_alone {alone paired : Kind} {c : Char} {rest : List Char}
    (h : rest.head? ≠ some '=') : scanPair alone paired c rest = ⟨alone, [c], [], rest⟩ := by
  unfold scanPair
  split
  · exact (h rfl).elim
  · rfl

theorem scanString_read (quote : Char) (rest : List Char) :
    { scanString quote rest with read := quote :: (scanString quote rest).read.tail } =
      scanString quote rest := by
  simp only [scanString]
  split <;> rfl

theorem scanString_quote (quote : Char) {rest : List Char} (h : rest ≠ []) :
    scanString quote (quote :: rest) = ⟨.string, [quote, quote], [], rest⟩ := by
  simp [scanString, List.dropLast_cons_of_ne_nil h, List.getLast?_cons_of_ne_nil h,
    dropLast_append_getLast?]

theorem scanString_cons {quote c : Char} {rest : List Char} (hc : c ≠ quote) (h : rest ≠ []) :
    scanString quote (c :: rest) =
      { scanString quote rest with read := quote :: c :: (scanString quote rest).read.tail } := by
  simp only [scanString, List.dropLast_cons_of_ne_nil h, List.getLast?_cons_of_ne_nil h]
  rw [List.dropWhile_cons_of_pos (by simpa using hc),
    List.takeWhile_cons_of_pos (by simpa using hc)]
  split <;> rfl

/-- Digits, a point and more digits or none. -/
theorem scanNumber_twoRuns {c : Char} {rest part : List Char}
    (h : rest.dropWhile isDigit = '.' :: part) :
    scanNumber c rest =
      let number := c :: rest.takeWhile isDigit ++ '.' :: part.takeWhile isDigit
      if (part.dropWhile isDigit).head? = some '.' then
        ⟨.illegal, number, ['.'], part.dropWhile isDigit⟩
      else ⟨.float, number, [], part.dropWhile isDigit⟩ := by
  simp only [scanNumber, h]
  split
  · rename_i heq
    simp [heq]
  · rename_i hother
    rw [if_neg fun hhead => ?_]
    obtain ⟨more, hmore⟩ := List.head?_eq_some_iff.1 hhead
    exact hother more hmore

theorem scanNumber_oneRun {c : Char} {rest : List Char}
    (h : (rest.dropWhile isDigit).head? ≠ some '.') :
    scanNumber c rest = ⟨.int, c :: rest.takeWhile isDigit, [], rest.dropWhile isDigit⟩ := by
  unfold scanNumber
  dsimp only
  split
  · rename_i heq
    simp [heq] at h
  · rfl

/-! ## Nothing is lost -/

theorem scanPair_split (alone paired : Kind) (c : Char) (rest : List Char) :
    (scanPair alone paired c rest).read ++ (scanPair alone paired c rest).rest = c :: rest := by
  unfold scanPair; split <;> rfl

theorem scanString_split (quote : Char) (rest : List Char) :
    (scanString quote rest).read ++ (scanString quote rest).rest = quote :: rest := by
  have hcut := List.takeWhile_append_dropWhile (p := (· != quote)) (l := rest.dropLast)
  have hlast := dropLast_append_getLast? rest
  simp only [scanString]
  split
  · rename_i h
    rw [h, List.append_nil] at hcut
    rw [List.cons_append, hcut, hlast]
  · rename_i c more h
    have hc : c = quote := by
      have := List.head?_dropWhile_not (· != quote) rest.dropLast
      simpa [h] using this
    rw [h, hc] at hcut
    rw [← hcut] at hlast
    simpa using hlast

theorem scanWord_split (c : Char) (rest : List Char) :
    (scanWord c rest).read ++ (scanWord c rest).rest = c :: rest := by
  simp [scanWord, List.takeWhile_append_dropWhile]

theorem scanNumber_split (c : Char) (rest : List Char) :
    (scanNumber c rest).read ++ (scanNumber c rest).rest = c :: rest := by
  have hwhole := List.takeWhile_append_dropWhile (p := isDigit) (l := rest)
  simp only [scanNumber]
  split
  · rename_i part h
    have hpart := List.takeWhile_append_dropWhile (p := isDigit) (l := part)
    split <;> grind
  · grind

theorem scan_split (c : Char) (rest : List Char) :
    (scan c rest).read ++ (scan c rest).rest = c :: rest := by
  unfold scan
  split
  · exact scanPair_split ..
  split
  · exact scanPair_split ..
  split
  · exact scanString_split ..
  split
  · exact scanWord_split ..
  split
  · exact scanNumber_split ..
  · rfl

theorem scan_read_head? (c : Char) (rest : List Char) : (scan c rest).read.head? = some c := by
  simp only [scan, scanPair, scanString, scanWord, scanNumber]
  repeat' split
  all_goals rfl

theorem scan_rest_length_le (c : Char) (rest : List Char) :
    (scan c rest).rest.length ≤ rest.length := by
  have hsplit := congrArg List.length (scan_split c rest)
  have hread : (scan c rest).read ≠ [] := by
    intro h
    simpa [h] using scan_read_head? c rest
  have := List.length_pos_iff.2 hread
  simp at hsplit
  omega

end Lexeme

end ScriptFront
