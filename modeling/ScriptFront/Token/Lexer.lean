import ScriptFront.Text.Chars
import ScriptFront.Token.Basic

/-!
# The lexer

A lexer reads a source character by character. Behind the last one it reads one more, which ends
the input: that is given out once, has no place in the source and goes on with a word or a number
like any other. `Cursor` tells where in this the lexer is. `next` reads one token, `tokens` all of
them.
-/

namespace ScriptFront

open Text

/-- What a lexer has before it: the source, the character that ends the input, or nothing. -/
inductive Cursor where
  | input | terminator | exhausted
  deriving DecidableEq, Repr

structure Lexer where
  file : String
  /-- Bytes of the source read so far. -/
  offset : Nat
  /-- What is left of the source. -/
  rest : List Char
  /-- The character that ends the input. -/
  ending : Char
  cursor : Cursor
  input_iff : cursor = .input ↔ rest ≠ []
  deriving DecidableEq, Repr

namespace Lexer

/-- The file name of a source that has none. -/
def noFile : String := "shell"

def ofString (file source : String) : Lexer where
  file := file
  offset := 0
  rest := source.toList
  ending := '\x00'
  cursor := if source.toList = [] then .terminator else .input
  input_iff := by split <;> simp_all

/-- Ends the input by `c` from now on. -/
def endingWith (lx : Lexer) (c : Char) : Lexer := { lx with ending := c }

def hasNext (lx : Lexer) : Bool := lx.cursor ≠ .exhausted

/-! ## Characters -/

/-- The character ahead. -/
def peek (lx : Lexer) : Option Char :=
  match lx.cursor with
  | .input => lx.rest.head?
  | .terminator => some lx.ending
  | .exhausted => none

/-- The lexer behind the next `n` characters of the source. -/
def advanceBy (lx : Lexer) (n : Nat) : Lexer where
  file := lx.file
  offset := lx.offset + width (lx.rest.take n)
  rest := lx.rest.drop n
  ending := lx.ending
  cursor := if lx.cursor = .input ∧ lx.rest.drop n = [] then .terminator else lx.cursor
  input_iff := by
    by_cases hrest : lx.rest.drop n = []
    · by_cases hcursor : lx.cursor = .input <;> simp [hrest, hcursor]
    · have hcursor : lx.cursor = .input := lx.input_iff.2 fun h => hrest (by simp [h])
      simp only [hrest, hcursor, and_false, if_false, ne_eq, not_false_eq_true]

/-- The lexer once the input is over. -/
def close (lx : Lexer) : Lexer where
  file := lx.file
  offset := lx.offset
  rest := []
  ending := lx.ending
  cursor := .exhausted
  input_iff := by simp

def advance (lx : Lexer) : Option Char × Lexer :=
  match lx.cursor with
  | .input => (lx.rest.head?, lx.advanceBy 1)
  | .terminator => (some lx.ending, lx.close)
  | .exhausted => (none, lx)

/-- Like `advance`, but never takes the character that ends the input. -/
def advanceInSource (lx : Lexer) : Option Char × Lexer :=
  match lx.cursor with
  | .input => lx.advance
  | _ => (none, lx)

/-- Takes the character that ends the input if it is ahead and goes on with what was read. -/
def takeEndingIf (lx : Lexer) (goesOn : Char → Bool) : Option Char × Lexer :=
  if lx.cursor = .terminator ∧ goesOn lx.ending then lx.advance else (none, lx)

/-! ## Tokens -/

/-- Skips blanks, of which there are no more than in `rest` and the one that ends the input. -/
def skipBlanks (lx : Lexer) : List Char → Lexer
  | [] => (lx.takeEndingIf isBlank).2
  | _ :: rest => if lx.peek.any isBlank then lx.advance.2.skipBlanks rest else lx

def skipBlank (lx : Lexer) : Lexer := lx.skipBlanks lx.rest

/-- What a token is made of, and the lexer behind it. -/
abbrev Reading := Kind × List Char × Lexer

/-- A mark that a `=` behind it turns into another one. -/
def readPair (lx : Lexer) (alone paired : Kind) (c : Char) : Reading :=
  if lx.peek = some '=' then (paired, [c, '='], lx.advance.2) else (alone, [c], lx)

/-- Reads on in a string, of which `taken` is there in reverse, up to its quote. Without one it is
illegal, and the character that ends the input is left. -/
def readString (lx : Lexer) (quote : Char) (taken : List Char) : List Char → Reading
  | [] => (.illegal, taken.reverse, lx)
  | _ :: rest =>
    match lx.advanceInSource with
    | (none, lx) => (.illegal, taken.reverse, lx)
    | (some c, lx) =>
      if c = quote then (.string, (c :: taken).reverse, lx)
      else lx.readString quote (c :: taken) rest

/-- A letter or `_`, and all letters, digits and `_` behind it. -/
def word? : List Char → Option (List Char)
  | [] => none
  | c :: cs => if isLetter c then some (c :: cs.takeWhile isWordChar) else none

/-- Reads a word from `start` on, where its first character is. There is no word in the source if
that is the character that ends the input, which is taken already. -/
def readWord (start : Lexer) (c : Char) (lx : Lexer) : Reading :=
  match word? start.rest with
  | none => (.ofWord (String.ofList [c]), [c], lx)
  | some word =>
    let (last, lx) := (start.advanceBy word.length).takeEndingIf isWordChar
    let word := word ++ last.toList
    (.ofWord (String.ofList word), word, lx)

/-- Digits, and a point and more digits, if there are any. -/
def number? (cs : List Char) : Option (List Char) :=
  match cs.takeWhile isDigit, cs.dropWhile isDigit with
  | [], _ => none
  | whole, '.' :: rest => some (whole ++ '.' :: rest.takeWhile isDigit)
  | whole, _ => some whole

/-- Reads a number, like `readWord`. A second point makes it illegal. That is shown with the number
and left to be read again. -/
def readNumber (start : Lexer) (c : Char) (lx : Lexer) : Reading :=
  match number? start.rest with
  | none => (.int, [c], lx)
  | some number =>
    let hasPoint := number.contains '.'
    let (last, lx) := (start.advanceBy number.length).takeEndingIf fun d =>
      isDigit d || d = '.' && !hasPoint
    let isFloat := hasPoint || last = some '.'
    let number := number ++ last.toList
    if isFloat && lx.peek = some '.' then (.illegal, number ++ ['.'], lx)
    else (if isFloat then .float else .int, number, lx)

/-- Reads what starts with `c`, from `start` on. The lexer `lx` is behind `c`. -/
def read (start : Lexer) (c : Char) (lx : Lexer) : Reading :=
  if c = '=' then lx.readPair .assign .equal c
  else if c = '!' then lx.readPair .bang .notEqual c
  else
    match Kind.ofMark? c with
    | some kind => (kind, [c], lx)
    | none =>
      if isQuote c then lx.readString c [c] lx.rest
      else if isLetter c then start.readWord c lx
      else if isDigit c then start.readNumber c lx
      else (.illegal, [c], lx)

/-- The token that is read from here up to where `after` is. -/
def token (lx : Lexer) (kind : Kind) (text : List Char) (after : Lexer) : Token :=
  ⟨kind, String.ofList text, .between lx.offset after.offset lx.file⟩

def next (lx : Lexer) : Option Token × Lexer :=
  if lx.hasNext then
    let start := lx.skipBlank
    match start.advance with
    | (none, after) => (none, after)
    | (some c, after) =>
      let (kind, text, after) := start.read c after
      (some (start.token kind text after), after)
  else (none, lx)

/-- The next token, or one that says that the input is over. -/
def nextOrEnd (lx : Lexer) : Token × Lexer :=
  match lx.next with
  | (some t, after) => (t, after)
  | (none, after) => (.atEnd after.file after.offset, after)

/-- Reads up to `n` tokens. -/
def take : Nat → Lexer → List Token × Lexer
  | 0, lx => ([], lx)
  | n + 1, lx =>
    match lx.next with
    | (none, after) => ([], after)
    | (some t, after) => let (ts, last) := take n after; (t :: ts, last)

/-- How many characters are left to be read. -/
def left (lx : Lexer) : Nat := if lx.cursor = .exhausted then 0 else lx.rest.length + 1

/-- Reads all tokens: each takes a character or more. -/
def drain (lx : Lexer) : List Token × Lexer := lx.take lx.left

def tokens (lx : Lexer) : List Token := lx.drain.1

end Lexer

end ScriptFront
