import ScriptFront.Text.Chars

/-!
# Lines of a source

A line keeps its break. The last line has none; it is empty if the source ends with a break, so
every offset up to the end of the source is in exactly one line.
-/

namespace ScriptFront.Text

structure Line where
  /-- Counted from one. -/
  number : Nat
  text : List Char
  /-- Bytes of the line before the place that it was looked up for. -/
  column : Nat
  deriving DecidableEq, Repr

def lines : List Char → List (List Char)
  | [] => [[]]
  | c :: cs =>
    if c = '\n' then [c] :: lines cs
    else
      match lines cs with
      | [] => [[c]]
      | line :: rest => (c :: line) :: rest

/-- The line that holds an offset, the lines being counted from `number` on. An offset just behind
the last line is in it. -/
def findLine? (number offset : Nat) : List (List Char) → Option Line
  | [] => none
  | [last] => if offset ≤ width last then some ⟨number, last, offset⟩ else none
  | line :: rest =>
    if offset < width line then some ⟨number, line, offset⟩
    else findLine? (number + 1) (offset - width line) rest

def lineAt? (source : String) (offset : Nat) : Option Line :=
  findLine? 1 offset (lines source.toList)

/-- How many characters take the first `bytes` bytes, if these end at a character's end. -/
def charsIn? : List Char → Nat → Option Nat
  | _, 0 => some 0
  | [], _ + 1 => none
  | c :: cs, bytes =>
    if c.utf8Size ≤ bytes then (charsIn? cs (bytes - c.utf8Size)).map (· + 1) else none

theorem flatten_lines (cs : List Char) : (lines cs).flatten = cs := by
  induction cs with
  | nil => rfl
  | cons c cs ih =>
    unfold lines
    split
    · simp [ih]
    · split
      · rename_i h
        simp [h] at ih
        simp [← ih]
      · rename_i line rest h
        rw [h] at ih
        simpa using ih

end ScriptFront.Text
