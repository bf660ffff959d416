import ScriptFront.Diagnostic.Basic
import ScriptFront.Text.Blank
import ScriptFront.Text.Line

/-!
# Reports

A report names the fault and the file and, if the source has the place, shows its line without
indentation over a caret that points at the place:

    Error: UnexpectedToken (expected next token to be CloseParen, got Semicolon instead)
    -> demo
      |
    1 | let x = (1 + 2;
      | --------------^
-/

namespace ScriptFront

open Text

def isIndent (c : Char) : Bool := c = ' ' || c = '\t'

namespace Text.Line

/-- How far into the shown line the place is. Columns count characters; a place inside a character
counts bytes. -/
def caret (line : Line) : Nat :=
  (charsIn? line.text line.column).getD line.column - (line.text.takeWhile isIndent).length

/-- The line as it is shown. -/
def shown (line : Line) : List Char := trimEnd (line.text.dropWhile isIndent)

def excerpt (line : Line) : String :=
  let number := toString line.number
  let margin := "".pushn ' ' (number.length + 1) ++ "|"
  margin ++ "\n" ++
    number ++ " | " ++ String.ofList line.shown ++ "\n" ++
    margin ++ " " ++ "".pushn '-' line.caret ++ "^\n"

end Text.Line

namespace Diagnostic

def headline (d : Diagnostic) : String :=
  match d.fault.tip? with
  | some tip => "Error: " ++ d.fault.name ++ " (" ++ tip ++ ")\n"
  | none => "Error: " ++ d.fault.name ++ "\n"

def report (d : Diagnostic) (file source : String) : String :=
  d.headline ++ "-> " ++ file ++ "\n" ++
    ((lineAt? source d.position.offset).map Line.excerpt).getD ""

end Diagnostic

end ScriptFront
