import ScriptFront.Text.Printable

/-!
# Quoted text

`quote` writes a text between double quotes on one printable line: a character that would end the
quotation, break the line or not show is escaped.
-/

namespace ScriptFront.Text

/-- The escape `\u{…}` of a character, its code point in lowercase hexadecimal. -/
def escapeCode (c : Char) : String :=
  "\\u\x7b" ++ String.ofList (Nat.toDigits 16 c.toNat) ++ "\x7d"

def quoteChar (c : Char) : String :=
  match c with
  | '\x00' => "\\0"
  | '\t' => "\\t"
  | '\n' => "\\n"
  | '\r' => "\\r"
  | '"' => "\\\""
  | '\\' => "\\\\"
  | c => if isPrintable c then c.toString else escapeCode c

def quote (text : String) : String :=
  "\"" ++ String.join (text.toList.map quoteChar) ++ "\""

end ScriptFront.Text
