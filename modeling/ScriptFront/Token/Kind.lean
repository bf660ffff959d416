/-!
# Kinds of tokens

`Kind.ofMark?` and `Kind.ofWord` classify the text of a mark and of a word; `Kind.all` lists the
kinds in the order in which tables are shown.
-/

namespace ScriptFront

inductive Kind where
  | illegal | eof
  | identifier | int | float | string
  | assign | plus | dash | bang | star | slash
  | less | greater | equal | notEqual
  | comma | semicolon | colon
  | openParen | closeParen | openCurly | closeCurly | openBracket | closeBracket
  | fnWord | letWord | trueWord | falseWord | ifWord | elseWord | returnWord
  deriving DecidableEq, Repr

namespace Kind

def all : List Kind :=
  [illegal, eof, identifier, int, float, string, assign, plus, dash, bang, star, slash, less,
    greater, equal, notEqual, comma, semicolon, colon, openParen, closeParen, openCurly,
    closeCurly, openBracket, closeBracket, fnWord, letWord, trueWord, falseWord, ifWord, elseWord,
    returnWord]

def name : Kind → String
  | illegal => "Illegal"
  | eof => "EOF"
  | identifier => "Identifier"
  | int => "Int"
  | float => "Float"
  | string => "String"
  | assign => "Assignment"
  | plus => "Plus"
  | dash => "Dash"
  | bang => "Not"
  | star => "Star"
  | slash => "Slash"
  | less => "Less"
  | greater => "Greater"
  | equal => "Equals"
  | notEqual => "NotEquals"
  | comma => "Comma"
  | semicolon => "Semicolon"
  | colon => "Colon"
  | openParen => "OpenParen"
  | closeParen => "CloseParen"
  | openCurly => "OpenCurly"
  | closeCurly => "CloseCurly"
  | openBracket => "OpenBracket"
  | closeBracket => "CloseBracket"
  | fnWord => "Fn"
  | letWord => "Let"
  | trueWord => "True"
  | falseWord => "False"
  | ifWord => "If"
  | elseWord => "Else"
  | returnWord => "Return"

instance : ToString Kind := ⟨name⟩

/-- The marks that are a token by themselves, whatever follows. `NUL` ends the input. -/
def ofMark? : Char → Option Kind
  | '\x00' => some eof
  | '+' => some plus
  | '-' => some dash
  | '*' => some star
  | '/' => some slash
  | '<' => some less
  | '>' => some greater
  | ',' => some comma
  | ';' => some semicolon
  | ':' => some colon
  | '(' => some openParen
  | ')' => some closeParen
  | '{' => some openCurly
  | '}' => some closeCurly
  | '[' => some openBracket
  | ']' => some closeBracket
  | _ => none

/-- The words that cannot be names. -/
def reserved : List (String × Kind) :=
  [("fn", fnWord), ("let", letWord), ("true", trueWord), ("false", falseWord), ("if", ifWord),
    ("else", elseWord), ("return", returnWord)]

def ofWord (word : String) : Kind := (reserved.lookup word).getD identifier

end Kind

end ScriptFront
