/-!
# Characters of a script

The classes that the lexer tells apart. All are ASCII: a script may hold any character, but only
strings can contain the others.
-/

namespace ScriptFront.Text

def isLetter (c : Char) : Bool := c.isAlpha || c = '_'

def isDigit (c : Char) : Bool := c.isDigit

/-- What a word may go on with. -/
def isWordChar (c : Char) : Bool := isLetter c || isDigit c

def isBlank (c : Char) : Bool := c = ' ' || c = '\t' || c = '\n' || c = '\r'

def isQuote (c : Char) : Bool := c = '"' || c = '\''

/-- Bytes that the characters take in UTF-8. -/
def width (cs : List Char) : Nat := cs.foldr (fun c n => c.utf8Size + n) 0

@[simp] theorem width_nil : width [] = 0 := rfl

@[simp] theorem width_cons (c : Char) (cs : List Char) :
    width (c :: cs) = c.utf8Size + width cs := rfl

@[simp] theorem width_append (cs ds : List Char) : width (cs ++ ds) = width cs + width ds := by
  induction cs with
  | nil => simp
  | cons c cs ih => simp [ih, Nat.add_assoc]

end ScriptFront.Text
