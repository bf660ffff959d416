/-!
# Control sequences

A terminal obeys some characters and shows the others. `plain` is what a text shows where nothing
obeys: it drops the control characters and the sequences that an escape opens, and keeps the breaks
and spaces that stand inside of them.
-/

namespace ScriptFront.Text

/-- Where a text stands in a control sequence. -/
inductive Sequence where
  /-- In none. -/
  | ground
  | escape | escapeIntermediate
  /-- Behind `ESC [`, up to a letter. -/
  | controlSequence
  | deviceEntry | deviceParameter | deviceIntermediate
  /-- In a text for a device or an application. -/
  | controlString
  /-- Behind `ESC ]`, up to a bell. -/
  | systemCommand
  deriving DecidableEq, Repr

namespace Sequence

def isWithin (first last c : Char) : Bool := first ≤ c && c ≤ last

/-- A control string ends with the byte `9C`, wherever in a character that is. -/
def closesString (c : Char) : Bool := (String.utf8EncodeChar c).contains 0x9c

/-- An escape opens a sequence and a cancel closes it, whatever it is. -/
def next (s : Sequence) (c : Char) : Sequence :=
  if c = '\x1b' then escape
  else if c = '\x18' || c = '\x1a' then ground
  else
    match s with
    | ground => ground
    | escape =>
      if c = '[' then controlSequence
      else if c = ']' then systemCommand
      else if c = 'P' then deviceEntry
      else if c = 'X' || c = '^' || c = '_' then controlString
      else if isWithin ' ' '/' c then escapeIntermediate
      else if isWithin '0' '~' c then ground
      else s
    | escapeIntermediate => if isWithin '0' '~' c then ground else s
    | controlSequence => if isWithin '@' '~' c then ground else s
    | deviceEntry =>
      if isWithin ' ' '/' c then deviceIntermediate
      else if isWithin '0' '?' c then deviceParameter
      else if isWithin '@' '~' c then controlString
      else s
    | deviceParameter =>
      if isWithin ' ' '/' c then deviceIntermediate
      else if isWithin '<' '~' c then controlString
      else s
    | deviceIntermediate => if isWithin '0' '~' c then controlString else s
    | controlString => if closesString c then ground else s
    | systemCommand => if c = '\x07' then ground else s

def isSpacing (c : Char) : Bool := c = '\t' || c = '\n' || c = '\x0c' || c = '\r'

/-- Whether a character shows. -/
def shows (s : Sequence) (c : Char) : Bool :=
  match s with
  | ground => isSpacing c || ' ' ≤ c && c ≠ '\x7f'
  | escape | escapeIntermediate | controlSequence => isSpacing c
  | deviceEntry | deviceParameter | deviceIntermediate | controlString | systemCommand => false

end Sequence

/-- Whether a character shows, `isShowing` if the one before it does. -/
def shownFrom (s : Sequence) (isShowing : Bool) (c : Char) : Bool :=
  (if isShowing then .ground else s : Sequence).shows c

/-- Behind a character that shows, all show up to the next control character; a sequence around them
goes on there, unless a character beyond ASCII has ended it. -/
def plainFrom (s : Sequence) (isShowing : Bool) : List Char → List Char
  | [] => []
  | c :: cs =>
    if shownFrom s isShowing c then
      c :: plainFrom (if c.toNat < 0x80 then s else .ground) true cs
    else plainFrom (s.next c) false cs

def plain (text : String) : String := String.ofList (plainFrom .ground false text.toList)

end ScriptFront.Text
