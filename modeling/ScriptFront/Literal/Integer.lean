/-!
# Integer literals

The first characters of a literal announce its base: `0x`, `0o` and `0b`, in either case, and a `0`
before more digits, which makes it octal. Anything else is decimal. Leading zeros behind a base are
free, a sign is not part of a literal, and the value fits a signed 64-bit integer.
-/

namespace ScriptFront.Literal

/-- The value of a digit of some base up to 16. Letters stand for ten and above, in lower case. -/
def digit? (c : Char) : Option Nat :=
  if '0' ≤ c ∧ c ≤ '9' then some (c.toNat - '0'.toNat)
  else if 'a' ≤ c ∧ c ≤ 'f' then some (c.toNat - 'a'.toNat + 10)
  else none

def isDigitOf (base : Nat) (c : Char) : Bool := (digit? c).any (· < base)

/-- The number that digits denote, the last one counting ones. -/
def positional (base : Nat) (digits : List Char) : Nat :=
  digits.foldl (fun n c => n * base + (digit? c).getD 0) 0

/-- The base of a literal in lower case, and its digits. -/
def announced : List Char → Nat × List Char
  | '0' :: 'x' :: digits => (16, digits)
  | '0' :: 'o' :: digits => (8, digits)
  | '0' :: 'b' :: digits => (2, digits)
  | '0' :: c :: digits => (8, c :: digits)
  | digits => (10, digits)

def maxInteger : Nat := 0x7fffffffffffffff

def integer? (text : String) : Option Nat :=
  let (base, digits) := announced (text.toList.map Char.toLower)
  if digits ≠ [] ∧ digits.all (isDigitOf base) ∧ positional base digits ≤ maxInteger then
    some (positional base digits)
  else none

end ScriptFront.Literal
