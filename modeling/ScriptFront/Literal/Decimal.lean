import ScriptFront.Literal.Integer
import ScriptFront.Literal.Binary64

/-!
# Decimal literals

Digits with at most one point before, between or behind them denote the double nearest to them. The
values that have no digits are written by name, in either case.
-/

namespace ScriptFront.Literal

/-- The fraction that digits and a point denote, as numerator and denominator. -/
def fraction? (cs : List Char) : Option (Nat × Nat) :=
  let whole := cs.takeWhile (isDigitOf 10)
  let part := (cs.dropWhile (isDigitOf 10)).drop 1
  let isPointed := (cs.dropWhile (isDigitOf 10)).head?.all (· = '.')
  if isPointed ∧ part.all (isDigitOf 10) ∧ whole ++ part ≠ [] then
    some (positional 10 (whole ++ part), Nat.pow 10 part.length)
  else none

def infinity : Float := Float.ofBits 0x7ff0000000000000

def notANumber : Float := Float.ofBits 0x7ff8000000000000

def decimal? (text : String) : Option Float :=
  match String.ofList (text.toList.map Char.toLower) with
  | "inf" | "infinity" => some infinity
  | "nan" => some notANumber
  | _ => (fraction? text.toList).map fun (num, den) => nearest num den

end ScriptFront.Literal
