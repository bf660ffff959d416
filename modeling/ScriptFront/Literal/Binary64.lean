/-!
# Rounding to binary64

`nearest num den` is the double next to the fraction `num / den`; of two that are as near, the one
with an even last bit; infinity from half a unit above the greatest finite one on. All arithmetic
is exact.
-/

namespace ScriptFront.Literal

/-- The quotient rounded to the nearest natural number, a half to the even one. -/
def roundDiv (n d : Nat) : Nat :=
  let q := n / d
  let r := n % d
  if 2 * r < d then q else if d < 2 * r then q + 1 else q + q % 2

/-- `num / den` in units of `2 ^ (unit - 1074)`, rounded. -/
def inUnits (num den unit : Nat) : Nat :=
  if 1074 ≤ unit then roundDiv num (den <<< (unit - 1074))
  else roundDiv (num <<< (1074 - unit)) den

/-- The unit in which the fraction has 53 bits, or the least unit if it has fewer there. -/
def unitOf (num den : Nat) : Nat :=
  -- `low` is that unit or one below it.
  let low := num.log2 + 1074 - (den.log2 + 53)
  if (if 1074 ≤ low then den <<< (low - 1074 + 53) ≤ num
      else den <<< 53 ≤ num <<< (1074 - low)) then low + 1 else low

/-- The bits of infinity, above those of every finite double. -/
def infinityBits : Nat := 0x7ff0000000000000

/-- The fraction bits and the exponent field follow one another, so the count of units carries into
the exponent by itself. -/
def nearestBits (num den : Nat) : Nat :=
  if num = 0 then 0
  else
    let unit := unitOf num den
    min (unit <<< 52 + inUnits num den unit) infinityBits

def nearest (num den : Nat) : Float := Float.ofBits (nearestBits num den).toUInt64

end ScriptFront.Literal
