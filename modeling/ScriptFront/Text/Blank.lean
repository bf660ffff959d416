/-!
# White space

The characters that have the property White_Space.
-/

namespace ScriptFront.Text

def whiteRanges : List (Nat × Nat) :=
  [(0x9, 0xd), (0x20, 0x20), (0x85, 0x85), (0xa0, 0xa0), (0x1680, 0x1680), (0x2000, 0x200a),
    (0x2028, 0x2029), (0x202f, 0x202f), (0x205f, 0x205f), (0x3000, 0x3000)]

def isWhite (c : Char) : Bool :=
  whiteRanges.any fun (first, last) => first ≤ c.toNat && c.toNat ≤ last

/-- Drops the white space that a text ends with. -/
def trimEnd (cs : List Char) : List Char := (cs.reverse.dropWhile isWhite).reverse

end ScriptFront.Text
