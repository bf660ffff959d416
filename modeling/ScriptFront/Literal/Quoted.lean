/-!
# String literals

`inside` is what a literal has between its quotes. A quote is one byte, so a text that starts or
ends with a wider character, or is too short to hold two quotes, has nothing inside.
-/

namespace ScriptFront.Literal

def inside (text : String) : String :=
  match text.toList with
  | [] => ""
  | first :: rest =>
    match rest.getLast? with
    | some last =>
      if first.utf8Size = 1 ∧ last.utf8Size = 1 then String.ofList rest.dropLast else ""
    | none => ""

end ScriptFront.Literal
