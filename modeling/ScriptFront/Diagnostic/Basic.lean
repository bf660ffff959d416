import ScriptFront.Token.Basic

/-!
# Diagnostics

A diagnostic is a fault and the place where it shows. `Fault.message` is its plain wording and
`Fault.tip?` the advice that a report puts behind its name.
-/

namespace ScriptFront

inductive Fault where
  | unexpected (expected found : Kind)
  /-- No expression starts with this token. -/
  | noExpression (kind : Kind) (text : String)
  | badInteger (text : String)
  | badFloat (text : String)
  deriving DecidableEq, Repr

namespace Fault

def name : Fault → String
  | unexpected .. => "UnexpectedToken"
  | noExpression .. => "MissingPrefixHandler"
  | badInteger _ => "NumberParseError"
  | badFloat _ => "FloatParseError"

def message : Fault → String
  | unexpected expected found =>
    "expected next token to be " ++ expected.name ++ ", got " ++ found.name ++ " instead"
  | noExpression kind _ => "no prefix parse function for " ++ kind.name ++ " found"
  | badInteger text => "could not parse " ++ Text.quote text ++ " as integer"
  | badFloat text => "could not parse " ++ Text.quote text ++ " as float"

def tip? : Fault → Option String
  | fault@(unexpected ..) => some fault.message
  | noExpression .illegal text => some ("Unrecognised input: \x60" ++ text ++ "\x60")
  | noExpression .eof _ => some "Unexpected end of input, is an expression missing?"
  | noExpression _ text =>
    some ("Unexpected token: \x60" ++ text ++ "\x60, it cannot start an expression")
  | badInteger text =>
    some ("Invalid number: \x60" ++ text ++ "\x60, is it above the integer limit?")
  | badFloat _ => none

end Fault

structure Diagnostic where
  fault : Fault
  position : Position
  deriving DecidableEq, Repr

end ScriptFront
