import ScriptFront.Command.Similar
import ScriptFront.Text.Control

/-!
# Command line

`Request.ofArgs` reads the arguments from left to right. A value that is a word of its own is settled
only when the next option, a file or the end is reached, so of two mistakes the earlier one need not
be the one reported.
-/

namespace ScriptFront.Command

/-- What the command line can hold. -/
inductive Argument where
  | file | tokens | endToken | help | version
  deriving DecidableEq, Repr

namespace Argument

/-- The argument as a usage line shows it. -/
def usage : Argument → String
  | file => "<FILE>"
  | tokens => "--tokens"
  | endToken => "--end-token <CHAR>"
  | help => "--help"
  | version => "--version"

def options : List (String × Argument) :=
  [("tokens", tokens), ("end-token", endToken), ("help", help), ("version", version)]

/-- What is given for a job, and not for help. -/
def ofJob : List Argument := [file, tokens, endToken]

/-- The argument as a choice between several shows it. -/
def choice : Argument → String
  | file => "FILE"
  | argument => argument.usage

def ofName? (name : String) : Option Argument := options.lookup name

end Argument

/-- Something to do with a file. -/
structure Job where
  file : String
  /-- To show the tokens and not the program. -/
  tokens : Bool
  endToken : Option Char
  deriving DecidableEq, Repr

inductive Request where
  | help
  | version
  | run (job : Job)
  deriving DecidableEq, Repr

/-- The arguments that a usage line shows. -/
inductive Usage where
  /-- All options at once. -/
  | general
  /-- The file and these. -/
  | having (arguments : List Argument)
  /-- A choice of those for a job, with this one. -/
  | choosing (argument : Argument)
  deriving DecidableEq, Repr

namespace Usage

def ofUsed (used : List Argument) : Usage := if used.isEmpty then general else having used

def parts : Usage → List String
  | general => ["[OPTIONS]", Argument.file.usage]
  | having arguments => (arguments.filter (· ≠ .file)).map Argument.usage ++ [Argument.file.usage]
  | choosing argument =>
    (if argument ∈ Argument.ofJob then [] else [argument.usage]) ++
      ["<" ++ "|".intercalate (Argument.ofJob.map Argument.choice) ++ ">"]

def line (u : Usage) : String := "Usage: monkey " ++ " ".intercalate u.parts

end Usage

/-- What is wrong with a command line. -/
inductive UsageError where
  | unknown (argument : String) (similar : Option String) (isFlag : Bool) (usage : Usage)
  | repeated (argument : Argument)
  | noValue (argument : Argument)
  | emptyCharacter (argument : Argument)
  | longCharacter (argument : Argument) (value : String)
  | unwantedValue (argument : Argument) (value : String) (usage : Usage)
  | noFile (usage : Usage)
  deriving DecidableEq, Repr

namespace UsageError

def reason : UsageError → String
  | unknown argument .. => "unexpected argument '" ++ Text.plain argument ++ "' found"
  | repeated argument => "the argument '" ++ argument.usage ++ "' cannot be used multiple times"
  | noValue argument => "a value is required for '" ++ argument.usage ++ "' but none was supplied"
  | emptyCharacter argument =>
    "invalid value '' for '" ++ argument.usage ++ "': cannot parse char from empty string"
  | longCharacter argument value =>
    "invalid value '" ++ Text.plain value ++ "' for '" ++ argument.usage ++
      "': too many characters in string"
  | unwantedValue argument value _ =>
    "unexpected value '" ++ Text.plain value ++ "' for '" ++ argument.usage ++
      "' found; no more were expected"
  | noFile _ =>
    "the following required arguments were not provided:\n  " ++ Argument.file.usage

def tip? : UsageError → Option String
  | unknown _ (some similar) _ _ => some ("a similar argument exists: '--" ++ similar ++ "'")
  | unknown argument none true _ =>
    let shown := Text.plain argument
    some ("to pass '" ++ shown ++ "' as a value, use '-- " ++ shown ++ "'")
  | _ => none

def usage? : UsageError → Option Usage
  | unknown _ _ _ usage | unwantedValue _ _ usage | noFile usage => some usage
  | repeated _ => some .general
  | noValue _ | emptyCharacter _ | longCharacter _ _ => none

def message (e : UsageError) : String :=
  "\n\n".intercalate (["error: " ++ e.reason] ++ (e.tip?.map ("  tip: " ++ ·)).toList ++
    (e.usage?.map Usage.line).toList ++ ["For more information, try '--help'.\n"])

end UsageError

/-! ## Reading -/

/-- The arguments read so far. -/
structure Reading where
  file : Option String
  tokens : Bool
  endToken : Option Char
  /-- In the order in which they were settled. -/
  used : List Argument
  /-- The last argument, with its value if that is read: it is not settled yet. -/
  pending : Option (Argument × Option String)
  /-- Whether all that follows are files. -/
  isRaw : Bool
  deriving DecidableEq, Repr

namespace Reading

def start : Reading := ⟨none, false, none, [], none, false⟩

/-- The arguments in use once the pending one is settled, be its value good or bad. One that comes
twice is in use no more. -/
def usedNext (r : Reading) : List Argument :=
  match r.pending with
  | some (argument, some _) =>
    if argument ∈ r.used then r.used.erase argument else r.used ++ [argument]
  | _ => r.used

def settle (r : Reading) : Except UsageError Reading :=
  let settled : Reading := { r with used := r.usedNext, pending := none }
  match r.pending with
  | none => pure r
  | some (argument, none) => throw (.noValue argument)
  | some (.endToken, some value) =>
    if .endToken ∈ r.used then throw (.repeated .endToken)
    else
      match value.toList with
      | [] => throw (.emptyCharacter .endToken)
      | [c] => pure { settled with endToken := some c }
      | _ => throw (.longCharacter .endToken value)
  | some (argument, some value) =>
    if value.isEmpty then throw (.noValue argument)
    else pure { settled with file := some value }

def hasFile (r : Reading) : Bool := r.file.isSome || r.pending.any (·.1 = .file)

def addFile (r : Reading) (value : String) : Except UsageError Reading := do
  if r.hasFile then throw (.unknown value none false .general)
  else
    let r ← r.settle
    pure { r with pending := some (.file, some value) }

/-- A word that is no option: the value of the option before it, or a file. -/
def addValue (r : Reading) (value : String) : Except UsageError Reading :=
  match r.pending with
  | some (argument, none) => pure { r with pending := some (argument, some value) }
  | _ => r.addFile value

/-- An option by its long name, with the value behind its `=`. Such a value is settled at once. -/
def addLong (r : Reading) (name : String) (value : Option String) :
    Except UsageError (Reading ⊕ Request) :=
  match Argument.ofName? name, value with
  | none, _ =>
    let similar := closest? name (Argument.options.map (·.1))
    let used := r.usedNext ++ (similar.bind Argument.ofName?).toList
    throw (.unknown ("--" ++ name) similar true (.ofUsed used.eraseDups))
  | some .endToken, none => do
    let r ← r.settle
    pure (.inl { r with pending := some (.endToken, none) })
  | some .endToken, some value => do
    let r ← r.settle
    let r ← ({ r with pending := some (.endToken, some value) } : Reading).settle
    pure (.inl r)
  | some argument, some value =>
    throw (.unwantedValue argument value
      (if r.used.isEmpty then .having [argument] else .choosing argument))
  | some .help, none => do
    let _ ← r.settle
    pure (.inr .help)
  | some .version, none => do
    let _ ← r.settle
    pure (.inr .version)
  | some argument, none => do
    let r ← r.settle
    if argument ∈ r.used then throw (.repeated argument)
    else pure (.inl { r with tokens := true, used := r.used ++ [argument] })

def addShort (r : Reading) (letter : Char) : Except UsageError Request :=
  match letter with
  | 'h' => do
    let _ ← r.settle
    pure .help
  | 'V' => do
    let _ ← r.settle
    pure .version
  | _ => throw (.unknown ("-" ++ letter.toString) none true .general)

/-- The request of a reading that has come to its end. -/
def finish (r : Reading) : Except UsageError Request := do
  let r ← r.settle
  match r.file with
  | some file => pure (.run ⟨file, r.tokens, r.endToken⟩)
  | none => throw (.noFile (.having r.used))

def read (r : Reading) : List String → Except UsageError Request
  | [] => r.finish
  | word :: words =>
    match r.isRaw, word.toList with
    | true, _ => do
      let r ← r.addFile word
      r.read words
    | false, ['-', '-'] => ({ r with isRaw := true } : Reading).read words
    | false, '-' :: '-' :: long => do
      let name := long.takeWhile (· ≠ '=')
      let value := if name.length < long.length then some (long.drop (name.length + 1)) else none
      match ← r.addLong (String.ofList name) (value.map String.ofList) with
      | .inl r => r.read words
      | .inr request => pure request
    | false, '-' :: letter :: _ => r.addShort letter
    | false, _ => do
      let r ← r.addValue word
      r.read words

end Reading

def Request.ofArgs (args : List String) : Except UsageError Request := Reading.start.read args

end ScriptFront.Command
