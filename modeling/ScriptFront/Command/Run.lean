import ScriptFront.Command.Arguments
import ScriptFront.Diagnostic.Report
import ScriptFront.Parser.Basic

/-!
# The command

What a command line writes, given what reading its file gave.
-/

namespace ScriptFront.Command

/-- Why a file has no text. -/
inductive ReadFailure where
  | missing
  | denied
  /-- A part of the path that is not the last is a file. -/
  | notDirectory
  | isDirectory
  | nameTooLong
  /-- The links in the path lead back to themselves. -/
  | linkLoop
  | notUtf8
  | other (reason : String)
  deriving DecidableEq, Repr

def ReadFailure.reason : ReadFailure → String
  | missing => "No such file or directory (os error 2)"
  | denied => "Permission denied (os error 13)"
  | notDirectory => "Not a directory (os error 20)"
  | isDirectory => "Is a directory (os error 21)"
  | nameTooLong => "File name too long (os error 36)"
  | linkLoop => "Too many levels of symbolic links (os error 40)"
  | notUtf8 => "stream did not contain valid UTF-8"
  | other reason => reason

structure Exit where
  code : UInt8
  stdout : String
  stderr : String
  deriving DecidableEq, Repr

def helpText : String :=
  "Lexes and parses a monkey source file, printing the result\n\n" ++
  "Usage: monkey [OPTIONS] <FILE>\n\n" ++
  "Arguments:\n" ++
  "  <FILE>  Source file to parse\n\n" ++
  "Options:\n" ++
  "      --tokens            Print the token stream instead of the parsed program\n" ++
  "      --end-token <CHAR>  Character that marks the end of input [default: NUL]\n" ++
  "  -h, --help              Print help\n" ++
  "  -V, --version           Print version\n"

def versionText : String := "monkey 0.1.0\n"

/-- The last part of a path that names something; a path that has none, or goes up there, names
itself. -/
def fileName (path : String) : String :=
  match ((path.splitOn "/").filter fun part => part ≠ "" && part ≠ ".").getLast? with
  | none | some ".." => path
  | some part => part

def unlines (texts : List String) : String := String.join (texts.map (· ++ "\n"))

def Job.lexer (job : Job) (source : String) : Lexer :=
  let lx := Lexer.ofString (fileName job.file) source
  match job.endToken with
  | none => lx
  | some c => lx.endingWith c

/-- A program is shown only if nothing is wrong with it. -/
def Job.runOn (job : Job) (source : String) : Exit :=
  let lx := job.lexer source
  if job.tokens then ⟨0, unlines (lx.tokens.map toString), ""⟩
  else
    match (Parser.ofLexer lx).program with
    | some (.ok program, p) =>
      if p.diagnostics.isEmpty then ⟨0, unlines (program.body.map Stmt.render), ""⟩
      else ⟨1, "", String.join (p.diagnostics.map (·.report (fileName job.file) source))⟩
    | some (.error d, _) => ⟨1, "", d.report (fileName job.file) source⟩
    | none => ⟨1, "", ""⟩

/-- `contents` is what reading the job's file gave. -/
def Job.run (job : Job) (contents : Except ReadFailure String) : Exit :=
  match contents with
  | .ok source => job.runOn source
  | .error failure => ⟨1, "", "Failed to read " ++ job.file ++ ": " ++ failure.reason ++ "\n"⟩

/-- What a command line writes; `contents` is what reading the file at a path gives. -/
def run {m : Type → Type} [Monad m] (args : List String)
    (contents : String → m (Except ReadFailure String)) : m Exit :=
  match Request.ofArgs args with
  | .error e => pure ⟨2, "", e.message⟩
  | .ok .help => pure ⟨0, helpText, ""⟩
  | .ok .version => pure ⟨0, versionText, ""⟩
  | .ok (.run job) => job.run <$> contents job.file

end ScriptFront.Command
