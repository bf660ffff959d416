import ScriptFront.Token.Kind
import ScriptFront.Text.Quoted

/-!
# Tokens

A token is a kind, its text and the stretch of the source it was read from. Offsets count bytes of
the source in UTF-8. Tokens and diagnostics keep them in 32 bits, so they start again from zero in
a source that is too long for that.
-/

namespace ScriptFront

/-- What is left of a number in 32 bits. -/
instance coeOffset : Coe Nat UInt32 := ⟨UInt32.ofNat⟩

instance coeNat : Coe UInt32 Nat := ⟨UInt32.toNat⟩

structure Position where
  offset : UInt32
  file : String
  deriving DecidableEq, Repr

structure Span where
  start : UInt32
  stop : UInt32
  file : String
  deriving DecidableEq, Repr

namespace Span

def position (s : Span) : Position := ⟨s.start, s.file⟩

/-- The span between two places of a source, which are cut to 32 bits. -/
def between (start stop : Nat) (file : String) : Span := ⟨.ofNat start, .ofNat stop, file⟩

end Span

structure Token where
  kind : Kind
  text : String
  span : Span
  deriving DecidableEq, Repr

namespace Token

def position (t : Token) : Position := t.span.position

instance : ToString Token := ⟨fun t => t.kind.name ++ " " ++ Text.quote t.text⟩

/-- The token found wherever the input is over: it shows `NUL` and takes no room. -/
def atEnd (file : String) (offset : Nat) : Token := ⟨.eof, "\x00", .between offset offset file⟩

end Token

end ScriptFront
