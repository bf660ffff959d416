import ScriptFront.Grammar.Basic
import ScriptFront.Proofs.Parser.Cursor
import ScriptFront.Proofs.Syntax.Derivation

/-!
# The standard grammar, kind by kind

What its rules say about the kind of a token, in the terms of the syntax.
-/

namespace ScriptFront

/-- The kinds of the tokens that start what a rule parses. -/
def HeadRule.starts : HeadRule → List Kind
  | .ident => [.identifier]
  | .integer => [.int]
  | .float => [.float]
  | .boolean => [.trueWord, .falseWord]
  | .string => [.string]
  | .unary => [.bang, .dash]
  | .group => [.openParen]
  | .cond => [.ifWord]
  | .function => [.fnWord]
  | .array => [.openBracket]
  | .hash => [.openCurly]

namespace Grammar

variable {kind : Kind} {power : Power}

theorem standard_heads {rule : HeadRule} :
    standard.heads kind = some rule ↔ kind ∈ rule.starts := by
  cases kind <;> cases rule <;> decide

theorem standard_binary (h : standard.tails kind = some (power, .binary)) :
    kind ∈ power.operators ∧ power < .unary := by
  cases kind <;> simp only [standard, reduceCtorEq, Option.some.injEq, Prod.mk.injEq, and_true,
    and_false] at h <;> subst h <;> decide

theorem standard_call (h : standard.tails kind = some (power, .call)) :
    kind = .openParen ∧ power = .call := by
  cases kind <;> simp_all [standard]

theorem standard_index (h : standard.tails kind = some (power, .index)) :
    kind = .openBracket ∧ power = .index := by
  cases kind <;> simp_all [standard]

theorem standard_tails (h : kind ∈ power.operators) :
    standard.tails kind = some (power, .binary) := by
  cases power <;> simp only [Power.operators, List.mem_cons, List.not_mem_nil, or_false] at h
  all_goals rcases h with rfl | rfl <;> rfl

theorem standard_stmts (kind : Kind) : standard.stmts kind =
    if kind = .letWord then some .binding else if kind = .returnWord then some .ret else none := by
  cases kind <;> rfl

theorem not_goesOn (h : standard.power kind ≤ .lowest) : ¬ kind.goesOn := by
  revert h
  cases kind <;> decide

end Grammar

/-- Nothing that holds tighter than `p` goes on behind an expression. -/
def Loose (p : Power) (rest : List Token) : Prop :=
  ∀ t ∈ rest.head?, Grammar.standard.power t.kind ≤ p

theorem Loose.mono {p q : Power} {rest : List Token} (h : Loose p rest) (hpq : p ≤ q) :
    Loose q rest := fun t ht => Nat.le_trans (h t ht) hpq

theorem loose_nil {p : Power} : Loose p [] := by simp [Loose]

/-- It is the token ahead that could go on. -/
theorem loose_iff_peek {s : State} {p : Power} {rest : List Token} (hs : s.Ahead rest) :
    Loose p rest ↔ Grammar.standard.power s.peek.kind ≤ p := by
  cases rest with
  | nil =>
    have hend : s.peek.kind = .eof := State.Reads.current_eof hs
    rw [hend]
    exact ⟨fun _ => Power.lowest_le p, fun _ => loose_nil⟩
  | cons t rest =>
    have ht : s.peek = t := hs.1
    simp [Loose, ht]

theorem loose_index (rest : List Token) : Loose .index rest := by
  intro t _
  cases t.kind <;> decide

end ScriptFront
