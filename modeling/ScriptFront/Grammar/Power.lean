/-!
# Binding power

How tightly an operator holds its operands, weakest first.
-/

namespace ScriptFront

inductive Power where
  | lowest | equality | comparison | sum | product | unary | call | index
  deriving DecidableEq, Repr

namespace Power

def rank : Power → Nat
  | lowest => 0
  | equality => 1
  | comparison => 2
  | sum => 3
  | product => 4
  | unary => 5
  | call => 6
  | index => 7

instance : LT Power := ⟨fun p q => p.rank < q.rank⟩

instance : LE Power := ⟨fun p q => p.rank ≤ q.rank⟩

instance (p q : Power) : Decidable (p < q) := inferInstanceAs (Decidable (p.rank < q.rank))

instance (p q : Power) : Decidable (p ≤ q) := inferInstanceAs (Decidable (p.rank ≤ q.rank))

theorem lt_iff {p q : Power} : p < q ↔ p.rank < q.rank := Iff.rfl

theorem le_iff {p q : Power} : p ≤ q ↔ p.rank ≤ q.rank := Iff.rfl

theorem not_lt {p q : Power} : ¬ p < q ↔ q ≤ p := Nat.not_lt

theorem lowest_le (p : Power) : lowest ≤ p := Nat.zero_le _

theorem rank_injective {p q : Power} (h : p.rank = q.rank) : p = q := by
  cases p <;> cases q <;> simp_all [rank]

end Power

end ScriptFront
