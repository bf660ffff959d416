import ScriptFront.Proofs.Parser.Rules

/-!
# Climbing

Operands joined by binary operators, with any powers in any grammar. `g.Joins first ops e` says that
`e` is such a tree: its tokens in order are `first` and then each operator of `ops` with its
operand, and every node holds its left part as tightly as the root of that part or less, its right
part less tightly. There is one such tree at most, and parsing gives the one for the operators that
hold tighter than asked for.
-/

namespace ScriptFront

open Parse

/-- The leaf that a rule makes of a token, if it is a rule for leaves and takes the token. -/
def HeadRule.leaf? : HeadRule → Token → Option Expr
  | .ident, t => some (.ident ⟨t, t.text⟩)
  | .integer, t => (Literal.integer? t.text).map fun (value : Nat) => .integer t value
  | .float, t => (Literal.decimal? t.text).map fun value => .float t value
  | .boolean, t => some (.boolean t (t.kind = .trueWord))
  | .string, t => some (.string t (Literal.inside t.text))
  | _, _ => none

namespace Grammar

def leaf? (g : Grammar) (t : Token) : Option Expr := (g.heads t.kind).bind (·.leaf? t)

/-- The power of the operator at the root, if there is one. -/
def rootPower (g : Grammar) : Expr → Option Power
  | .binary op _ _ _ => some (g.power op.kind)
  | _ => none

inductive Joins (g : Grammar) : Token → List (Token × Token) → Expr → Prop where
  | leaf {t : Token} {e : Expr} : g.leaf? t = some e → Joins g t [] e
  | binary {first op next : Token} {before behind : List (Token × Token)} {left right : Expr} :
      Joins g first before left → Joins g next behind right →
      (∀ q ∈ g.rootPower left, g.power op.kind ≤ q) →
      (∀ q ∈ g.rootPower right, g.power op.kind < q) →
      Joins g first (before ++ (op, next) :: behind) (.binary op left op.text (some right))

/-- Each operator is binary with a power that counts, and what it is in front of is a leaf. -/
def Operates (g : Grammar) (ops : List (Token × Token)) : Prop :=
  ∀ op ∈ ops, op.1.kind ≠ .semicolon ∧ .lowest < g.power op.1.kind ∧
    g.tails op.1.kind = some (g.power op.1.kind, .binary) ∧ (g.leaf? op.2).isSome

instance (g : Grammar) (ops : List (Token × Token)) : Decidable (g.Operates ops) :=
  inferInstanceAs (Decidable (∀ op ∈ ops, _ ∧ _ ∧ _ ∧ _))

/-- Operators and operands as they stand in a row. -/
def inRow (ops : List (Token × Token)) : List Token :=
  ops.flatMap fun (op, operand) => [op, operand]

/-- The operators up to the first that holds no tighter than `min`, with their operands. -/
def tighter (g : Grammar) (min : Power) (ops : List (Token × Token)) : List (Token × Token) :=
  ops.takeWhile fun op => min < g.power op.1.kind

/-- The operators from there on. -/
def weaker (g : Grammar) (min : Power) (ops : List (Token × Token)) : List (Token × Token) :=
  ops.dropWhile fun op => min < g.power op.1.kind

variable {g : Grammar}

theorem leaf?_rootPower {t : Token} {e : Expr} (h : g.leaf? t = some e) : g.rootPower e = none := by
  unfold leaf? at h
  obtain ⟨rule, -, h⟩ := Option.bind_eq_some_iff.1 h
  cases rule <;> simp only [HeadRule.leaf?, Option.map_eq_some_iff, Option.some.injEq,
    reduceCtorEq] at h
  case integer | float =>
    obtain ⟨value, -, rfl⟩ := h
    rfl
  all_goals
    subst h
    rfl

/-! ## One tree at most -/

/-- The root of a tree with operators is one of them, and none of them is weaker. -/
theorem Joins.root {first : Token} {ops : List (Token × Token)} {e : Expr}
    (h : g.Joins first ops e) :
    ∀ op ∈ ops, ∃ q, g.rootPower e = some q ∧ q ≤ g.power op.1.kind := by
  induction h with
  | leaf _ => simp
  | @binary first op next before behind left right _ _ hleft hright ihleft ihright =>
    intro o ho
    refine ⟨g.power op.kind, rfl, ?_⟩
    rcases List.mem_append.1 ho with ho | ho
    · obtain ⟨q, hq, hle⟩ := ihleft o ho
      exact Nat.le_trans (hleft q hq) hle
    · rcases List.mem_cons.1 ho with rfl | ho
      · exact Nat.le_refl _
      · obtain ⟨q, hq, hle⟩ := ihright o ho
        exact Nat.le_trans (Nat.le_of_lt (hright q hq)) hle

/-- An operator that stands before the root of one tree cannot be the root of another. -/
theorem Joins.root_eq {first next next' op op' : Token}
    {before before' behind behind' : List (Token × Token)} {left' right : Expr}
    (hright : g.Joins next behind right) (hright' : ∀ q ∈ g.rootPower right, g.power op.kind < q)
    (hleft : g.Joins first before' left') (hleft' : ∀ q ∈ g.rootPower left', g.power op'.kind ≤ q)
    {c : List (Token × Token)} (hbefore : before' = before ++ c)
    (hrow : (op, next) :: behind = c ++ (op', next') :: behind') : c = [] := by
  cases c with
  | nil => rfl
  | cons o c =>
    rw [List.cons_append, List.cons.injEq] at hrow
    obtain ⟨rfl, hbehind⟩ := hrow
    obtain ⟨q, hq, hle⟩ := hright.root (op', next') (by simp [hbehind])
    obtain ⟨q', hq', hle'⟩ := hleft.root (op, next) (by simp [hbefore])
    have h1 := hright' q hq
    have h2 := hleft' q' hq'
    simp only [Power.lt_iff, Power.le_iff] at *
    omega

theorem Joins.unique {first : Token} {ops : List (Token × Token)} {e e' : Expr}
    (h : g.Joins first ops e) (h' : g.Joins first ops e') : e = e' := by
  induction h generalizing e' with
  | leaf hleaf =>
    generalize hops : [] = ops at h'
    cases h' with
    | leaf hleaf' => exact Option.some.inj (hleaf.symm.trans hleaf')
    | binary => simp at hops
  | @binary first op next before behind left right hl hr hleft hright ihleft ihright =>
    generalize hops : before ++ (op, next) :: behind = ops at h'
    cases h' with
    | leaf => simp at hops
    | @binary _ op' next' before' behind' left' right' hl' hr' hleft' hright' =>
      have hcut : before = before' := by
        rcases List.append_eq_append_iff.1 hops with ⟨c, hc, hrow⟩ | ⟨c, hc, hrow⟩
        · have := Joins.root_eq hr hright hl' hleft' hc hrow
          simp [hc, this]
        · have := Joins.root_eq hr' hright' hl hleft hc hrow
          simp [hc, this]
      subst hcut
      obtain ⟨hop, rfl⟩ := List.cons.inj (List.append_cancel_left hops)
      obtain ⟨rfl, rfl⟩ := Prod.mk.inj hop
      rw [ihleft hl', ihright hr']

/-! ## Operators that are taken -/

theorem inRow_append (ops ops' : List (Token × Token)) :
    inRow (ops ++ ops') = inRow ops ++ inRow ops' := List.flatMap_append

theorem inRow_length (ops : List (Token × Token)) : (inRow ops).length = 2 * ops.length := by
  induction ops with
  | nil => rfl
  | cons op ops ih =>
    simp only [inRow, List.flatMap_cons, List.length_append] at *
    simp [ih]
    omega

/-- What holds tighter than a power above `min` comes first in what holds tighter than `min`. -/
theorem tighter_split {min power : Power} (h : min < power) (ops : List (Token × Token)) :
    g.tighter min ops = g.tighter power ops ++ g.tighter min (g.weaker power ops) := by
  unfold tighter weaker
  induction ops with
  | nil => rfl
  | cons op ops ih =>
    by_cases hop : power < g.power op.1.kind
    · have hmin : min < g.power op.1.kind := Nat.lt_trans h hop
      simp [hop, hmin, ih]
    · simp [hop]

theorem Operates.of_cons {op : Token × Token} {ops : List (Token × Token)}
    (h : g.Operates (op :: ops)) : g.Operates ops := fun o ho => h o (List.mem_cons_of_mem _ ho)

theorem Operates.weaker {ops : List (Token × Token)} (h : g.Operates ops) (min : Power) :
    g.Operates (g.weaker min ops) :=
  fun o ho => h o ((List.dropWhile_sublist _).subset ho)

theorem tighter_append_weaker (min : Power) (ops : List (Token × Token)) :
    g.tighter min ops ++ g.weaker min ops = ops := List.takeWhile_append_dropWhile

theorem inRow_split (g : Grammar) (min : Power) (first : Token) (ops : List (Token × Token))
    (more : List Token) : first :: inRow ops ++ more =
      first :: inRow (g.tighter min ops) ++ (inRow (g.weaker min ops) ++ more) := by
  simp only [List.cons_append, ← List.append_assoc, ← inRow_append, tighter_append_weaker]

theorem weaker_length_le (min : Power) (ops : List (Token × Token)) :
    (g.weaker min ops).length ≤ ops.length := (List.dropWhile_sublist _).length_le

theorem weaker_head {min : Power} {ops : List (Token × Token)} :
    ∀ op ∈ (g.weaker min ops).head?, g.power op.1.kind ≤ min := by
  intro op hop
  have := List.head?_dropWhile_not (fun op : Token × Token => min < g.power op.1.kind) ops
  unfold weaker at hop
  rw [hop] at this
  exact Power.not_lt.1 (by simpa using this)

/-! ## Parsing -/

/-- A leaf's rule reads nothing but the leaf. -/
theorem parse_leaf {self : Parses} {rule : HeadRule} {s : State} {e : Expr}
    (h : rule.leaf? s.current = some e) : rule.parse self s = .done e s := by
  cases rule <;> simp only [HeadRule.leaf?, Option.map_eq_some_iff, Option.some.injEq,
    reduceCtorEq] at h
  case integer | float =>
    obtain ⟨value, hvalue, rfl⟩ := h
    simp [HeadRule.parse, Bind.bind, current, pure_apply, hvalue]
  all_goals
    subst h
    rfl

/-- An expression that starts with a leaf goes on behind it. -/
theorem expr_of_leaf {n : Nat} {min : Power} {s t : State} {left e : Expr}
    (hleaf : g.leaf? s.current = some left) (h : (g.run n (.climb min left)).Clean s e t) :
    (g.run (n + 1) (.expr min)).Clean s e t := by
  obtain ⟨rule, hrule, hleft⟩ := Option.bind_eq_some_iff.1 hleaf
  exact clean_expr.2 ⟨rule, hrule, left, s, ⟨parse_leaf hleft, rfl⟩, h⟩

/-- Behind a token that is no operator here, the part that is parsed is all. -/
theorem climb_stops {n : Nat} {min : Power} {left : Expr} {s : State}
    (h : s.peek.kind = .semicolon ∨ g.power s.peek.kind ≤ min) :
    (g.run (n + 1) (.climb min left)).Clean s left s := clean_climb.2 (.inr ⟨h, rfl, rfl⟩)

/-- An operator that holds tighter than asked for takes its right operand, and parsing goes on. -/
theorem climb_of_binary {n : Nat} {min power : Power} {s t u : State} {left right e : Expr}
    (hrule : g.tails s.peek.kind = some (power, .binary)) (hsemi : s.peek.kind ≠ .semicolon)
    (hlt : min < power) (hright : (g.run n (.expr power)).Clean s.advance.advance right t)
    (h : (g.run n (.climb min (.binary s.peek left s.peek.text (some right)))).Clean t e u) :
    (g.run (n + 1) (.climb min left)).Clean s e u :=
  clean_climb.2 (.inl ⟨power, .binary, hrule, hsemi, hlt, _, t,
    clean_binary.2 ⟨right, hright, rfl⟩, h⟩)

variable {x : Token}

/-- What the loop does over a row of operators that `x` ends: `left` is what is parsed before the
row, and the first operator of the row holds it no tighter than its root does. -/
def Climbs (g : Grammar) (x : Token) (ops : List (Token × Token)) : Prop :=
  ∀ (n : Nat) (s : State) (min : Power) ⦃first : Token⦄ ⦃before : List (Token × Token)⦄
    ⦃left : Expr⦄, 2 * ops.length + 1 ≤ n → g.Joins first before left →
    (∀ q ∈ g.rootPower left, min < q) →
    (∀ op ∈ ops.head?, ∀ q ∈ g.rootPower left, g.power op.1.kind ≤ q) →
    s.advance.Shows (inRow ops ++ [x]) →
    ∃ e, (g.run n (.climb min left)).Clean s e (s.skip (2 * (g.tighter min ops).length)) ∧
      g.Joins first (before ++ g.tighter min ops) e ∧ ∀ q ∈ g.rootPower e, min < q

theorem climbs_nil (hx : x.kind = .semicolon ∨ g.power x.kind = .lowest) : g.Climbs x [] := by
  intro n s min first before left hn hleft hmin _ hs
  obtain ⟨n, rfl⟩ : ∃ m, n = m + 1 := ⟨n - 1, by omega⟩
  have hpeek : s.peek = x := hs.1
  refine ⟨left, climb_stops ?_, by simpa [tighter] using hleft, hmin⟩
  rcases hx with h | h
  · exact .inl (by rw [hpeek, h])
  · exact .inr (by rw [hpeek, h]; exact Power.lowest_le _)

theorem climbs_cons {op operand : Token} {rest : List (Token × Token)}
    (hops : g.Operates ((op, operand) :: rest)) (hrest : g.Climbs x rest)
    (hweaker : ∀ power, g.Climbs x (g.weaker power rest)) : g.Climbs x ((op, operand) :: rest) := by
  intro n s min first before left hn hleft hmin hnext hs
  rw [List.length_cons] at hn
  obtain ⟨n, rfl⟩ : ∃ m, n = m + 2 := ⟨n - 2, by omega⟩
  obtain ⟨hpeek, hrow⟩ : s.peek = op ∧ s.advance.advance.Shows (operand :: (inRow rest ++ [x])) :=
    ⟨hs.1, hs.2⟩
  obtain ⟨hsemi, -, hrule, hleaf⟩ := hops (op, operand) List.mem_cons_self
  generalize hpower : g.power op.kind = power at hrule
  by_cases hlt : min < power
  · obtain ⟨leaf, hleaf⟩ := Option.isSome_iff_exists.1 hleaf
    have hnone : g.rootPower leaf = none := leaf?_rootPower hleaf
    -- The right operand takes what holds tighter than this operator, up to the state `t`.
    obtain ⟨right, hright, hjoins, htight⟩ := hrest n s.advance.advance power (by omega)
      (.leaf hleaf) (by simp [hnone]) (by simp [hnone]) hrow.2
    have hshorter := g.weaker_length_le power rest
    generalize ht : s.advance.advance.skip (2 * (g.tighter power rest).length) = t at hright
    have htrow : t.advance.Shows (inRow (g.weaker power rest) ++ [x]) := by
      have := hrow
      rw [← List.cons_append, g.inRow_split power] at this
      have := this.append_right
      rwa [List.length_cons, inRow_length, State.skip, State.skip_advance, ht] at this
    -- The loop goes on behind it.
    have hnode : g.Joins first (before ++ (op, operand) :: g.tighter power rest)
        (.binary op left op.text (some right)) :=
      .binary hleft hjoins (hnext _ rfl) (by simpa [hpower] using htight)
    obtain ⟨e, hclean, hall, hroot⟩ := hweaker power (n + 1) t min (by omega) hnode
      (by simpa [rootPower, hpower] using hlt) (by simpa [rootPower, hpower] using weaker_head)
      htrow
    have htaken : g.tighter min ((op, operand) :: rest) =
        (op, operand) :: (g.tighter power rest ++ g.tighter min (g.weaker power rest)) := by
      rw [← tighter_split hlt]
      simp [tighter, hpower, hlt]
    subst hpeek
    have hright := expr_of_leaf (hrow.1.symm ▸ hleaf) hright
    refine ⟨e, ?_, by simpa [htaken] using hall, hroot⟩
    have := climb_of_binary hrule hsemi hlt hright hclean
    rw [htaken, List.length_cons, List.length_append, Nat.mul_add, Nat.mul_add]
    rw [← ht, ← State.skip_add] at this
    exact this
  · have hnone : g.tighter min ((op, operand) :: rest) = [] := by simp [tighter, hpower, hlt]
    rw [hnone, List.append_nil]
    refine ⟨left, climb_stops (.inr ?_), hleft, hmin⟩
    rw [hpeek, hpower]
    exact Power.not_lt.1 hlt

theorem climbs (hx : x.kind = .semicolon ∨ g.power x.kind = .lowest) {ops : List (Token × Token)}
    (hops : g.Operates ops) : g.Climbs x ops := by
  induction hlen : ops.length using Nat.strongRecOn generalizing ops with
  | ind n ih =>
    cases ops with
    | nil => exact climbs_nil hx
    | cons head rest =>
      rw [List.length_cons] at hlen
      refine climbs_cons hops (ih _ (by omega) hops.of_cons rfl) fun power => ?_
      have := g.weaker_length_le power rest
      exact ih _ (by omega) (hops.of_cons.weaker power) rfl

/-! ## The parser's answer -/

/-- A row of operators ends before the input does, so it is no longer than what the lexer has. -/
theorem Operates.length_le {ops : List (Token × Token)} (hops : g.Operates ops)
    (hx : x.kind = .semicolon ∨ g.power x.kind = .lowest) {s : State} {first : Token}
    (hs : s.Shows (first :: inRow ops ++ [x])) : 2 * ops.length ≤ s.lexer.tokens.length + 2 := by
  rcases List.eq_nil_or_concat ops with rfl | ⟨before, ⟨op, operand⟩, rfl⟩
  · simp
  · obtain ⟨-, hpos, -⟩ := hops (op, operand) (by simp)
    simp only [List.concat_eq_append, inRow_append] at hs
    have hlast : (s.skip (2 * before.length + 1)).Shows [op, operand, x] := by
      have : (first :: (inRow before ++ inRow [(op, operand)]) ++ [x]) =
          (first :: inRow before) ++ [op, operand, x] := by simp [inRow]
      rw [this] at hs
      simpa [inRow_length] using hs.append_right
    have hop : s.token (2 * before.length + 1) = op := by rw [← State.skip_current]; exact hlast.1
    have hend : s.token (2 * before.length + 3) = x := by
      have := hlast.2.2.1
      rwa [← State.skip_advance, ← State.skip_advance, State.skip_current] at this
    simp only [List.concat_eq_append, List.length_append, List.length_singleton]
    -- Otherwise the last operator and the token behind the row both are the end of the input.
    refine Nat.not_lt.1 fun hlong => ?_
    have h1 : op.kind = .eof := by rw [← hop]; exact State.token_eof (by omega)
    have h2 : x.kind = .eof := by rw [← hend]; exact State.token_eof (by omega)
    rw [h2] at hx
    rcases hx with hx | hx
    · cases hx
    · simp [h1, hx, Power.lt_iff] at hpos

/-- The last leaf of a row. -/
theorem inRow_last (first : Token) (ops : List (Token × Token)) (more : List Token) :
    (first :: inRow ops ++ more)[2 * ops.length]? = some ((ops.map Prod.snd).getLastD first) := by
  induction ops generalizing first with
  | nil => rfl
  | cons op ops ih =>
    have := ih op.2
    simp only [List.map_cons, List.getLastD_cons, ← this]
    rfl

end Grammar

/-- Where the current token and those behind it are leaves with binary operators between them, up to
a token `x` that is no operator, an expression is the one tree that joins the operators up to the
first that holds no tighter than `min`. It is parsed without a diagnostic, and the parser stops at
its last leaf. -/
theorem Parser.expr_joins {p : Parser} {first x : Token} {ops : List (Token × Token)} (min : Power)
    (hshows : p.state.Shows (first :: Grammar.inRow ops ++ [x]))
    (hfirst : (p.grammar.leaf? first).isSome) (hops : p.grammar.Operates ops)
    (hx : x.kind = .semicolon ∨ p.grammar.power x.kind = .lowest) :
    ∃ e s, p.expr min = some (.ok e, { p with state := s }) ∧
      s.diagnostics = p.state.diagnostics ∧
      s = p.state.skip (2 * (p.grammar.tighter min ops).length) ∧
      s.current = ((p.grammar.tighter min ops).map Prod.snd).getLastD first ∧
      p.grammar.Joins first (p.grammar.tighter min ops) e ∧
      ∀ e', p.grammar.Joins first (p.grammar.tighter min ops) e' → e' = e := by
  obtain ⟨leaf, hleaf⟩ := Option.isSome_iff_exists.1 hfirst
  have hnone := Grammar.leaf?_rootPower hleaf
  have hlen := hops.length_le hx hshows
  have hpending := p.state.lexer.tokens_length_le
  obtain ⟨n, hn⟩ : ∃ n, p.budget = n + 1 := ⟨p.budget - 1, by unfold budget; omega⟩
  obtain ⟨e, hclean, hjoins, -⟩ := Grammar.climbs hx hops n p.state min
    (by unfold budget at hn; omega) (.leaf hleaf) (by simp [hnone]) (by simp [hnone]) hshows.2
  rw [List.nil_append] at hjoins
  have hexpr := Grammar.expr_of_leaf (hshows.1.symm ▸ hleaf) hclean
  refine ⟨e, _, attempt_of_clean (by rw [hn]; exact hexpr), State.skip_diagnostics _ _, rfl, ?_,
    hjoins, fun e' h' => h'.unique hjoins⟩
  rw [State.skip_current]
  refine hshows.token ?_
  rw [p.grammar.inRow_split min]
  exact Grammar.inRow_last first _ _

/-- In `a = b - 2 = c` with `=` as an operator that holds loosest. -/
theorem expr_joins_assign :
    let p : Parser := ⟨Grammar.standard.withTail .assign .equality .binary,
      .ofLexer (.ofString "shell" "a = b - 2 = c;")⟩
    let first := p.state.token 0
    let ops := [(p.state.token 1, p.state.token 2), (p.state.token 3, p.state.token 4),
      (p.state.token 5, p.state.token 6)]
    ∃ e s, p.expr .lowest = some (.ok e, { p with state := s }) ∧ s.diagnostics = #[] ∧
      s.current.text = "c" ∧ p.grammar.Joins first ops e := by
  intro p first ops
  have hshows : p.state.Shows (first :: Grammar.inRow ops ++ [p.state.token 7]) :=
    ⟨rfl, rfl, rfl, rfl, rfl, rfl, rfl, rfl, trivial⟩
  have htighter : p.grammar.tighter .lowest ops = ops := by decide +kernel
  obtain ⟨e, s, hexpr, hclean, -, hlast, hjoins, -⟩ :=
    Parser.expr_joins .lowest hshows (by decide +kernel) (by decide +kernel) (by decide +kernel)
  rw [htighter] at hlast hjoins
  have htext : (((ops.map Prod.snd).getLastD first).text) = "c" := by decide +kernel
  exact ⟨e, s, hexpr, hclean, hlast ▸ htext, hjoins⟩

end ScriptFront
