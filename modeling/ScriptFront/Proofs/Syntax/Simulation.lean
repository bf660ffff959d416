import ScriptFront.Proofs.Syntax.Completeness

/-!
# Two runs in step

A `Simulation` relates the states of two runs of the standard grammar at three places: where a
construct starts, where the last token of one is current, and behind a statement, with its semicolon
if it has one. What the first run does without a diagnostic the second does too
(`Simulation.copies`), if the relations pass from each place to the next. The second may miss a
semicolon that the first has in front of it, as long as the token that it has there instead goes on
with nothing. A place knows how deep it is in braces, since that is what the end of the input can
cut short.
-/

namespace ScriptFront

open Parse Grammar

/-- What can stand behind a statement. -/
def Kind.behindStmt : List Kind := closeCurly :: eof :: ofStmt

/-- What can stand behind a statement that no semicolon ends. -/
def Kind.afresh : List Kind := behindStmt.filter (!·.goesOn)

theorem Kind.power_afresh {kind : Kind} (h : kind ∈ afresh) (min : Power) :
    standard.power kind ≤ min := by
  have hlowest : ∀ kind ∈ afresh, standard.power kind ≤ .lowest := by decide
  exact Nat.le_trans (hlowest kind h) (Power.lowest_le min)

structure Simulation where
  /-- The current token starts a construct, or ends a block. -/
  Enters : (depth : Nat) → State → State → Prop
  /-- The current token belongs to a construct, and what is ahead is still to be decided on. -/
  Leaves : (depth : Nat) → State → State → Prop
  /-- The current token is the last of a statement. -/
  Ends : (depth : Nat) → State → State → Prop
  current {d : Nat} {s s' : State} : Enters d s s' → s.current = s'.current
  leave {d : Nat} {s s' : State} : Enters d s s' →
    s.current.kind ∉ [.openCurly, .closeCurly, .semicolon] → Leaves d s s'
  openCurly {d : Nat} {s s' : State} : Enters d s s' → s.current.kind = .openCurly →
    Leaves (d + 1) s s'
  close {d : Nat} {s s' : State} : Enters (d + 1) s s' → Scope.block.endsAt s.current.kind →
    Leaves d s s'
  advance {d : Nat} {s s' : State} : Leaves d s s' → s.peek.kind ≠ .semicolon →
    Enters d s.advance s'.advance
  peek {d : Nat} {s s' : State} : Leaves d s s' → s'.peek.kind = s.peek.kind ∨
    s.peek.kind = .semicolon ∧ s'.peek.kind ∈ Kind.afresh
  semicolon {d : Nat} {s s' : State} : Leaves d s s' →
    Ends d (if s.peek.kind = .semicolon then s.advance else s)
      (if s'.peek.kind = .semicolon then s'.advance else s')
  next {d : Nat} {s s' : State} : Ends (d + 1) s s' → s.peek.kind ∈ Kind.behindStmt →
    Enters (d + 1) s.advance s'.advance

/-- Where `p` gives a value without a diagnostic `p'` gives it, too, from all states that `P`
relates, and `Q` relates the states where they stop. -/
def Parse.Copies {α : Type} (p p' : Parse α) (P Q : State → State → Prop) : Prop :=
  ∀ ⦃s t s' : State⦄ ⦃a : α⦄, p.Clean s a t → P s s' → ∃ t', p'.Clean s' a t' ∧ Q t t'

/-! ## First tokens -/

section
variable {n : Nat} {s t : State}

theorem run_expr_starts {min : Power} {e : Expr} (h : (standard.run n (.expr min)).Clean s e t) :
    s.current.kind ∈ Kind.ofExpr := by
  cases n with
  | zero => cases h.1
  | succ n =>
    obtain ⟨rule, hrule, -⟩ := clean_expr.1 h
    have hstarts : ∀ kind ∈ rule.starts, kind ∈ Kind.ofExpr := by cases rule <;> decide
    exact hstarts _ (standard_heads.1 hrule)

theorem run_stmt_starts {statement : Stmt} (h : (standard.run n .stmt).Clean s statement t) :
    s.current.kind ∈ Kind.ofStmt := by
  cases n with
  | zero => cases h.1
  | succ n =>
    have h := clean_stmt.1 h
    rw [standard_stmts] at h
    split at h
    · rename_i hlet
      rw [hlet]
      decide
    split at h
    · rename_i hret
      rw [hret]
      decide
    · obtain ⟨value, u, hvalue, -⟩ := clean_bare.1 h
      exact List.mem_cons_of_mem _ (List.mem_cons_of_mem _ (run_expr_starts hvalue))

theorem run_stmts_starts {scope : Scope} {body : List Stmt}
    (h : (standard.run n (.stmts scope)).Clean s body t) : s.current.kind ∈ Kind.behindStmt := by
  cases n with
  | zero => cases h.1
  | succ n =>
    have h := clean_stmts.1 h
    split at h
    · rename_i hend
      have hends : ∀ kind, scope.endsAt kind → kind ∈ Kind.behindStmt := by
        intro kind
        cases scope <;> cases kind <;> decide
      exact hends _ hend
    · obtain ⟨first, u, hfirst, -⟩ := h
      exact List.mem_cons_of_mem _ (List.mem_cons_of_mem _ (run_stmt_starts hfirst))

end

namespace Simulation

variable {R : Simulation} {d n : Nat} {s s' t : State} {kind : Kind}

/-! ## What is ahead -/

/-- Moves on to a mark. -/
theorem enter (h : R.Leaves d s s') (hk : s.peek.kind = kind) (hne : kind ≠ .semicolon) :
    s'.peek = s.peek ∧ R.Enters d s.advance s'.advance := by
  have henter := R.advance h (hk ▸ hne)
  exact ⟨(R.current henter).symm, henter⟩

/-- Moves on to a mark and behind it. -/
theorem pass (h : R.Leaves d s s') (hk : s.peek.kind = kind)
    (hkind : kind ∉ [.openCurly, .closeCurly, .semicolon]) :
    s'.peek = s.peek ∧ R.Leaves d s.advance s'.advance := by
  obtain ⟨hpeek, henter⟩ := enter h hk (by rintro rfl; simp at hkind)
  exact ⟨hpeek, R.leave henter (by rwa [State.current_advance, hk])⟩

theorem peek_ne (h : R.Leaves d s s') (hk : s.peek.kind ≠ kind) (hkind : kind ∉ Kind.afresh) :
    s'.peek.kind ≠ kind := by
  rcases R.peek h with heq | ⟨-, hafresh⟩
  · rwa [heq]
  · rintro rfl
    exact hkind hafresh

/-- Moves on to what starts an expression or a statement. -/
theorem start {kinds : List Kind} (h : R.Leaves d s s') (hk : s.peek.kind ∈ kinds)
    (hkinds : .semicolon ∉ kinds) : s'.peek = s.peek ∧ R.Enters d s.advance s'.advance :=
  enter h rfl fun hsemi => hkinds (hsemi ▸ hk)

/-- The second run does what the first does within a budget. -/
structure Copied (R : Simulation) (n : Nat) : Prop where
  expr (min : Power) (d : Nat) : Parse.Copies (standard.run n (.expr min))
    (standard.parses (.expr min)) (R.Enters d) (R.Leaves d)
  climb (min : Power) (left : Expr) (d : Nat) : Parse.Copies (standard.run n (.climb min left))
    (standard.parses (.climb min left)) (R.Leaves d) (R.Leaves d)
  elements (d : Nat) : Parse.Copies (standard.run n .elements) (standard.parses .elements)
    (R.Leaves d) (R.Leaves d)
  names (d : Nat) : Parse.Copies (standard.run n .names) (standard.parses .names)
    (R.Leaves d) (R.Leaves d)
  entries (d : Nat) : Parse.Copies (standard.run n .entries) (standard.parses .entries)
    (R.Leaves d) (R.Leaves d)
  stmt (d : Nat) : Parse.Copies (standard.run n .stmt) (standard.parses .stmt)
    (R.Enters d) (R.Ends d)
  stmts (scope : Scope) (d : Nat) : Parse.Copies (standard.run n (.stmts scope))
    (standard.parses (.stmts scope)) (R.Enters (d + 1))
    fun t t' => R.Enters (d + 1) t t' ∧ scope.endsAt t.current.kind

namespace Copied

/-! ## The parts of rules -/

/-- An expression behind the current token. -/
theorem operand (h : R.Copied n) {min : Power} {e : Expr}
    (he : (standard.run n (.expr min)).Clean s.advance e t) (hs : R.Leaves d s s') :
    s'.peek = s.peek ∧
      ∃ t', (standard.parses (.expr min)).Clean s'.advance e t' ∧ R.Leaves d t t' := by
  obtain ⟨hpeek, henter⟩ := start hs (run_expr_starts he) (by decide)
  exact ⟨hpeek, h.expr min d he henter⟩

theorem list (h : R.Copied n) {closing : Kind}
    (hc : closing ∉ [.openCurly, .closeCurly, .semicolon]) :
    Parse.Copies (parseList (standard.run n) closing) (parseList standard.parses closing)
      (R.Leaves d) (R.Leaves d) := by
  intro s t s' es hes hs
  rw [clean_list] at hes
  split at hes
  · rename_i hk
    obtain ⟨rfl, rfl⟩ := hes
    obtain ⟨hpeek, hleave⟩ := pass hs hk hc
    exact ⟨_, clean_list.2 (by simp [hpeek, hk]), hleave⟩
  · rename_i hk
    obtain ⟨first, u, hfirst, others, v, hothers, hlast, rfl, rfl⟩ := hes
    obtain ⟨hpeek, u', hfirst', hu⟩ := h.operand hfirst hs
    obtain ⟨v', hothers', hv⟩ := h.elements d hothers hu
    obtain ⟨hpeek', hleave⟩ := pass hv hlast hc
    refine ⟨_, clean_list.2 ?_, hleave⟩
    rw [hpeek, if_neg hk]
    exact ⟨first, u', hfirst', others, v', hothers', hpeek' ▸ hlast, rfl, rfl⟩

theorem parameters (h : R.Copied n) :
    Parse.Copies (parseParameters (standard.run n)) (parseParameters standard.parses)
      (R.Leaves d) (R.Leaves d) := by
  intro s t s' names hnames hs
  rw [clean_parameters] at hnames
  split at hnames
  · rename_i hk
    obtain ⟨rfl, rfl⟩ := hnames
    obtain ⟨hpeek, hleave⟩ := pass hs hk (by decide)
    exact ⟨_, clean_parameters.2 (by simp [hpeek, hk]), hleave⟩
  · rename_i hk
    obtain ⟨hfirst, others, u, hothers, hlast, rfl, rfl⟩ := hnames
    obtain ⟨hpeek, hfirst'⟩ := pass hs hfirst (by decide)
    obtain ⟨u', hothers', hu⟩ := h.names d hothers hfirst'
    obtain ⟨hpeek', hleave⟩ := pass hu hlast (by decide)
    refine ⟨_, clean_parameters.2 ?_, hleave⟩
    rw [hpeek, if_neg hk]
    exact ⟨hfirst, others, u', hothers', hpeek' ▸ hlast, rfl, rfl⟩

theorem block (h : R.Copied n) {b : Block} (hb : (parseBlock (standard.run n)).Clean s b t)
    (hk : s.current.kind = .openCurly) (hs : R.Enters d s s') :
    ∃ t', (parseBlock standard.parses).Clean s' b t' ∧ R.Leaves d t t' := by
  obtain ⟨body, hbody, rfl⟩ := clean_block.1 hb
  obtain ⟨-, henter⟩ := start (R.openCurly hs hk) (run_stmts_starts hbody) (by decide)
  obtain ⟨t', hbody', ht, hend⟩ := h.stmts .block d hbody henter
  exact ⟨t', clean_block.2 ⟨body, hbody', by rw [R.current hs]⟩, R.close ht hend⟩

theorem alternative (h : R.Copied n) :
    Parse.Copies (parseElse (standard.run n)) (parseElse standard.parses)
      (R.Leaves d) (R.Leaves d) := by
  intro s t s' b hb hs
  rw [clean_else] at hb
  split at hb
  · rename_i hk
    obtain ⟨hcurly, block, hblock, rfl⟩ := hb
    obtain ⟨hpeek, hleave⟩ := pass hs hk (by decide)
    obtain ⟨hpeek', henter⟩ := enter hleave hcurly (by decide)
    obtain ⟨t', hblock', ht⟩ := h.block hblock hcurly henter
    refine ⟨t', clean_else.2 ?_, ht⟩
    rw [hpeek, if_pos hk]
    exact ⟨hpeek' ▸ hcurly, block, hblock', rfl⟩
  · rename_i hk
    obtain ⟨rfl, rfl⟩ := hb
    exact ⟨s', clean_else.2 (by simp [peek_ne hs hk (by decide)]), hs⟩

/-! ## Operands -/

/-- What is made of the current token alone. -/
theorem leaf {rule : HeadRule} {e : Expr} (he : (rule.parse (standard.run n)).Clean s e t)
    (hrule : rule ∈ [.ident, .integer, .float, .boolean, .string]) (hs : s'.current = s.current) :
    s = t ∧ (rule.parse standard.parses).Clean s' e s' := by
  cases rule
  case ident =>
    obtain ⟨rfl, rfl⟩ := clean_ident.1 he
    exact ⟨rfl, clean_ident.2 ⟨by rw [hs], rfl⟩⟩
  case integer =>
    obtain ⟨value, hvalue, rfl, rfl⟩ := clean_integer.1 he
    exact ⟨rfl, clean_integer.2 ⟨value, by rw [hs, hvalue], by rw [hs], rfl⟩⟩
  case float =>
    obtain ⟨value, hvalue, rfl, rfl⟩ := clean_float.1 he
    exact ⟨rfl, clean_float.2 ⟨value, by rw [hs, hvalue], by rw [hs], rfl⟩⟩
  case boolean =>
    obtain ⟨rfl, rfl⟩ := clean_boolean.1 he
    exact ⟨rfl, clean_boolean.2 ⟨by rw [hs], rfl⟩⟩
  case string =>
    obtain ⟨rfl, rfl⟩ := clean_string.1 he
    exact ⟨rfl, clean_string.2 ⟨by rw [hs], rfl⟩⟩
  all_goals simp at hrule

theorem hash (h : R.Copied n) {e : Expr}
    (he : (HeadRule.hash.parse (standard.run n)).Clean s e t) (hk : s.current.kind = .openCurly)
    (hs : R.Enters d s s') :
    ∃ t', (HeadRule.hash.parse standard.parses).Clean s' e t' ∧ R.Leaves d t t' := by
  obtain ⟨pairs, u, hpairs, hlast, rfl, rfl⟩ := clean_hash.1 he
  obtain ⟨u', hpairs', hu⟩ := h.entries (d + 1) hpairs (R.openCurly hs hk)
  obtain ⟨hpeek, henter⟩ := enter hu hlast (by decide)
  refine ⟨u'.advance, clean_hash.2 ⟨pairs, u', hpairs', hpeek ▸ hlast, by rw [R.current hs], rfl⟩,
    R.close henter ?_⟩
  rw [State.current_advance, hlast]
  decide

theorem cond (h : R.Copied n) :
    Parse.Copies (HeadRule.cond.parse (standard.run n)) (HeadRule.cond.parse standard.parses)
      (fun s s' => s'.current = s.current ∧ R.Leaves d s s') (R.Leaves d) := by
  rintro s t s' e he ⟨hcurrent, hs⟩
  obtain ⟨hopening, condition, u, hcondition, hclosing, hcurly, consequence, v, hconsequence,
    alternative, halternative, rfl⟩ := clean_cond.1 he
  obtain ⟨hpeek, hs⟩ := pass hs hopening (by decide)
  obtain ⟨-, u', hcondition', hu⟩ := h.operand hcondition hs
  obtain ⟨hpeek₁, hu⟩ := pass hu hclosing (by decide)
  obtain ⟨hpeek₂, henter⟩ := enter hu hcurly (by decide)
  obtain ⟨v', hconsequence', hv⟩ := h.block hconsequence hcurly henter
  obtain ⟨t', halternative', ht⟩ := h.alternative halternative hv
  exact ⟨t', clean_cond.2 ⟨hpeek ▸ hopening, condition, u', hcondition', hpeek₁ ▸ hclosing,
    hpeek₂ ▸ hcurly, consequence, v', hconsequence', alternative, halternative', by rw [hcurrent]⟩,
    ht⟩

theorem function (h : R.Copied n) :
    Parse.Copies (HeadRule.function.parse (standard.run n))
      (HeadRule.function.parse standard.parses)
      (fun s s' => s'.current = s.current ∧ R.Leaves d s s') (R.Leaves d) := by
  rintro s t s' e he ⟨hcurrent, hs⟩
  obtain ⟨hopening, parameters, u, hparameters, hcurly, body, hbody, rfl⟩ := clean_function.1 he
  obtain ⟨hpeek, hs⟩ := pass hs hopening (by decide)
  obtain ⟨u', hparameters', hu⟩ := h.parameters hparameters hs
  obtain ⟨hpeek₁, henter⟩ := enter hu hcurly (by decide)
  obtain ⟨t', hbody', ht⟩ := h.block hbody hcurly henter
  exact ⟨t', clean_function.2 ⟨hpeek ▸ hopening, parameters, u', hparameters', hpeek₁ ▸ hcurly,
    body, hbody', by rw [hcurrent]⟩, ht⟩

theorem head (h : R.Copied n) {rule : HeadRule} {e : Expr} (hk : s.current.kind ∈ rule.starts)
    (he : (rule.parse (standard.run n)).Clean s e t) (hs : R.Enters d s s') :
    ∃ t', (rule.parse standard.parses).Clean s' e t' ∧ R.Leaves d t t' := by
  have hcurrent : s'.current = s.current := (R.current hs).symm
  by_cases hhash : rule = .hash
  · subst hhash
    exact h.hash he (List.mem_singleton.1 hk) hs
  have hleave : R.Leaves d s s' := by
    have hplain : ∀ kind ∈ rule.starts, kind ∉ [Kind.openCurly, .closeCurly, .semicolon] := by
      cases rule <;> first | decide | exact (hhash rfl).elim
    exact R.leave hs (hplain _ hk)
  cases rule
  case hash => exact (hhash rfl).elim
  case ident | integer | float | boolean | string =>
    obtain ⟨rfl, he'⟩ := leaf he (by decide) hcurrent
    exact ⟨s', he', hleave⟩
  case unary =>
    obtain ⟨right, hright, rfl⟩ := clean_unary.1 he
    obtain ⟨-, t', hright', ht⟩ := h.operand hright hleave
    exact ⟨t', clean_unary.2 ⟨right, hright', by rw [hcurrent]⟩, ht⟩
  case group =>
    obtain ⟨u, hinner, hlast, rfl⟩ := clean_group.1 he
    obtain ⟨-, u', hinner', hu⟩ := h.operand hinner hleave
    obtain ⟨hpeek, hu⟩ := pass hu hlast (by decide)
    exact ⟨_, clean_group.2 ⟨u', hinner', hpeek ▸ hlast, rfl⟩, hu⟩
  case cond => exact h.cond he ⟨hcurrent, hleave⟩
  case function => exact h.function he ⟨hcurrent, hleave⟩
  case array =>
    obtain ⟨elements, helements, rfl⟩ := clean_array.1 he
    obtain ⟨t', helements', ht⟩ := h.list (by decide) helements hleave
    exact ⟨t', clean_array.2 ⟨elements, helements', by rw [hcurrent]⟩, ht⟩

theorem tail (h : R.Copied n) {left e : Expr} {power : Power} {rule : TailRule}
    (hcurrent : s'.current = s.current)
    (he : (rule.parse (standard.run n) left power).Clean s e t) (hs : R.Leaves d s s') :
    ∃ t', (rule.parse standard.parses left power).Clean s' e t' ∧ R.Leaves d t t' := by
  cases rule with
  | binary =>
    obtain ⟨right, hright, rfl⟩ := clean_binary.1 he
    obtain ⟨-, t', hright', ht⟩ := h.operand hright hs
    exact ⟨t', clean_binary.2 ⟨right, hright', by rw [hcurrent]⟩, ht⟩
  | call =>
    obtain ⟨arguments, harguments, rfl⟩ := clean_call.1 he
    obtain ⟨t', harguments', ht⟩ := h.list (by decide) harguments hs
    exact ⟨t', clean_call.2 ⟨arguments, harguments', by rw [hcurrent]⟩, ht⟩
  | index =>
    obtain ⟨index, u, hindex, hlast, rfl, rfl⟩ := clean_index.1 he
    obtain ⟨-, u', hindex', hu⟩ := h.operand hindex hs
    obtain ⟨hpeek, hu⟩ := pass hu hlast (by decide)
    exact ⟨_, clean_index.2 ⟨index, u', hindex', hpeek ▸ hlast, by rw [hcurrent], rfl⟩, hu⟩

/-! ## One layer -/

theorem climb_layer (h : R.Copied n) (min : Power) (left : Expr) :
    Parse.Copies (standard.run (n + 1) (.climb min left)) (standard.parses (.climb min left))
      (R.Leaves d) (R.Leaves d) := by
  intro s t s' e he hs
  rcases clean_climb.1 he with
    ⟨power, rule, hrule, hsemi, hlt, grown, u, hgrown, he⟩ | ⟨hstop, rfl, rfl⟩
  · have hplain : s.peek.kind ∉ [.openCurly, .closeCurly, .semicolon] := by
      intro hk
      simp only [List.mem_cons, List.not_mem_nil, or_false] at hk
      rcases hk with hk | hk | hk <;> rw [hk] at hrule <;> cases hrule
    obtain ⟨hpeek, hleave⟩ := pass hs rfl hplain
    obtain ⟨u', hgrown', hu⟩ := h.tail hpeek hgrown hleave
    obtain ⟨t', he', ht⟩ := h.climb min grown d he hu
    refine ⟨t', clean_parses.2 (clean_climb.2 (.inl ?_)), ht⟩
    rw [hpeek]
    exact ⟨power, rule, hrule, hsemi, hlt, grown, u', hgrown', he'⟩
  · refine ⟨s', clean_parses.2 (clean_climb.2 (.inr ⟨?_, rfl, rfl⟩)), hs⟩
    rcases R.peek hs with heq | ⟨-, hafresh⟩
    · rwa [heq]
    · exact .inr (Kind.power_afresh hafresh min)

theorem entries_layer (h : R.Copied n) :
    Parse.Copies (standard.run (n + 1) .entries) (standard.parses .entries)
      (R.Leaves d) (R.Leaves d) := by
  intro s t s' pairs hpairs hs
  have hpairs := clean_entries.1 hpairs
  split at hpairs
  · rename_i hk
    obtain ⟨rfl, rfl⟩ := hpairs
    obtain ⟨hpeek, -⟩ := enter hs hk (by decide)
    exact ⟨s', clean_parses.2 (clean_entries.2 (by simp [hpeek, hk])), hs⟩
  · rename_i hk
    obtain ⟨key, u, hkey, hcolon, value, v, hvalue, hpairs⟩ := hpairs
    obtain ⟨hpeek, u', hkey', hu⟩ := h.operand hkey hs
    obtain ⟨hpeek₁, hu⟩ := pass hu hcolon (by decide)
    obtain ⟨-, v', hvalue', hv⟩ := h.operand hvalue hu
    rcases hpairs with ⟨hlast, others, hothers, rfl⟩ | ⟨hcomma, others, hothers, rfl⟩
    · obtain ⟨hpeek₂, -⟩ := enter hv hlast (by decide)
      obtain ⟨t', hothers', ht⟩ := h.entries d hothers hv
      refine ⟨t', clean_parses.2 (clean_entries.2 ?_), ht⟩
      rw [hpeek, if_neg hk]
      exact ⟨key, u', hkey', hpeek₁ ▸ hcolon, value, v', hvalue',
        .inl ⟨hpeek₂ ▸ hlast, others, hothers', rfl⟩⟩
    · obtain ⟨hpeek₂, hv⟩ := pass hv hcomma (by decide)
      obtain ⟨t', hothers', ht⟩ := h.entries d hothers hv
      refine ⟨t', clean_parses.2 (clean_entries.2 ?_), ht⟩
      rw [hpeek, if_neg hk]
      exact ⟨key, u', hkey', hpeek₁ ▸ hcolon, value, v', hvalue',
        .inr ⟨hpeek₂ ▸ hcomma, others, hothers', rfl⟩⟩

theorem stmt_layer (h : R.Copied n) :
    Parse.Copies (standard.run (n + 1) .stmt) (standard.parses .stmt) (R.Enters d) (R.Ends d) := by
  intro s t s' statement hp hs
  have hcurrent : s'.current = s.current := (R.current hs).symm
  have hp := clean_stmt.1 hp
  have hgoal (t' : State) : (standard.parses .stmt).Clean s' statement t' ↔ (((standard.stmts
      s.current.kind).getD .bare).parse standard.parses).Clean s' statement t' := by
    rw [clean_parses, clean_stmt, hcurrent]
  simp only [hgoal]
  rw [standard_stmts] at hp ⊢
  split at hp
  · rename_i hlet
    obtain ⟨hname, hassign, value, u, hvalue, rfl, rfl⟩ := clean_binding.1 hp
    have hleave := R.leave hs (by rw [hlet]; decide)
    obtain ⟨hpeek, hleave⟩ := pass hleave hname (by decide)
    obtain ⟨hpeek₁, hleave⟩ := pass hleave hassign (by decide)
    obtain ⟨-, u', hvalue', hu⟩ := h.operand hvalue hleave
    rw [if_pos hlet]
    exact ⟨_, clean_binding.2 ⟨hpeek ▸ hname, hpeek₁ ▸ hassign, value, u', hvalue',
      by rw [hcurrent, hpeek], rfl⟩, R.semicolon hu⟩
  · rename_i hlet
    rw [if_neg hlet]
    split at hp
    · rename_i hret
      obtain ⟨value, u, hvalue, rfl, rfl⟩ := clean_ret.1 hp
      obtain ⟨-, u', hvalue', hu⟩ := h.operand hvalue (R.leave hs (by rw [hret]; decide))
      rw [if_pos hret]
      exact ⟨_, clean_ret.2 ⟨value, u', hvalue', by rw [hcurrent], rfl⟩, R.semicolon hu⟩
    · rename_i hret
      obtain ⟨value, u, hvalue, rfl, rfl⟩ := clean_bare.1 hp
      obtain ⟨u', hvalue', hu⟩ := h.expr .lowest d hvalue hs
      rw [if_neg hret]
      exact ⟨_, clean_bare.2 ⟨value, u', hvalue', by rw [hcurrent], rfl⟩, R.semicolon hu⟩

theorem stmts_layer (h : R.Copied n) (scope : Scope) :
    Parse.Copies (standard.run (n + 1) (.stmts scope)) (standard.parses (.stmts scope))
      (R.Enters (d + 1)) fun t t' => R.Enters (d + 1) t t' ∧ scope.endsAt t.current.kind := by
  intro s t s' body hbody hs
  have hcurrent : s'.current = s.current := (R.current hs).symm
  have hbody := clean_stmts.1 hbody
  split at hbody
  · rename_i hend
    obtain ⟨rfl, rfl⟩ := hbody
    exact ⟨s', clean_parses.2 (clean_stmts.2 (by simp [hcurrent, hend])), hs, hend⟩
  · rename_i hend
    obtain ⟨first, u, hfirst, others, hothers, rfl⟩ := hbody
    obtain ⟨u', hfirst', hu⟩ := h.stmt (d + 1) hfirst hs
    obtain ⟨t', hothers', ht⟩ := h.stmts scope d hothers (R.next hu (run_stmts_starts hothers))
    refine ⟨t', clean_parses.2 (clean_stmts.2 ?_), ht⟩
    rw [hcurrent, if_neg hend]
    exact ⟨first, u', hfirst', others, hothers', rfl⟩

theorem layer (h : R.Copied n) : R.Copied (n + 1) where
  expr min d := by
    intro s t s' e he hs
    obtain ⟨rule, hrule, left, u, hleft, he⟩ := clean_expr.1 he
    obtain ⟨u', hleft', hu⟩ := h.head (standard_heads.1 hrule) hleft hs
    obtain ⟨t', he', ht⟩ := h.climb min left d he hu
    refine ⟨t', clean_parses.2 (clean_expr.2 ⟨rule, ?_, left, u', hleft', he'⟩), ht⟩
    rwa [← R.current hs]
  climb min left d := h.climb_layer min left
  elements d := by
    intro s t s' es hes hs
    have hes := clean_elements.1 hes
    split at hes
    · rename_i hcomma
      obtain ⟨first, u, hfirst, others, hothers, rfl⟩ := hes
      obtain ⟨hpeek, hleave⟩ := pass hs hcomma (by decide)
      obtain ⟨-, u', hfirst', hu⟩ := h.operand hfirst hleave
      obtain ⟨t', hothers', ht⟩ := h.elements d hothers hu
      refine ⟨t', clean_parses.2 (clean_elements.2 ?_), ht⟩
      rw [hpeek, if_pos hcomma]
      exact ⟨first, u', hfirst', others, hothers', rfl⟩
    · rename_i hcomma
      obtain ⟨rfl, rfl⟩ := hes
      have hne := peek_ne hs hcomma (by decide)
      exact ⟨s', clean_parses.2 (clean_elements.2 (by simp [hne])), hs⟩
  names d := by
    intro s t s' names hnames hs
    have hnames := clean_names.1 hnames
    split at hnames
    · rename_i hcomma
      obtain ⟨hfirst, others, hothers, rfl⟩ := hnames
      obtain ⟨hpeek, hleave⟩ := pass hs hcomma (by decide)
      obtain ⟨hpeek₁, hleave⟩ := pass hleave hfirst (by decide)
      obtain ⟨t', hothers', ht⟩ := h.names d hothers hleave
      refine ⟨t', clean_parses.2 (clean_names.2 ?_), ht⟩
      rw [hpeek, if_pos hcomma, hpeek₁]
      exact ⟨hfirst, others, hothers', rfl⟩
    · rename_i hcomma
      obtain ⟨rfl, rfl⟩ := hnames
      have hne := peek_ne hs hcomma (by decide)
      exact ⟨s', clean_parses.2 (clean_names.2 (by simp [hne])), hs⟩
  entries d := h.entries_layer
  stmt d := h.stmt_layer
  stmts scope d := h.stmts_layer scope

end Copied

/-- What the first run does without a diagnostic, within whatever budget, the second does. -/
theorem copied (R : Simulation) (n : Nat) : R.Copied n := by
  induction n with
  | zero =>
    have none {α : Type} {goal : Goal α} {P Q : State → State → Prop} :
        Parse.Copies (standard.run 0 goal) (standard.parses goal) P Q := by
      rintro s t s' a ⟨h, -⟩
      cases h
    exact ⟨fun _ _ => none, fun _ _ _ => none, fun _ => none, fun _ => none, fun _ => none,
      fun _ => none, fun _ _ => none⟩
  | succ n ih => exact ih.layer

end Simulation

end ScriptFront
