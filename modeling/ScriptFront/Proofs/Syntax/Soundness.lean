import ScriptFront.Proofs.Parser.Budget
import ScriptFront.Proofs.Parser.Rules
import ScriptFront.Proofs.Syntax.Standard

/-!
# What is parsed without a diagnostic is in the syntax

Every rule of the standard grammar that records nothing has read a phrase, and its result is the
tree of that phrase. An expression that is parsed for `min` has a level tighter than `min`, and what
is behind it holds no tighter than `min`.
-/

namespace ScriptFront

open Parse

theorem Derives.lift_le {p q : Power} {ts rest : List Token} {e : Expr}
    (h : Derives (.level q) ts e rest) (hle : p ≤ q) : Derives (.level p) ts e rest := by
  rcases Nat.lt_or_eq_of_le hle with hlt | heq
  · exact .lift hlt h
  · rw [Power.rank_injective heq]
    exact h

/-- What is parsed of an expression for `min`: `e` has a level to which the operator behind it could
lift it. -/
def Grown (min : Power) (ts : List Token) (e : Expr) (rest : List Token) : Prop :=
  ∃ p, p ≠ .call ∧ (min < p ∨ p = .unary) ∧ Loose p rest ∧ Derives (.level p) ts e rest

theorem Grown.of_index {min : Power} {ts rest : List Token} {e : Expr} (hmin : min ≤ .unary)
    (h : Derives (.level .index) ts e rest) : Grown min ts e rest :=
  ⟨.index, by decide, .inl (Nat.lt_of_le_of_lt hmin (by decide)), loose_index rest, h⟩

theorem Grown.primary {min : Power} {ts rest : List Token} {e : Expr} (hmin : min ≤ .unary)
    (h : Derives .primary ts e rest) : Grown min ts e rest := .of_index hmin (.primary h)

theorem Grown.expr {ts rest : List Token} {e : Expr} (h : Grown .lowest ts e rest) :
    Derives .expr ts e rest := by
  obtain ⟨p, -, hp, -, h⟩ := h
  refine h.lift_le ?_
  rcases hp with hp | rfl
  · exact hp
  · decide

/-- What a parser gives from the token before its phrase. -/
def Parse.Sound (φ : Phrase) (p : Parse φ.Tree) : Prop :=
  ∀ ⦃s t : State⦄ ⦃ts : List Token⦄ ⦃a : φ.Tree⦄, s.Ahead ts → p.Clean s a t →
    ∃ rest, Derives φ ts a rest ∧ t.Ahead rest

structure Parses.Sound (parses : Parses) : Prop where
  expr {min : Power} {s t : State} {ts : List Token} {e : Expr} : min ≤ .unary → s.Reads ts →
    (parses (.expr min)).Clean s e t → ∃ rest, Grown min ts e rest ∧ Loose min rest ∧ t.Ahead rest
  climb {min : Power} {s t : State} {ts mid : List Token} {left e : Expr} : min ≤ .unary →
    Grown min ts left mid → s.Ahead mid → (parses (.climb min left)).Clean s e t →
    ∃ rest, Grown min ts e rest ∧ Loose min rest ∧ t.Ahead rest
  elements : Parse.Sound .elements (parses .elements)
  names : Parse.Sound .names (parses .names)
  entries : Parse.Sound .entries (parses .entries)
  noEntry {s t : State} {pairs : List (Expr × Expr)} : s.peek.kind = .closeCurly →
    (parses .entries).Clean s pairs t → pairs = [] ∧ s = t
  stmt {s t : State} {ts : List Token} {statement : Stmt} : s.Ahead ts → s.current.kind ≠ .eof →
    (parses .stmt).Clean s statement t →
    ∃ rest, Derives .stmt (s.current :: ts) statement rest ∧ t.Ahead rest
  stmts {scope : Scope} {s t : State} {ts : List Token} {body : List Stmt} : s.Reads ts →
    (parses (.stmts scope)).Clean s body t →
    ∃ rest, Derives .stmts ts body rest ∧ t.Reads rest ∧ scope.endsAt t.current.kind

namespace Parses.Sound

variable {self : Parses}

theorem lowest (h : self.Sound) {s t : State} {ts : List Token} {e : Expr} (hs : s.Reads ts)
    (he : (self (.expr .lowest)).Clean s e t) :
    ∃ rest, Derives .expr ts e rest ∧ Loose .lowest rest ∧ t.Ahead rest := by
  obtain ⟨rest, he, hloose, ht⟩ := h.expr (by decide) hs he
  exact ⟨rest, he.expr, hloose, ht⟩

variable [∀ {α : Type} (goal : Goal α), (self goal).Forward]

/-! ## The parts of rules -/

theorem list (h : self.Sound) {closing : Kind} (hc : closing ≠ .eof) :
    Parse.Sound (.list closing) (parseList self closing) := by
  intro s t ts es hs hes
  rw [clean_list] at hes
  split at hes
  · rename_i hk
    obtain ⟨rfl, rfl⟩ := hes
    obtain ⟨rest, rfl, hrest⟩ := hs.of_peek hk hc
    exact ⟨rest, .noList hk, hrest⟩
  · obtain ⟨first, u, hfirst, others, v, hothers, hk, rfl, rfl⟩ := hes
    obtain ⟨mid, hfirst, -, hu⟩ := h.lowest hs hfirst
    obtain ⟨last, hothers, hv⟩ := h.elements hu hothers
    obtain ⟨rest, rfl, hrest⟩ := hv.of_peek hk hc
    exact ⟨rest, .list hk hfirst hothers, hrest⟩

theorem parameters (h : self.Sound) : Parse.Sound .parameters (parseParameters self) := by
  intro s t ts names hs hnames
  rw [clean_parameters] at hnames
  split at hnames
  · rename_i hk
    obtain ⟨rfl, rfl⟩ := hnames
    obtain ⟨rest, rfl, hrest⟩ := hs.of_peek hk (by simp)
    exact ⟨rest, .noParameter hk, hrest⟩
  · obtain ⟨hfirst, others, u, hothers, hk, rfl, rfl⟩ := hnames
    obtain ⟨mid, rfl, hmid⟩ := hs.of_peek hfirst (by simp)
    obtain ⟨last, hothers, hu⟩ := h.names hmid hothers
    obtain ⟨rest, rfl, hrest⟩ := hu.of_peek hk (by simp)
    exact ⟨rest, .parameters hfirst hk hothers, hrest⟩

theorem block (h : self.Sound) {s t : State} {ts : List Token} {b : Block} (hs : s.Reads ts)
    (hk : s.current.kind = .openCurly) (hb : (parseBlock self).Clean s b t) :
    ∃ rest, Derives .block ts b rest ∧ t.Ahead rest := by
  obtain ⟨body, hbody, rfl⟩ := clean_block.1 hb
  obtain ⟨mid, rfl, hmid⟩ := hs.of_current (by simp [hk])
  obtain ⟨last, hbody, ht, hends⟩ := h.stmts hmid hbody
  by_cases hend : t.current.kind = .eof
  · obtain rfl := ht.eq_nil hend
    exact ⟨[], .openBlock hk hbody, ht.advance⟩
  · obtain ⟨rest, rfl, hrest⟩ := ht.of_current hend
    simp only [Scope.endsAt, hend, decide_false, Bool.or_false, decide_eq_true_eq] at hends
    exact ⟨rest, .block hk hends hbody, hrest⟩

theorem alternative (h : self.Sound) : Parse.Sound .alternative (parseElse self) := by
  intro s t ts b hs hb
  rw [clean_else] at hb
  split at hb
  · rename_i hk
    obtain ⟨hcurly, b, hblock, rfl⟩ := hb
    obtain ⟨mid, rfl, hmid⟩ := hs.of_peek hk (by simp)
    obtain ⟨rest, hblock, hrest⟩ := h.block hmid hcurly hblock
    exact ⟨rest, .alternative hk hblock, hrest⟩
  · obtain ⟨rfl, rfl⟩ := hb
    exact ⟨ts, .noAlternative, hs⟩

/-! ## Operands -/

theorem unary (h : self.Sound) {s t : State} {ts : List Token} {e : Expr} {min : Power}
    (hs : s.Ahead ts) (hk : s.current.kind = .bang ∨ s.current.kind = .dash)
    (he : (HeadRule.unary.parse self).Clean s e t) :
    ∃ rest, Grown min (s.current :: ts) e rest ∧ t.Ahead rest := by
  obtain ⟨right, hright, rfl⟩ := clean_unary.1 he
  obtain ⟨rest, ⟨p, -, hp, -, hright⟩, hloose, hrest⟩ := h.expr (Nat.le_refl _) hs hright
  have hle : Power.unary ≤ p := by
    rcases hp with hp | rfl
    · exact Nat.le_of_lt hp
    · exact Nat.le_refl _
  exact ⟨rest, ⟨.unary, by decide, .inr rfl, hloose, .unary hk (hright.lift_le hle)⟩, hrest⟩

/-- All that starts an expression but a unary operator. -/
theorem primary (h : self.Sound) {rule : HeadRule} {s t : State} {ts : List Token} {e : Expr}
    (hs : s.Ahead ts) (hk : s.current.kind ∈ rule.starts) (hrule : rule ≠ .unary)
    (he : (rule.parse self).Clean s e t) :
    ∃ rest, Derives .primary (s.current :: ts) e rest ∧ t.Ahead rest := by
  cases rule <;> simp only [HeadRule.starts, List.mem_cons, List.not_mem_nil, or_false] at hk
  case unary => exact (hrule rfl).elim
  case ident =>
    obtain ⟨rfl, rfl⟩ := clean_ident.1 he
    exact ⟨ts, .ident hk, hs⟩
  case integer =>
    obtain ⟨value, hvalue, rfl, rfl⟩ := clean_integer.1 he
    exact ⟨ts, .integer hk hvalue, hs⟩
  case float =>
    obtain ⟨value, hvalue, rfl, rfl⟩ := clean_float.1 he
    have : value = s.current.decimal := by simp [Token.decimal, hvalue]
    exact ⟨ts, this ▸ .float hk, hs⟩
  case string =>
    obtain ⟨rfl, rfl⟩ := clean_string.1 he
    exact ⟨ts, .string hk, hs⟩
  case boolean =>
    obtain ⟨rfl, rfl⟩ := clean_boolean.1 he
    rcases hk with hk | hk
    · exact ⟨ts, by simpa [hk] using .trueWord hk, hs⟩
    · exact ⟨ts, by simpa [hk] using .falseWord hk, hs⟩
  case group =>
    obtain ⟨u, hinner, hclosing, rfl⟩ := clean_group.1 he
    obtain ⟨last, hinner, -, hu⟩ := h.lowest hs hinner
    obtain ⟨rest, rfl, hrest⟩ := hu.of_peek hclosing (by simp)
    exact ⟨rest, .group hk hclosing hinner, hrest⟩
  case cond =>
    obtain ⟨hopening, condition, u, hcondition, hclosing, hcurly, consequence, v, hconsequence,
      alternative, halternative, rfl⟩ := clean_cond.1 he
    obtain ⟨ts, rfl, hts⟩ := hs.of_peek hopening (by simp)
    obtain ⟨last, hcondition, -, hu⟩ := h.lowest hts hcondition
    obtain ⟨mid, rfl, hmid⟩ := hu.of_peek hclosing (by simp)
    obtain ⟨behind, hconsequence, hv⟩ := h.block hmid hcurly hconsequence
    obtain ⟨rest, halternative, hrest⟩ := h.alternative hv halternative
    exact ⟨rest, .cond hk hopening hclosing hcondition hconsequence halternative, hrest⟩
  case function =>
    obtain ⟨hopening, parameters, u, hparameters, hcurly, body, hbody, rfl⟩ := clean_function.1 he
    obtain ⟨ts, rfl, hts⟩ := hs.of_peek hopening (by simp)
    obtain ⟨mid, hparameters, hu⟩ := h.parameters hts hparameters
    obtain ⟨rest, hbody, hrest⟩ := h.block hu hcurly hbody
    exact ⟨rest, .function hk hopening hparameters hbody, hrest⟩
  case array =>
    obtain ⟨elements, helements, rfl⟩ := clean_array.1 he
    obtain ⟨rest, helements, hrest⟩ := h.list (by decide) hs helements
    exact ⟨rest, .array hk helements, hrest⟩
  case hash =>
    obtain ⟨pairs, u, hpairs, hclosing, rfl, rfl⟩ := clean_hash.1 he
    obtain ⟨last, hpairs, hu⟩ := h.entries hs hpairs
    obtain ⟨rest, rfl, hrest⟩ := hu.of_peek hclosing (by simp)
    exact ⟨rest, .hash hk hclosing hpairs, hrest⟩

theorem head (h : self.Sound) {rule : HeadRule} {min : Power} {s t : State} {ts : List Token}
    {e : Expr} (hmin : min ≤ .unary) (hs : s.Ahead ts) (hk : s.current.kind ∈ rule.starts)
    (he : (rule.parse self).Clean s e t) :
    ∃ rest, Grown min (s.current :: ts) e rest ∧ t.Ahead rest := by
  by_cases hrule : rule = .unary
  · subst hrule
    exact h.unary hs (by simpa [HeadRule.starts] using hk) he
  · obtain ⟨rest, he, hrest⟩ := h.primary hs hk hrule he
    exact ⟨rest, .primary hmin he, hrest⟩

theorem tail (h : self.Sound) {min power : Power} {rule : TailRule} {s t : State}
    {ts mid : List Token} {left e : Expr} (hmin : min < power) (hunary : min ≤ .unary)
    (hleft : Grown min ts left (s.current :: mid)) (hs : s.Ahead mid)
    (hk : Grammar.standard.tails s.current.kind = some (power, rule))
    (he : (rule.parse self left power).Clean s e t) :
    ∃ rest, Grown min ts e rest ∧ t.Ahead rest := by
  obtain ⟨p, hp, -, hloose, hleft⟩ := hleft
  have hle : power ≤ p := by
    have := hloose s.current rfl
    rwa [Grammar.power_of_some hk] at this
  -- There is no level between those of calls and of indices.
  have hindex (hcall : .call ≤ power) : Derives (.level .index) ts left (s.current :: mid) := by
    have := Nat.le_trans hcall hle
    cases p <;> first | exact hleft | exact (hp rfl).elim | exact absurd this (by decide)
  cases rule with
  | binary =>
    obtain ⟨hop, hpower⟩ := Grammar.standard_binary hk
    obtain ⟨right, hright, rfl⟩ := clean_binary.1 he
    obtain ⟨rest, ⟨q, -, hq, -, hright⟩, hbehind, hrest⟩ := h.expr (Nat.le_of_lt hpower) hs hright
    have hq : power < q := by
      rcases hq with hq | rfl
      · exact hq
      · exact hpower
    refine ⟨rest, ⟨power, ?_, .inl hmin, hbehind, .binary hop hq (hleft.lift_le hle) hright⟩, hrest⟩
    rintro rfl
    exact absurd hpower (by decide)
  | call =>
    obtain ⟨hopening, rfl⟩ := Grammar.standard_call hk
    obtain ⟨arguments, harguments, rfl⟩ := clean_call.1 he
    obtain ⟨rest, harguments, hrest⟩ := h.list (by decide) hs harguments
    exact ⟨rest, .of_index hunary (.call hopening (hindex (by decide)) harguments), hrest⟩
  | index =>
    obtain ⟨hopening, rfl⟩ := Grammar.standard_index hk
    obtain ⟨index, u, hinner, hclosing, rfl, rfl⟩ := clean_index.1 he
    obtain ⟨last, hinner, -, hu⟩ := h.lowest hs hinner
    obtain ⟨rest, rfl, hrest⟩ := hu.of_peek hclosing (by simp)
    exact ⟨rest, .of_index hunary (.index hopening hclosing (hindex (by decide)) hinner), hrest⟩

/-! ## One layer -/

theorem climb_layer (h : self.Sound) {min : Power} {s t : State} {ts mid : List Token}
    {left e : Expr} (hmin : min ≤ .unary) (hleft : Grown min ts left mid) (hs : s.Ahead mid)
    (he : (Grammar.standard.layer self (.climb min left)).Clean s e t) :
    ∃ rest, Grown min ts e rest ∧ Loose min rest ∧ t.Ahead rest := by
  rcases clean_climb.1 he with
    ⟨power, rule, hrule, -, hlt, grown, u, hgrown, he⟩ | ⟨hstop, rfl, rfl⟩
  · obtain ⟨mid, rfl, hmid⟩ := State.Reads.of_current (s := s.advance) hs fun hend => by
      rw [State.current_advance] at hend
      rw [hend] at hrule
      cases hrule
    obtain ⟨last, hgrown, hu⟩ := h.tail (s := s.advance) hlt hmin hleft hmid hrule hgrown
    exact h.climb hmin hgrown hu he
  · refine ⟨mid, hleft, (loose_iff_peek hs).2 ?_, hs⟩
    rcases hstop with hsemi | hle
    · rw [hsemi]
      exact Power.lowest_le _
    · exact hle

theorem entries_layer (h : self.Sound) :
    Parse.Sound .entries (Grammar.standard.layer self .entries) := by
  intro s t ts pairs hs hpairs
  rw [clean_entries] at hpairs
  split at hpairs
  · obtain ⟨rfl, rfl⟩ := hpairs
    exact ⟨ts, .noEntry, hs⟩
  · obtain ⟨key, u, hkey, hcolon, value, v, hvalue, hpairs⟩ := hpairs
    obtain ⟨mid, hkey, -, hu⟩ := h.lowest hs hkey
    obtain ⟨mid, rfl, hmid⟩ := hu.of_peek hcolon (by simp)
    obtain ⟨behind, hvalue, -, hv⟩ := h.lowest hmid hvalue
    rcases hpairs with ⟨hcurly, others, hothers, rfl⟩ | ⟨hcomma, others, hothers, rfl⟩
    · obtain ⟨rfl, rfl⟩ := h.noEntry hcurly hothers
      exact ⟨behind, .lastEntry hcolon hkey hvalue, hv⟩
    · obtain ⟨more, rfl, hmore⟩ := hv.of_peek hcomma (by simp)
      obtain ⟨rest, hothers, hrest⟩ := h.entries hmore hothers
      exact ⟨rest, .entry hcolon hcomma hkey hvalue hothers, hrest⟩

/-- Behind a clause the semicolon is taken if there is one, and it is there where it has to be. -/
theorem semicolon {s : State} {ts rest : List Token} {statement : Stmt}
    (h : Derives .clause ts statement rest) (hloose : Loose .lowest rest) (hs : s.Ahead rest) :
    ∃ behind, Derives .stmt ts statement behind ∧
      (if s.peek.kind = .semicolon then s.advance else s).Ahead behind := by
  split
  · rename_i hk
    obtain ⟨rest, rfl, hrest⟩ := hs.of_peek hk (by simp)
    exact ⟨rest, .closed hk h, hrest⟩
  · exact ⟨rest, .unclosed (fun t ht => Grammar.not_goesOn (hloose t ht)) h, hs⟩

theorem stmt_layer (h : self.Sound) {s t : State} {ts : List Token} {statement : Stmt}
    (hs : s.Ahead ts) (hk : s.current.kind ≠ .eof)
    (hp : (Grammar.standard.layer self .stmt).Clean s statement t) :
    ∃ rest, Derives .stmt (s.current :: ts) statement rest ∧ t.Ahead rest := by
  rw [clean_stmt, Grammar.standard_stmts] at hp
  split at hp
  · rename_i hlet
    obtain ⟨hname, hassign, value, u, hvalue, rfl, rfl⟩ := clean_binding.1 hp
    obtain ⟨mid, rfl, hmid⟩ := hs.of_peek hname (by simp)
    obtain ⟨ts, rfl, hts⟩ := hmid.of_peek hassign (by simp)
    obtain ⟨rest, hvalue, hloose, hrest⟩ := h.lowest hts hvalue
    exact semicolon (.binding hlet hname hassign hvalue) hloose hrest
  · split at hp
    · rename_i hret
      obtain ⟨value, u, hvalue, rfl, rfl⟩ := clean_ret.1 hp
      obtain ⟨rest, hvalue, hloose, hrest⟩ := h.lowest hs hvalue
      exact semicolon (.ret hret hvalue) hloose hrest
    · obtain ⟨value, u, hvalue, rfl, rfl⟩ := clean_bare.1 hp
      have hs : s.Reads (s.current :: ts) := ⟨rfl, hk, hs⟩
      obtain ⟨rest, hvalue, hloose, hrest⟩ := h.lowest hs hvalue
      exact semicolon (.bare hvalue) hloose hrest

theorem layer (h : self.Sound) : Parses.Sound (Grammar.standard.layer self) where
  expr {min s t ts e} hmin hs he := by
    obtain ⟨rule, hrule, left, u, hleft, he⟩ := clean_expr.1 he
    obtain ⟨mid, rfl, hmid⟩ := hs.of_current fun hend => by rw [hend] at hrule; cases hrule
    obtain ⟨rest, hleft, hu⟩ := h.head hmin hmid (Grammar.standard_heads.1 hrule) hleft
    exact h.climb hmin hleft hu he
  climb := h.climb_layer
  elements s t ts es hs hes := by
    rw [clean_elements] at hes
    split at hes
    · rename_i hk
      obtain ⟨first, u, hfirst, others, hothers, rfl⟩ := hes
      obtain ⟨ts, rfl, hts⟩ := hs.of_peek hk (by simp)
      obtain ⟨mid, hfirst, -, hmid⟩ := h.lowest hts hfirst
      obtain ⟨rest, hothers, hrest⟩ := h.elements hmid hothers
      exact ⟨rest, .element hk hfirst hothers, hrest⟩
    · obtain ⟨rfl, rfl⟩ := hes
      exact ⟨ts, .noElement, hs⟩
  names s t ts names hs hnames := by
    rw [clean_names] at hnames
    split at hnames
    · rename_i hk
      obtain ⟨hfirst, others, hothers, rfl⟩ := hnames
      obtain ⟨mid, rfl, hmid⟩ := hs.of_peek hk (by simp)
      obtain ⟨ts, rfl, hts⟩ := hmid.of_peek hfirst (by simp)
      obtain ⟨rest, hothers, hrest⟩ := h.names hts hothers
      exact ⟨rest, .name hk hfirst hothers, hrest⟩
    · obtain ⟨rfl, rfl⟩ := hnames
      exact ⟨ts, .noName, hs⟩
  entries := h.entries_layer
  noEntry {s t pairs} hk hpairs := by
    rwa [clean_entries, if_pos hk] at hpairs
  stmt hs hk hp := h.stmt_layer hs hk hp
  stmts {scope s t ts body} hs hbody := by
    rw [clean_stmts] at hbody
    split at hbody
    · rename_i hends
      obtain ⟨rfl, rfl⟩ := hbody
      exact ⟨ts, .noStmt, hs, hends⟩
    · rename_i hends
      obtain ⟨first, u, hfirst, others, hothers, rfl⟩ := hbody
      have hcurrent : s.current.kind ≠ .eof := fun hend =>
        hends (by cases scope <;> simp [Scope.endsAt, hend])
      obtain ⟨ts, rfl, hts⟩ := hs.of_current hcurrent
      obtain ⟨mid, hfirst, hu⟩ := h.stmt hts hcurrent hfirst
      obtain ⟨rest, hothers, ht⟩ := h.stmts hu hothers
      exact ⟨rest, .stmt hfirst hothers, ht⟩

end Parses.Sound

theorem Grammar.run_sound (budget : Nat) : Parses.Sound (Grammar.standard.run budget) := by
  induction budget with
  | zero =>
    refine ⟨fun _ _ h => ?_, fun _ _ _ h => ?_, fun _ _ _ _ _ h => ?_, fun _ _ _ _ _ h => ?_,
      fun _ _ _ _ _ h => ?_, fun _ h => ?_, fun _ _ h => ?_, fun _ h => ?_⟩ <;> cases h.1
  | succ budget ih => exact ih.layer

/-- A parser gives a program for whatever its lexer reads. If it has recorded nothing, the tokens
are a script and the program is its tree. -/
theorem Parser.program_derives (lx : Lexer) (hlx : lx.EndsOnce) :
    ∃ program p, (Parser.ofLexer lx).program = some (.ok program, p) ∧
      (p.diagnostics = [] → Derives .stmts lx.script program.body []) := by
  obtain ⟨program, s, hprogram, hrun⟩ :=
    (Parser.ofLexer lx).program_ok Grammar.standard_grounded
  refine ⟨program, _, hprogram, fun hnone => ?_⟩
  have hclean : (Grammar.standard.run (ofLexer lx).budget (.stmts .script)).Clean
      (State.ofLexer lx) program.body s := by
    refine ⟨hrun, ?_⟩
    exact Array.toList_eq_nil_iff.1 hnone
  obtain ⟨rest, hbody, hs, hends⟩ :=
    (Grammar.run_sound _).stmts (State.reads_ofLexer hlx) hclean
  simp only [Scope.endsAt, decide_eq_true_eq] at hends
  rwa [hs.eq_nil hends] at hbody

/-- A function, and a condition whose block is still open. -/
theorem program_derives_open :
    let lx := Lexer.ofString "shell" "let f = fn(x, y) \x7b x + y * -a \x7d; if (f(1)[i]) \x7b b; "
    ∃ program p, (Parser.ofLexer lx).program = some (.ok program, p) ∧
      Derives .stmts lx.script program.body [] := by
  intro lx
  obtain ⟨program, p, hprogram, hderives⟩ := Parser.program_derives lx (by decide)
  refine ⟨program, p, hprogram, hderives ?_⟩
  have hnone : (Parser.ofLexer lx).program.map (fun a => a.2.diagnostics.isEmpty) = some true := by
    decide
  rw [hprogram] at hnone
  simpa using hnone

end ScriptFront
