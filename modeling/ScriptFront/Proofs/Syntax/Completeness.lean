import ScriptFront.Proofs.Parser.Budget
import ScriptFront.Proofs.Parser.Rules
import ScriptFront.Proofs.Syntax.Standard
import ScriptFront.Proofs.Token.Decimal

/-!
# What is in the syntax is parsed without a diagnostic

By induction on a derivation: where its tokens lie ahead, its tree is parsed cleanly up to the last
of them, whatever may follow such a phrase. An expression of a level is met in the loop over its
operators, so what is said of it is how that loop goes on behind it.
-/

namespace ScriptFront

open Parse Grammar

/-- The tokens from the current one on, if every decimal among them has a value. -/
def State.Supplies (s : State) (ts : List Token) : Prop :=
  s.Reads ts ∧ ∀ t ∈ ts, t.kind = .float → (Literal.decimal? t.text).isSome

namespace State.Supplies

variable {s : State} {t : Token} {ts : List Token}

theorem current (h : s.Supplies (t :: ts)) : s.current = t := h.1.1

theorem kind (h : s.Supplies (t :: ts)) {kind : Kind} (hk : t.kind = kind) :
    s.current.kind = kind := by rw [h.current, hk]

theorem peek (h : s.advance.Supplies (t :: ts)) {kind : Kind} (hk : t.kind = kind) :
    s.peek.kind = kind := h.kind hk

theorem tail (h : s.Supplies (t :: ts)) : s.advance.Supplies ts :=
  ⟨h.1.2.2, fun u hu => h.2 u (List.mem_cons_of_mem _ hu)⟩

theorem decimal (h : s.Supplies (t :: ts)) (hk : t.kind = .float) :
    Literal.decimal? t.text = some t.decimal := by
  obtain ⟨value, hvalue⟩ := Option.isSome_iff_exists.1 (h.2 t List.mem_cons_self hk)
  simp [Token.decimal, hvalue]

theorem nil (h : s.Supplies []) : s.advance.Supplies [] := ⟨h.1.advance, h.2⟩

end State.Supplies

/-! ## What stands behind a phrase -/

/-- The first token is of one of these kinds. -/
def Starts (kinds : List Kind) (ts : List Token) : Prop := ∃ t ∈ ts.head?, t.kind ∈ kinds

def Kind.ofExpr : List Kind :=
  [identifier, int, float, string, trueWord, falseWord, bang, dash, openParen, ifWord, fnWord,
    openBracket, openCurly]

def Kind.ofStmt : List Kind := letWord :: returnWord :: ofExpr

/-- Behind an expression of level `p`: nothing that could go on with it or with a block in it. -/
def Ends (p : Power) (rest : List Token) : Prop :=
  ∀ t ∈ rest.head?, standard.power t.kind ≤ p ∧ t.kind ≠ .elseWord

/-- Behind a statement. -/
def Follows (rest : List Token) : Prop := ∀ t ∈ rest.head?, t.kind ∈ .closeCurly :: Kind.ofStmt

theorem Ends.mono {p q : Power} {rest : List Token} (h : Ends p rest) (hpq : p ≤ q) :
    Ends q rest := fun t ht => ⟨Nat.le_trans (h t ht).1 hpq, (h t ht).2⟩

theorem Ends.loose {p : Power} {rest : List Token} (h : Ends p rest) : Loose p rest :=
  fun t ht => (h t ht).1

theorem ends_cons {p : Power} {t : Token} {rest : List Token} {kind : Kind} (hk : t.kind = kind)
    (h : standard.power kind ≤ p ∧ kind ≠ .elseWord) : Ends p (t :: rest) := by
  rintro u ⟨⟩
  rwa [hk]

theorem Starts.cons {t : Token} {ts : List Token} {kind : Kind} {kinds : List Kind}
    (hk : t.kind = kind) (h : kind ∈ kinds) : Starts kinds (t :: ts) :=
  ⟨t, rfl, hk ▸ h⟩

theorem Starts.ends {p : Power} {kinds : List Kind} {ts : List Token} (h : Starts kinds ts)
    (hkinds : ∀ kind ∈ kinds, standard.power kind ≤ p ∧ kind ≠ .elseWord) : Ends p ts := by
  obtain ⟨t, ht, hk⟩ := h
  intro u hu
  cases ht.symm.trans hu
  exact hkinds _ hk

theorem Starts.current {s : State} {kinds : List Kind} {ts : List Token} (h : Starts kinds ts)
    (hs : s.Supplies ts) : s.current.kind ∈ kinds := by
  obtain ⟨t, ht, hk⟩ := h
  cases ts with
  | nil => cases ht
  | cons u ts =>
    cases ht
    rwa [hs.current]

theorem Starts.peek_ne {s : State} {kinds : List Kind} {ts : List Token} {kind : Kind}
    (h : Starts kinds ts) (hs : s.advance.Supplies ts) (hk : kind ∉ kinds) :
    s.peek.kind ≠ kind := by
  rintro rfl
  exact hk (h.current hs)

/-- An expression and a statement start with a token that can start one. -/
theorem Derives.starts {φ : Phrase} {ts rest : List Token} {a : φ.Tree} (h : Derives φ ts a rest) :
    match φ with
    | .level _ | .primary => Starts Kind.ofExpr ts
    | .clause | .stmt => Starts Kind.ofStmt ts
    | _ => True := by
  have expr {ts : List Token} (h : Starts Kind.ofExpr ts) : Starts Kind.ofStmt ts := by
    obtain ⟨t, ht, hk⟩ := h
    exact ⟨t, ht, List.mem_cons_of_mem _ (List.mem_cons_of_mem _ hk)⟩
  induction h
  case lift ih => exact ih
  case binary ih _ => exact ih
  case unary hk _ _ =>
    rcases hk with hk | hk <;> exact .cons hk (by decide)
  case primary ih => exact ih
  case call ih _ => exact ih
  case index ih _ => exact ih
  -- The others start with a mark or a word of their own.
  case ident hk | float hk | string hk | trueWord hk | falseWord hk | integer hk _ | array hk _ _ |
      ret hk _ _ | group hk _ _ _ | hash hk _ _ _ | binding hk _ _ _ _ | function hk _ _ _ _ _ |
      cond hk _ _ _ _ _ _ _ _ =>
    exact .cons hk (by decide)
  case bare ih => exact expr ih
  case closed ih => exact ih
  case unclosed ih => exact ih
  all_goals trivial

/-! ## What is parsed -/

/-- The parser `p` gives `a` for the tokens ahead and stops where `rest` is ahead. -/
def Parse.Gives {α : Type} (p : Parse α) (ts : List Token) (a : α) (rest : List Token) : Prop :=
  ∀ s : State, s.advance.Supplies ts → ∃ t, t.advance.Supplies rest ∧ p.Clean s a t

/-- What the standard grammar does with a phrase. -/
def Completes : (φ : Phrase) → List Token → φ.Tree → List Token → Prop
  | .level p, ts, e, rest => Ends p rest → ∀ (s : State) (min : Power), s.Supplies ts →
      min ≤ .unary → (min < p ∨ p = .unary) → ∃ t : State, t.advance.Supplies rest ∧
        ∀ e' u, (standard.parses (.climb min e)).Clean t e' u →
          (standard.parses (.expr min)).Clean s e' u
  | .primary, ts, e, rest => Ends .index rest → ∀ s : State, s.Supplies ts →
      ∃ (rule : HeadRule) (t : State), s.current.kind ∈ rule.starts ∧ t.advance.Supplies rest ∧
        (rule.parse standard.parses).Clean s e t
  | .list closing, ts, es, rest => closing = .closeParen ∨ closing = .closeBracket →
      (parseList standard.parses closing).Gives ts es rest
  | .elements, ts, es, rest => Starts [.closeParen, .closeBracket] rest →
      Ends .lowest ts ∧ (standard.parses .elements).Gives ts es rest
  | .parameters, ts, names, rest => (parseParameters standard.parses).Gives ts names rest
  | .names, ts, names, rest => Starts [.closeParen] rest →
      (standard.parses .names).Gives ts names rest
  | .entries, ts, pairs, rest => Starts [.closeCurly] rest →
      (standard.parses .entries).Gives ts pairs rest
  | .block, ts, b, rest => Starts [.openCurly] ts ∧ ∀ s : State, s.Supplies ts →
      ∃ t : State, t.advance.Supplies rest ∧ (parseBlock standard.parses).Clean s b t
  | .alternative, ts, b, rest => Ends .index rest → (parseElse standard.parses).Gives ts b rest
  | .clause, ts, statement, rest => Ends .lowest rest → ∀ s : State, s.Supplies ts →
      ∃ t : State, t.advance.Supplies rest ∧ (standard.parses .stmt).Clean s statement
        (if t.peek.kind = .semicolon then t.advance else t)
  | .stmt, ts, statement, rest => Follows rest → ∀ s : State, s.Supplies ts →
      ∃ t : State, t.advance.Supplies rest ∧ (standard.parses .stmt).Clean s statement t
  | .stmts, ts, body, rest => Follows rest → Follows ts ∧
      ∀ (scope : Scope) (s : State), s.Supplies ts →
        (∀ t ∈ rest.head?, scope = .block ∧ t.kind = .closeCurly) →
        ∃ t : State, t.Supplies rest ∧ (standard.parses (.stmts scope)).Clean s body t

theorem clean_parses {α : Type} {goal : Goal α} {s t : State} {a : α} :
    (standard.parses goal).Clean s a t ↔ (standard.layer standard.parses goal).Clean s a t := by
  unfold Parse.Clean
  rw [parses_eq standard_grounded]

namespace Completes

variable {ts mid rest : List Token}

/-! ## Expressions -/

/-- The loop ends in front of what holds no tighter. -/
theorem stops {min : Power} {t : State} {e : Expr} (h : Loose min rest)
    (ht : t.advance.Supplies rest) : (standard.parses (.climb min e)).Clean t e t :=
  clean_parses.2 (clean_climb.2 (.inr ⟨.inr ((loose_iff_peek ht.1).1 h), rfl, rfl⟩))

/-- An operator that is taken and what belongs to it. -/
theorem goes_on {min power : Power} {rule : TailRule} {t u v : State} {left grown e : Expr}
    (hrule : standard.tails t.peek.kind = some (power, rule)) (hlt : min < power)
    (hgrown : (rule.parse standard.parses left power).Clean t.advance grown u)
    (h : (standard.parses (.climb min grown)).Clean u e v) :
    (standard.parses (.climb min left)).Clean t e v := by
  refine clean_parses.2 (clean_climb.2 (.inl ⟨power, rule, hrule, ?_, hlt, grown, u, hgrown, h⟩))
  intro hsemi
  rw [hsemi] at hrule
  cases hrule

theorem expr {e : Expr} (h : Completes .expr ts e rest) (hrest : Ends .lowest rest) {s : State}
    (hs : s.Supplies ts) :
    ∃ t, t.advance.Supplies rest ∧ (standard.parses (.expr .lowest)).Clean s e t := by
  obtain ⟨t, ht, hcont⟩ := h (hrest.mono (by decide)) s .lowest hs (by decide) (.inl (by decide))
  exact ⟨t, ht, hcont e t (stops hrest.loose ht)⟩

theorem lift {p q : Power} {e : Expr} (hpq : p < q) (h : Completes (.level q) ts e rest) :
    Completes (.level p) ts e rest := by
  intro hrest s min hs hmin hp
  refine h (hrest.mono (Nat.le_of_lt hpq)) s min hs hmin ?_
  rcases hp with hp | rfl
  · exact .inl (Nat.lt_trans hp hpq)
  · exact .inl (Nat.lt_of_le_of_lt hmin hpq)

theorem binary {p q : Power} {op : Token} {left right : Expr} (hop : op.kind ∈ p.operators)
    (hpq : p < q) (hleft : Completes (.level p) ts left (op :: mid))
    (hright : Completes (.level q) mid right rest) :
    Completes (.level p) ts (.binary op left op.text (some right)) rest := by
  intro hrest s min hs hmin hp
  have hrule := standard_tails hop
  have hbinary := (standard_binary hrule).2
  have hlt : min < p := by
    rcases hp with hp | rfl
    · exact hp
    · exact absurd hbinary (by decide)
  have hends : Ends p (op :: mid) := by
    refine ends_cons rfl ⟨?_, ?_⟩
    · rw [power_of_some hrule]
      exact Nat.le_refl _
    · intro helse
      rw [helse] at hrule
      cases hrule
  obtain ⟨t, ht, hcont⟩ := hleft hends s min hs hmin hp
  have hpeek : t.peek = op := ht.current
  obtain ⟨u, hu, hinner⟩ := hright (hrest.mono (Nat.le_of_lt hpq)) t.advance.advance p ht.tail
    (Nat.le_of_lt hbinary) (.inl hpq)
  have hinner := hinner right u (stops hrest.loose hu)
  refine ⟨u, hu, fun e v hv => hcont e v ?_⟩
  refine goes_on (hpeek ▸ hrule) hlt (clean_binary.2 ⟨right, hinner, rfl⟩) ?_
  rwa [State.current_advance, hpeek]

theorem unary {op : Token} {right : Expr} (hop : op.kind = .bang ∨ op.kind = .dash)
    (h : Completes (.level .unary) ts right rest) :
    Completes (.level .unary) (op :: ts) (.unary op op.text (some right)) rest := by
  intro hrest s min hs hmin hp
  obtain ⟨t, ht, hcont⟩ := h hrest s.advance .unary hs.tail (by decide) (.inr rfl)
  have hinner := hcont right t (stops hrest.loose ht)
  refine ⟨t, ht, fun e u hu => clean_parses.2 (clean_expr.2 ⟨.unary, ?_, _, t, ?_, hu⟩)⟩
  · rw [hs.current, standard_heads]
    simpa [HeadRule.starts] using hop
  · rw [← hs.current]
    exact clean_unary.2 ⟨right, hinner, rfl⟩

theorem primary {e : Expr} (h : Completes .primary ts e rest) :
    Completes (.level .index) ts e rest := by
  intro hrest s min hs hmin hp
  obtain ⟨rule, t, hk, ht, he⟩ := h hrest s hs
  refine ⟨t, ht, fun e' u hu => clean_parses.2 (clean_expr.2 ⟨rule, ?_, e, t, he, hu⟩)⟩
  exact standard_heads.2 hk

theorem call {opening : Token} {f : Expr} {arguments : List Expr}
    (hopening : opening.kind = .openParen) (hf : Completes (.level .index) ts f (opening :: mid))
    (harguments : Completes (.list .closeParen) mid arguments rest) :
    Completes (.level .index) ts (.call opening f arguments) rest := by
  intro hrest s min hs hmin hp
  obtain ⟨t, ht, hcont⟩ := hf (ends_cons hopening (by decide)) s min hs hmin hp
  have hpeek : t.peek = opening := ht.current
  obtain ⟨u, hu, hlist⟩ := harguments (.inl rfl) t.advance ht.tail
  have hrule : standard.tails t.peek.kind = some (.call, .call) := by rw [hpeek, hopening]; rfl
  refine ⟨u, hu, fun e v hv => hcont e v ?_⟩
  refine goes_on hrule (Nat.lt_of_le_of_lt hmin (by decide))
    (clean_call.2 ⟨arguments, hlist, rfl⟩) ?_
  rwa [State.current_advance, hpeek]

theorem index {opening closing : Token} {left index : Expr} (hopening : opening.kind = .openBracket)
    (hclosing : closing.kind = .closeBracket)
    (hleft : Completes (.level .index) ts left (opening :: mid))
    (hindex : Completes .expr mid index (closing :: rest)) :
    Completes (.level .index) ts (.index opening left index) rest := by
  intro hrest s min hs hmin hp
  obtain ⟨t, ht, hcont⟩ := hleft (ends_cons hopening (by decide)) s min hs hmin hp
  have hpeek : t.peek = opening := ht.current
  obtain ⟨u, hu, hinner⟩ := hindex.expr (ends_cons hclosing (by decide)) ht.tail
  have hlast : u.peek.kind = .closeBracket := hu.peek hclosing
  have hrule : standard.tails t.peek.kind = some (.index, .index) := by rw [hpeek, hopening]; rfl
  refine ⟨u.advance, hu.tail, fun e v hv => hcont e v ?_⟩
  refine goes_on hrule (Nat.lt_of_le_of_lt hmin (by decide))
    (clean_index.2 ⟨index, u, hinner, hlast, rfl, rfl⟩) ?_
  rwa [State.current_advance, hpeek]

/-! ## Primaries -/

theorem leaf {rule : HeadRule} {t : Token} {e : Expr} {kind : Kind} (hk : t.kind = kind)
    (hrule : kind ∈ rule.starts)
    (h : ∀ s : State, s.Supplies (t :: rest) → (rule.parse standard.parses).Clean s e s) :
    Completes .primary (t :: rest) e rest :=
  fun _ s hs => ⟨rule, s, by rwa [hs.kind hk], hs.tail, h s hs⟩

theorem boolean {t : Token} {value : Bool} {kind : Kind} (hk : t.kind = kind)
    (hrule : kind ∈ HeadRule.boolean.starts) (hvalue : value = decide (kind = .trueWord)) :
    Completes .primary (t :: rest) (.boolean t value) rest :=
  leaf hk hrule fun s hs => clean_boolean.2 ⟨by rw [hvalue, hs.current, hk], rfl⟩

theorem group {opening closing : Token} {e : Expr} (hopening : opening.kind = .openParen)
    (hclosing : closing.kind = .closeParen) (h : Completes .expr ts e (closing :: rest)) :
    Completes .primary (opening :: ts) e rest := by
  intro _ s hs
  obtain ⟨u, hu, he⟩ := h.expr (ends_cons hclosing (by decide)) hs.tail
  refine ⟨.group, u.advance, ?_, hu.tail, clean_group.2 ⟨u, he, hu.peek hclosing, rfl⟩⟩
  rw [hs.kind hopening]
  decide

theorem cond {t opening closing : Token} {behind : List Token} {condition : Expr}
    {consequence : Block} {alternative : Option Block} (hk : t.kind = .ifWord)
    (hopening : opening.kind = .openParen) (hclosing : closing.kind = .closeParen)
    (hcondition : Completes .expr ts condition (closing :: mid))
    (hconsequence : Completes .block mid consequence behind)
    (halternative : Completes .alternative behind alternative rest) :
    Completes .primary (t :: opening :: ts) (.cond t (some condition) consequence alternative)
      rest := by
  intro hrest s hs
  obtain ⟨u, hu, hcondition⟩ := hcondition.expr (ends_cons hclosing (by decide)) hs.tail.tail
  obtain ⟨hcurly, hblock⟩ := hconsequence
  have hcurly : u.advance.peek.kind = .openCurly := List.mem_singleton.1 (hcurly.current hu.tail)
  obtain ⟨v, hv, hblock⟩ := hblock u.advance.advance hu.tail
  obtain ⟨w, hw, halternative⟩ := halternative hrest v hv
  refine ⟨.cond, w, ?_, hw, clean_cond.2 ⟨hs.tail.peek hopening, condition, u, hcondition,
    hu.peek hclosing, hcurly, consequence, v, hblock, alternative, halternative, ?_⟩⟩
  · rw [hs.kind hk]
    decide
  · rw [hs.current]

theorem function {t opening : Token} {parameters : List Ident} {body : Block}
    (hk : t.kind = .fnWord) (hopening : opening.kind = .openParen)
    (hparameters : Completes .parameters ts parameters mid)
    (hbody : Completes .block mid body rest) :
    Completes .primary (t :: opening :: ts) (.function t parameters body) rest := by
  intro _ s hs
  obtain ⟨u, hu, hparameters⟩ := hparameters s.advance hs.tail.tail
  obtain ⟨hcurly, hblock⟩ := hbody
  have hcurly : u.peek.kind = .openCurly := List.mem_singleton.1 (hcurly.current hu)
  obtain ⟨v, hv, hblock⟩ := hblock u.advance hu
  refine ⟨.function, v, ?_, hv, clean_function.2 ⟨hs.tail.peek hopening, parameters, u, hparameters,
    hcurly, body, hblock, ?_⟩⟩
  · rw [hs.kind hk]
    decide
  · rw [hs.current]

theorem array {t : Token} {elements : List Expr} (hk : t.kind = .openBracket)
    (h : Completes (.list .closeBracket) ts elements rest) :
    Completes .primary (t :: ts) (.array t elements) rest := by
  intro _ s hs
  obtain ⟨u, hu, helements⟩ := h (.inr rfl) s hs.tail
  refine ⟨.array, u, ?_, hu, clean_array.2 ⟨elements, helements, by rw [hs.current]⟩⟩
  rw [hs.kind hk]
  decide

theorem hash {t closing : Token} {pairs : List (Expr × Expr)} (hk : t.kind = .openCurly)
    (hclosing : closing.kind = .closeCurly)
    (h : Completes .entries ts pairs (closing :: rest)) :
    Completes .primary (t :: ts) (.hash t (Entries.ofPairs pairs)) rest := by
  intro _ s hs
  obtain ⟨u, hu, hpairs⟩ := h (.cons hclosing (by decide)) s hs.tail
  refine ⟨.hash, u.advance, ?_, hu.tail,
    clean_hash.2 ⟨pairs, u, hpairs, hu.peek hclosing, by rw [hs.current], rfl⟩⟩
  rw [hs.kind hk]
  decide

/-! ## Sequences -/

theorem noList {closing : Token} {kind : Kind} (hk : closing.kind = kind) :
    Completes (.list kind) (closing :: rest) [] rest := by
  intro _ s hs
  refine ⟨s.advance, hs.tail, clean_list.2 ?_⟩
  rw [if_pos (hs.peek hk)]
  exact ⟨rfl, rfl⟩

theorem list {closing : Token} {kind : Kind} {first : Expr} {others : List Expr}
    (hk : closing.kind = kind) (hstarts : Starts Kind.ofExpr ts)
    (hfirst : Completes .expr ts first mid)
    (hothers : Completes .elements mid others (closing :: rest)) :
    Completes (.list kind) ts (first :: others) rest := by
  intro hkind s hs
  obtain ⟨hmid, hothers⟩ := hothers (.cons hk (by simpa using hkind))
  obtain ⟨u, hu, hfirst⟩ := hfirst.expr hmid hs
  obtain ⟨v, hv, hothers⟩ := hothers u hu
  refine ⟨v.advance, hv.tail, clean_list.2 ?_⟩
  rw [if_neg (hstarts.peek_ne hs (by rcases hkind with rfl | rfl <;> decide))]
  exact ⟨first, u, hfirst, others, v, hothers, hv.peek hk, rfl, rfl⟩

theorem noElement : Completes .elements rest [] rest := by
  intro hrest
  refine ⟨hrest.ends (by decide), fun s hs => ⟨s, hs, clean_parses.2 (clean_elements.2 ?_)⟩⟩
  rw [if_neg (hrest.peek_ne hs (by decide))]
  exact ⟨rfl, rfl⟩

theorem element {comma : Token} {first : Expr} {others : List Expr} (hcomma : comma.kind = .comma)
    (hfirst : Completes .expr ts first mid) (hothers : Completes .elements mid others rest) :
    Completes .elements (comma :: ts) (first :: others) rest := by
  intro hrest
  refine ⟨ends_cons hcomma (by decide), fun s hs => ?_⟩
  obtain ⟨hmid, hothers⟩ := hothers hrest
  obtain ⟨u, hu, hfirst⟩ := hfirst.expr hmid hs.tail
  obtain ⟨v, hv, hothers⟩ := hothers u hu
  refine ⟨v, hv, clean_parses.2 (clean_elements.2 ?_)⟩
  rw [if_pos (hs.peek hcomma)]
  exact ⟨first, u, hfirst, others, hothers, rfl⟩

theorem noParameter {closing : Token} (hk : closing.kind = .closeParen) :
    Completes .parameters (closing :: rest) [] rest := by
  intro s hs
  refine ⟨s.advance, hs.tail, clean_parameters.2 ?_⟩
  rw [if_pos (hs.peek hk)]
  exact ⟨rfl, rfl⟩

theorem parameters {first closing : Token} {others : List Ident} (hfirst : first.kind = .identifier)
    (hclosing : closing.kind = .closeParen) (h : Completes .names ts others (closing :: rest)) :
    Completes .parameters (first :: ts) (first.toIdent :: others) rest := by
  intro s hs
  have hpeek : s.peek = first := hs.current
  obtain ⟨u, hu, hothers⟩ := h (.cons hclosing (by decide)) s.advance hs.tail
  refine ⟨u.advance, hu.tail, clean_parameters.2 ?_⟩
  rw [if_neg (by simp [hpeek, hfirst]), hpeek]
  exact ⟨hfirst, others, u, hothers, hu.peek hclosing, rfl, rfl⟩

theorem noName : Completes .names rest [] rest := by
  intro hrest s hs
  refine ⟨s, hs, clean_parses.2 (clean_names.2 ?_)⟩
  rw [if_neg (hrest.peek_ne hs (by decide))]
  exact ⟨rfl, rfl⟩

theorem name {comma first : Token} {others : List Ident} (hcomma : comma.kind = .comma)
    (hfirst : first.kind = .identifier) (h : Completes .names ts others rest) :
    Completes .names (comma :: first :: ts) (first.toIdent :: others) rest := by
  intro hrest s hs
  obtain ⟨u, hu, hothers⟩ := h hrest s.advance.advance hs.tail.tail
  refine ⟨u, hu, clean_parses.2 (clean_names.2 ?_)⟩
  rw [if_pos (hs.peek hcomma)]
  refine ⟨hs.tail.peek hfirst, others, hothers, ?_⟩
  have hpeek : s.advance.peek = first := hs.tail.current
  rw [hpeek]
  rfl

theorem noEntry : Completes .entries rest [] rest := by
  intro hrest s hs
  have hcurly : s.peek.kind = .closeCurly := List.mem_singleton.1 (hrest.current hs)
  refine ⟨s, hs, clean_parses.2 (clean_entries.2 ?_)⟩
  rw [if_pos hcurly]
  exact ⟨rfl, rfl⟩

theorem lastEntry {colon : Token} {key value : Expr} (hstarts : Starts Kind.ofExpr ts)
    (hcolon : colon.kind = .colon) (hkey : Completes .expr ts key (colon :: mid))
    (hvalue : Completes .expr mid value rest) : Completes .entries ts [(key, value)] rest := by
  intro hrest s hs
  obtain ⟨u, hu, hkey⟩ := hkey.expr (ends_cons hcolon (by decide)) hs
  obtain ⟨v, hv, hvalue⟩ := hvalue.expr (hrest.ends (by decide)) hu.tail
  obtain ⟨w, hw, hnone⟩ := noEntry hrest v hv
  refine ⟨w, hw, clean_parses.2 (clean_entries.2 ?_)⟩
  rw [if_neg (hstarts.peek_ne hs (by decide))]
  have hcurly : v.peek.kind = .closeCurly := List.mem_singleton.1 (hrest.current hv)
  exact ⟨key, u, hkey, hu.peek hcolon, value, v, hvalue, .inl ⟨hcurly, [], hnone, rfl⟩⟩

theorem entry {colon comma : Token} {more : List Token} {key value : Expr}
    {others : List (Expr × Expr)} (hstarts : Starts Kind.ofExpr ts) (hcolon : colon.kind = .colon)
    (hcomma : comma.kind = .comma) (hkey : Completes .expr ts key (colon :: mid))
    (hvalue : Completes .expr mid value (comma :: more))
    (hothers : Completes .entries more others rest) :
    Completes .entries ts ((key, value) :: others) rest := by
  intro hrest s hs
  obtain ⟨u, hu, hkey⟩ := hkey.expr (ends_cons hcolon (by decide)) hs
  obtain ⟨v, hv, hvalue⟩ := hvalue.expr (ends_cons hcomma (by decide)) hu.tail
  obtain ⟨w, hw, hothers⟩ := hothers hrest v.advance hv.tail
  refine ⟨w, hw, clean_parses.2 (clean_entries.2 ?_)⟩
  rw [if_neg (hstarts.peek_ne hs (by decide))]
  exact ⟨key, u, hkey, hu.peek hcolon, value, v, hvalue,
    .inr ⟨hv.peek hcomma, others, hothers, rfl⟩⟩

/-! ## Blocks -/

theorem block {opening closing : Token} {body : List Stmt} (hopening : opening.kind = .openCurly)
    (hclosing : closing.kind = .closeCurly) (h : Completes .stmts ts body (closing :: rest)) :
    Completes .block (opening :: ts) (.mk opening body) rest := by
  refine ⟨.cons hopening (by decide), fun s hs => ?_⟩
  obtain ⟨t, ht, hbody⟩ := (h (by rintro u ⟨⟩; simp [hclosing])).2 .block s.advance hs.tail
    (by rintro u ⟨⟩; exact ⟨rfl, hclosing⟩)
  exact ⟨t, ht.tail, clean_block.2 ⟨body, hbody, by rw [hs.current]⟩⟩

theorem openBlock {opening : Token} {body : List Stmt} (hopening : opening.kind = .openCurly)
    (h : Completes .stmts ts body []) : Completes .block (opening :: ts) (.mk opening body) [] := by
  refine ⟨.cons hopening (by decide), fun s hs => ?_⟩
  obtain ⟨t, ht, hbody⟩ := (h nofun).2 .block s.advance hs.tail nofun
  exact ⟨t, ht.nil, clean_block.2 ⟨body, hbody, by rw [hs.current]⟩⟩

theorem noAlternative : Completes .alternative rest none rest := by
  intro hrest s hs
  refine ⟨s, hs, clean_else.2 ?_⟩
  rw [if_neg]
  · exact ⟨rfl, rfl⟩
  · intro helse
    cases rest with
    | nil => exact absurd (hs.1.current_eof.symm.trans helse) (by decide)
    | cons t rest => exact (hrest t rfl).2 (hs.current ▸ helse)

theorem alternative {t : Token} {b : Block} (hk : t.kind = .elseWord)
    (h : Completes .block ts b rest) : Completes .alternative (t :: ts) (some b) rest := by
  intro _ s hs
  obtain ⟨hcurly, hblock⟩ := h
  obtain ⟨u, hu, hblock⟩ := hblock s.advance.advance hs.tail
  refine ⟨u, hu, clean_else.2 ?_⟩
  rw [if_pos (hs.peek hk)]
  exact ⟨List.mem_singleton.1 (hcurly.current hs.tail), b, hblock, rfl⟩

/-! ## Statements -/

theorem binding {t name assign : Token} {value : Expr} (hk : t.kind = .letWord)
    (hname : name.kind = .identifier) (hassign : assign.kind = .assign)
    (h : Completes .expr ts value rest) :
    Completes .clause (t :: name :: assign :: ts) (.binding t name.toIdent (some value)) rest := by
  intro hrest s hs
  obtain ⟨u, hu, hvalue⟩ := h.expr hrest hs.tail.tail.tail
  have hrule : standard.stmts s.current.kind = some .binding := by rw [hs.kind hk]; rfl
  have hpeek : s.peek = name := hs.tail.current
  refine ⟨u, hu, clean_parses.2 (clean_stmt.2 ?_)⟩
  rw [hrule]
  refine clean_binding.2 ⟨hs.tail.peek hname, hs.tail.tail.peek hassign, value, u, hvalue, ?_, rfl⟩
  rw [hs.current, hpeek]
  rfl

theorem ret {t : Token} {value : Expr} (hk : t.kind = .returnWord)
    (h : Completes .expr ts value rest) :
    Completes .clause (t :: ts) (.ret t (some value)) rest := by
  intro hrest s hs
  obtain ⟨u, hu, hvalue⟩ := h.expr hrest hs.tail
  have hrule : standard.stmts s.current.kind = some .ret := by rw [hs.kind hk]; rfl
  refine ⟨u, hu, clean_parses.2 (clean_stmt.2 ?_)⟩
  rw [hrule]
  exact clean_ret.2 ⟨value, u, hvalue, by rw [hs.current], rfl⟩

theorem bare {t : Token} {e : Expr} (hstarts : Starts Kind.ofExpr (t :: ts))
    (h : Completes .expr (t :: ts) e rest) :
    Completes .clause (t :: ts) (.bare t (some e)) rest := by
  intro hrest s hs
  obtain ⟨u, hu, he⟩ := h.expr hrest hs
  have hrule : ∀ kind ∈ Kind.ofExpr, standard.stmts kind = none := by decide
  refine ⟨u, hu, clean_parses.2 (clean_stmt.2 ?_)⟩
  rw [hrule _ (hstarts.current hs)]
  exact clean_bare.2 ⟨e, u, he, by rw [hs.current], rfl⟩

theorem closed {semicolon : Token} {statement : Stmt} (hk : semicolon.kind = .semicolon)
    (h : Completes .clause ts statement (semicolon :: rest)) :
    Completes .stmt ts statement rest := by
  intro _ s hs
  obtain ⟨t, ht, hclean⟩ := h (ends_cons hk (by decide)) s hs
  rw [if_pos (ht.peek hk)] at hclean
  exact ⟨t.advance, ht.tail, hclean⟩

theorem unclosed {statement : Stmt} (hrest : ∀ t ∈ rest.head?, ¬ t.kind.goesOn)
    (h : Completes .clause ts statement rest) : Completes .stmt ts statement rest := by
  intro hfollows s hs
  have hkinds : ∀ kind ∈ .closeCurly :: Kind.ofStmt, ¬ kind.goesOn →
      (standard.power kind ≤ .lowest ∧ kind ≠ .elseWord) ∧ kind ≠ .semicolon := by decide
  obtain ⟨t, ht, hclean⟩ := h (fun u hu => (hkinds _ (hfollows u hu) (hrest u hu)).1) s hs
  rw [if_neg] at hclean
  · exact ⟨t, ht, hclean⟩
  · intro hsemi
    cases rest with
    | nil => exact absurd (ht.1.current_eof.symm.trans hsemi) (by decide)
    | cons u rest =>
      refine (hkinds _ (hfollows u rfl) (hrest u rfl)).2 ?_
      have hpeek : t.peek = u := ht.current
      rwa [← hpeek]

theorem noStmt : Completes .stmts rest [] rest := by
  refine fun hfollows => ⟨hfollows, fun scope s hs hscope => ?_⟩
  refine ⟨s, hs, clean_parses.2 (clean_stmts.2 ?_)⟩
  rw [if_pos]
  · exact ⟨rfl, rfl⟩
  · cases rest with
    | nil => cases scope <;> simp [Scope.endsAt, hs.1.current_eof]
    | cons t rest =>
      obtain ⟨rfl, hk⟩ := hscope t rfl
      simp [Scope.endsAt, hs.kind hk]

theorem stmt {first : Stmt} {others : List Stmt} (hstarts : Starts Kind.ofStmt ts)
    (hfirst : Completes .stmt ts first mid) (hothers : Completes .stmts mid others rest) :
    Completes .stmts ts (first :: others) rest := by
  intro hrest
  obtain ⟨hmid, hothers⟩ := hothers hrest
  refine ⟨fun t ht => ?_, fun scope s hs hscope => ?_⟩
  · obtain ⟨u, hu, hk⟩ := hstarts
    cases hu.symm.trans ht
    exact List.mem_cons_of_mem _ hk
  · obtain ⟨u, hu, hfirst⟩ := hfirst hmid s hs
    obtain ⟨v, hv, hothers⟩ := hothers scope u.advance hu hscope
    refine ⟨v, hv, clean_parses.2 (clean_stmts.2 ?_)⟩
    have hends : ∀ kind ∈ Kind.ofStmt, ¬ scope.endsAt kind := by cases scope <;> decide
    rw [if_neg (hends _ (hstarts.current hs))]
    exact ⟨first, u, hfirst, others, hothers, rfl⟩

end Completes

theorem Derives.completes {φ : Phrase} {ts rest : List Token} {a : φ.Tree}
    (h : Derives φ ts a rest) : Completes φ ts a rest := by
  induction h with
  | lift hpq _ ih => exact .lift hpq ih
  | binary hop hpq _ _ ihleft ihright => exact .binary hop hpq ihleft ihright
  | unary hop _ ih => exact .unary hop ih
  | primary _ ih => exact .primary ih
  | call hopening _ _ ihf ihlist => exact .call hopening ihf ihlist
  | index hopening hclosing _ _ ihleft ihindex => exact .index hopening hclosing ihleft ihindex
  | ident hk =>
    exact .leaf hk (by decide) fun s hs => clean_ident.2 ⟨by rw [hs.current]; rfl, rfl⟩
  | integer hk hvalue =>
    exact .leaf hk (by decide) fun s hs =>
      clean_integer.2 ⟨_, by rw [hs.current]; exact hvalue, by rw [hs.current], rfl⟩
  | float hk =>
    exact .leaf hk (by decide) fun s hs =>
      clean_float.2 ⟨_, by rw [hs.current]; exact hs.decimal hk, by rw [hs.current], rfl⟩
  | string hk =>
    exact .leaf hk (by decide) fun s hs => clean_string.2 ⟨by rw [hs.current], rfl⟩
  | trueWord hk => exact .boolean hk (by decide) rfl
  | falseWord hk => exact .boolean hk (by decide) rfl
  | group hopening hclosing _ ih => exact .group hopening hclosing ih
  | cond hk hopening hclosing _ _ _ ihcondition ihblock ihelse =>
    exact .cond hk hopening hclosing ihcondition ihblock ihelse
  | function hk hopening _ _ ihparameters ihbody => exact .function hk hopening ihparameters ihbody
  | array hk _ ih => exact .array hk ih
  | hash hk hclosing _ ih => exact .hash hk hclosing ih
  | noList hk => exact .noList hk
  | list hk hfirst _ ihfirst ihothers => exact .list hk hfirst.starts ihfirst ihothers
  | noElement => exact .noElement
  | element hcomma _ _ ihfirst ihothers => exact .element hcomma ihfirst ihothers
  | noParameter hk => exact .noParameter hk
  | parameters hfirst hclosing _ ih => exact .parameters hfirst hclosing ih
  | noName => exact .noName
  | name hcomma hfirst _ ih => exact .name hcomma hfirst ih
  | noEntry => exact .noEntry
  | lastEntry hcolon hkey _ ihkey ihvalue => exact .lastEntry hkey.starts hcolon ihkey ihvalue
  | entry hcolon hcomma hkey _ _ ihkey ihvalue ihothers =>
    exact .entry hkey.starts hcolon hcomma ihkey ihvalue ihothers
  | block hopening hclosing _ ih => exact .block hopening hclosing ih
  | openBlock hopening _ ih => exact .openBlock hopening ih
  | noAlternative => exact .noAlternative
  | alternative hk _ ih => exact .alternative hk ih
  | binding hk hname hassign _ ih => exact .binding hk hname hassign ih
  | ret hk _ ih => exact .ret hk ih
  | bare he ih => exact .bare he.starts ih
  | closed hk _ ih => exact .closed hk ih
  | unclosed hrest _ ih => exact .unclosed hrest ih
  | noStmt => exact .noStmt
  | stmt hfirst _ ihfirst ihothers => exact .stmt hfirst.starts ihfirst ihothers

/-! ## Scripts -/

theorem State.supplies_ofLexer {lx : Lexer} (hlx : lx.EndsOnce) :
    (State.ofLexer lx).Supplies lx.script :=
  ⟨reads_ofLexer hlx, fun _ ht hk =>
    lx.decimal_isSome ((List.takeWhile_sublist _).subset ht) hk⟩

/-- A program without diagnostics is what the statements are parsed to. -/
theorem Parser.program_clean {lx : Lexer} {program : Program} {p : Parser}
    (h : (ofLexer lx).program = some (.ok program, p)) (hnone : p.diagnostics = []) :
    (standard.run (ofLexer lx).budget (.stmts .script)).Clean (State.ofLexer lx)
      program.body p.state := by
  obtain ⟨program', s, hprogram, hrun⟩ := (ofLexer lx).program_ok standard_grounded
  rw [h] at hprogram
  cases hprogram
  exact ⟨hrun, Array.toList_eq_nil_iff.1 hnone⟩

/-- The statements that are parsed from the start of a parser are the program that it gives. -/
theorem Parser.program_of_parses {lx : Lexer} {body : List Stmt} {s : State}
    (h : standard.parses (.stmts .script) (State.ofLexer lx) = .done body s) :
    (ofLexer lx).program = some (.ok ⟨body⟩, { ofLexer lx with state := s }) := by
  have hbudget : 4 * (State.ofLexer lx).left + 4 ≤ (ofLexer lx).budget := (ofLexer lx).budget_le
  have hrun : standard.run (ofLexer lx).budget (.stmts .script) (State.ofLexer lx) =
      standard.parses (.stmts .script) (State.ofLexer lx) :=
    run_eq_parses standard_grounded (Nat.le_trans (Goal.cost_le _ _) (by omega))
  have hdone : (ofLexer lx).grammar.run (ofLexer lx).budget (.stmts .script) (ofLexer lx).state =
      .done body s := hrun.trans h
  simp only [program, attempt, Functor.map, hdone]
  rfl

theorem Parser.program_of_clean {lx : Lexer} {body : List Stmt} {s : State}
    (h : (standard.parses (.stmts .script)).Clean (State.ofLexer lx) body s) :
    ∃ p, (ofLexer lx).program = some (.ok ⟨body⟩, p) ∧ p.diagnostics = [] :=
  ⟨_, program_of_parses h.1, Array.toList_eq_nil_iff.2 h.2⟩

/-- A parser of a script gives its tree and records nothing. -/
theorem Parser.program_of_derives {lx : Lexer} (hlx : lx.EndsOnce) {body : List Stmt}
    (h : Derives .stmts lx.script body []) :
    ∃ p, (Parser.ofLexer lx).program = some (.ok ⟨body⟩, p) ∧ p.diagnostics = [] := by
  obtain ⟨s, -, hclean⟩ := (h.completes nofun).2 .script _ (State.supplies_ofLexer hlx) nofun
  exact program_of_clean hclean

/-- A script has one tree. -/
theorem derives_unique {lx : Lexer} (hlx : lx.EndsOnce) {body body' : List Stmt}
    (h : Derives .stmts lx.script body []) (h' : Derives .stmts lx.script body' []) :
    body = body' := by
  obtain ⟨p, hp, -⟩ := Parser.program_of_derives hlx h
  obtain ⟨q, hq, -⟩ := Parser.program_of_derives hlx h'
  cases hp.symm.trans hq
  rfl

/-- What is in the syntax is parsed without a diagnostic, and to its tree. -/
theorem parse_of_derives {file source : String}
    (hends : (Lexer.ofString file source).EndsOnce) {body : List Stmt}
    (h : Derives .stmts (Lexer.ofString file source).script body []) :
    ∃ p, parse file source = some (.ok ⟨body⟩, p) ∧ p.diagnostics = [] :=
  Parser.program_of_derives hends h

/-- A sum, and a statement behind it without a semicolon. -/
theorem parse_of_derives_sum :
    let token (kind : Kind) (text : String) (start stop : Nat) : Token :=
      ⟨kind, text, ⟨start, stop, "shell"⟩⟩
    let a := token .identifier "a" 8 9
    let plus := token .plus "+" 10 11
    let number := token .float "1.5" 12 15
    let x := token .identifier "x" 17 18
    let sum := Expr.binary plus (.ident a.toIdent) "+" (some (.float number number.decimal))
    ∃ p, parse "shell" "let x = a + 1.5; x" = some (.ok ⟨[
        .binding (token .letWord "let" 0 3) (token .identifier "x" 4 5).toIdent (some sum),
        .bare x (some (.ident x.toIdent))]⟩, p) ∧ p.diagnostics = [] := by
  intro token a plus number x sum
  have hscript : (Lexer.ofString "shell" "let x = a + 1.5; x").script =
      [token .letWord "let" 0 3, token .identifier "x" 4 5, token .assign "=" 6 7, a, plus, number,
        token .semicolon ";" 15 16, x] := by decide
  have hsum {rest : List Token} : Derives .expr (a :: plus :: number :: rest) sum rest := by
    have ha : Derives (.level .sum) (a :: plus :: number :: rest) (.ident a.toIdent)
        (plus :: number :: rest) := .lift (q := .index) (by decide) (.primary (.ident rfl))
    have hnumber : Derives (.level .index) (number :: rest) (.float number number.decimal) rest :=
      .primary (.float rfl)
    exact .lift (q := .sum) (by decide) (.binary (by decide) (by decide) ha hnumber)
  have hx : Derives .expr [x] (.ident x.toIdent) [] :=
    .lift (q := .index) (by decide) (.primary (.ident rfl))
  have hlast : Derives .stmt [x] (.bare x (some (.ident x.toIdent))) [] :=
    .unclosed nofun (.bare hx)
  refine parse_of_derives (by decide) ?_
  rw [hscript]
  exact .stmt (.closed (by rfl) (.binding rfl rfl rfl hsum)) (.stmt hlast .noStmt)

end ScriptFront
