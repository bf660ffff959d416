import ScriptFront.Proofs.Parser.Forward

/-!
# Budgets

A grammar is `Grounded` if it has no rule for the end of the input and none that asks for the
grammar's rule again. `goal.cost s` bounds the nested layers that a goal takes in such a grammar:
four for each token left, and a few that put the goals which call one another on the same token in
order. Every call is cheaper than its caller, so a budget of the cost gives an answer, and any
larger one the same answer.
-/

namespace ScriptFront

structure Grammar.Grounded (g : Grammar) : Prop where
  stmts_ne_lookup (kind : Kind) : g.stmts kind ≠ some .lookup
  stmts_eof : g.stmts .eof = none
  heads_eof : g.heads .eof = none
  tails_eof : g.tails .eof = none

namespace Grammar

theorem standard_grounded : standard.Grounded where
  stmts_ne_lookup kind := by cases kind <;> decide
  stmts_eof := rfl
  heads_eof := rfl
  tails_eof := rfl

variable {g : Grammar} {kind : Kind}

theorem Grounded.withStmt (hg : g.Grounded) {rule : StmtRule} (hk : kind ≠ .eof)
    (hr : rule ≠ .lookup) : (g.withStmt kind rule).Grounded where
  stmts_ne_lookup k := by
    by_cases h : k = kind
    · simpa [Grammar.withStmt, h] using hr
    · simpa [Grammar.withStmt, h] using hg.stmts_ne_lookup k
  stmts_eof := by simpa [Grammar.withStmt, hk.symm] using hg.stmts_eof
  heads_eof := hg.heads_eof
  tails_eof := hg.tails_eof

theorem Grounded.withHead (hg : g.Grounded) (rule : HeadRule) (hk : kind ≠ .eof) :
    (g.withHead kind rule).Grounded where
  stmts_ne_lookup := hg.stmts_ne_lookup
  stmts_eof := hg.stmts_eof
  heads_eof := by simpa [Grammar.withHead, hk.symm] using hg.heads_eof
  tails_eof := hg.tails_eof

theorem Grounded.withTail (hg : g.Grounded) (power : Power) (rule : TailRule) (hk : kind ≠ .eof) :
    (g.withTail kind power rule).Grounded where
  stmts_ne_lookup := hg.stmts_ne_lookup
  stmts_eof := hg.stmts_eof
  heads_eof := hg.heads_eof
  tails_eof := by simpa [Grammar.withTail, hk.symm] using hg.tails_eof

end Grammar

def Goal.cost {α : Type} (goal : Goal α) (s : State) : Nat :=
  match goal with
  | .expr _ => 4 * s.left + 1
  | .climb _ _ | .elements | .names => 4 * s.leftAhead + 1
  | .entries => 4 * s.leftAhead + 2
  | .stmt => 4 * s.left + 2
  | .stmts _ => 4 * s.left + 3

theorem Goal.cost_pos {α : Type} (goal : Goal α) (s : State) : 0 < goal.cost s := by
  cases goal <;> simp only [Goal.cost] <;> omega

theorem Goal.cost_le {α : Type} (goal : Goal α) (s : State) : goal.cost s ≤ 4 * s.left + 3 := by
  have := s.leftAhead_le_left
  cases goal <;> simp only [Goal.cost] <;> omega

namespace Parse

/-! ## Agreement -/

/-- From `s` both parsers give the same answer, and give one. -/
def Agree {α : Type} (p q : Parse α) (s : State) : Prop := p s = q s ∧ p s ≠ .starved

namespace Agree

variable {α β : Type} {p q : Parse α} {f g : α → Parse β} {s : State}

theorem pure (a : α) : Agree (pure a) (pure a) s := ⟨rfl, by simp [pure_apply]⟩

theorem fail (d : Diagnostic) : Agree (fail d : Parse α) (Parse.fail d) s :=
  ⟨rfl, by simp [Parse.fail]⟩

theorem bind [p.Forward] (h : Agree p q s)
    (hf : ∀ a t, s.Reaches t → Agree (f a) (g a) t) : Agree (p >>= f) (q >>= g) s := by
  obtain ⟨heq, hne⟩ := h
  unfold Agree
  cases hp : p s with
  | done a t =>
    rw [bind_done hp, bind_done (heq ▸ hp)]
    exact hf a t (Forward.done hp)
  | failed d t =>
    rw [bind_failed hp, bind_failed (heq ▸ hp)]
    exact ⟨rfl, by simp⟩
  | starved => exact (hne hp).elim

theorem current_bind {f g : Token → Parse β} (h : Agree (f s.current) (g s.current) s) :
    Agree (current >>= f) (current >>= g) s := h

theorem ahead_bind {f g : Kind → Parse β} (h : Agree (f s.peek.kind) (g s.peek.kind) s) :
    Agree (ahead >>= f) (ahead >>= g) s := h

theorem advance_bind {f g : Unit → Parse β} (h : Agree (f ()) (g ()) s.advance) :
    Agree (advance >>= f) (advance >>= g) s := h

theorem expect_bind {f g : Token → Parse β} {kind : Kind}
    (h : s.peek.kind = kind → Agree (f s.peek) (g s.peek) s.advance) :
    Agree (expect kind >>= f) (expect kind >>= g) s := by
  unfold Agree
  by_cases hk : s.peek.kind = kind
  · have hp : expect kind s = .done s.peek s.advance := if_pos hk
    rw [bind_done hp, bind_done hp]
    exact h hk
  · have hp : expect kind s = .failed ⟨.unexpected kind s.peek.kind, s.peek.position⟩ s := if_neg hk
    rw [bind_failed hp, bind_failed hp]
    exact ⟨rfl, by simp⟩

theorem need_bind {f g : Unit → Parse β} {kind : Kind}
    (h : s.peek.kind = kind → Agree (f ()) (g ()) s.advance) :
    Agree (need kind >>= f) (need kind >>= g) s := by
  unfold need
  simp only [bind_assoc]
  exact expect_bind h

theorem name_bind {f g : Ident → Parse β}
    (h : Agree (f ⟨s.peek, s.peek.text⟩) (g ⟨s.peek, s.peek.text⟩) s.advance) :
    Agree (parseName >>= f) (parseName >>= g) s := by
  unfold parseName
  simp only [bind_assoc]
  exact expect_bind fun _ => h

theorem semicolon_bind {f g : Unit → Parse β} (h : ∀ t, s.Reaches t → Agree (f ()) (g ()) t) :
    Agree (skipSemicolon >>= f) (skipSemicolon >>= g) s := by
  refine bind ?_ fun _ => h
  unfold skipSemicolon
  refine ahead_bind ?_
  split
  · exact ⟨rfl, by simp [advance]⟩
  · exact pure ()

theorem recover (h : Agree p q s) : Agree (recover p) (Parse.recover q) s := by
  obtain ⟨heq, hne⟩ := h
  unfold Agree Parse.recover
  rw [← heq]
  refine ⟨rfl, ?_⟩
  split
  · simp
  · simp
  · rename_i hp
    exact (hne hp).elim

end Agree

end Parse

/-! ## Cheaper parts -/

open Parse

/-- Both give the same answer to every goal that costs less than `c`. -/
def Parses.AgreeBelow (c : Nat) (self self' : Parses) : Prop :=
  ∀ {α : Type} (goal : Goal α) (s : State), goal.cost s < c → Agree (self goal) (self' goal) s

namespace Parses.AgreeBelow

variable {self self' : Parses} [∀ {α : Type} (goal : Goal α), (self goal).Forward] {c : Nat}
  {s : State}

omit [∀ {α : Type} (goal : Goal α), (self goal).Forward] in
theorem slot (h : AgreeBelow c self self') {min : Power} (hc : 4 * s.left + 1 < c) :
    Agree (parseSlot self min) (parseSlot self' min) s :=
  (h (.expr min) s hc).recover

theorem list (h : AgreeBelow c self self') {closing : Kind} (hc : 4 * s.leftAhead + 1 < c) :
    Agree (parseList self closing) (parseList self' closing) s := by
  have hle := s.leftAhead_advance_le
  unfold parseList
  refine .ahead_bind ?_
  split
  · exact .advance_bind (.pure _)
  · refine .advance_bind (.bind (h _ _ ?_) fun first t ht => ?_)
    · simp only [Goal.cost, State.left_advance]
      omega
    · have := ht.leftAhead_le
      refine .bind (h .elements t ?_) fun others u _ => .need_bind fun _ => .pure _
      simp only [Goal.cost]
      omega

theorem parameters (h : AgreeBelow c self self') (hc : 4 * s.leftAhead + 1 < c) :
    Agree (parseParameters self) (parseParameters self') s := by
  have hle := s.leftAhead_advance_le
  unfold parseParameters
  refine .ahead_bind ?_
  split
  · exact .advance_bind (.pure _)
  · refine .name_bind (.bind (h .names _ ?_) fun others t _ => .need_bind fun _ => .pure _)
    simp only [Goal.cost]
    omega

theorem block (h : AgreeBelow c self self') (hc : 4 * s.leftAhead + 3 < c) :
    Agree (parseBlock self) (parseBlock self') s := by
  refine .current_bind (.advance_bind (.bind (h (.stmts .block) _ ?_) fun body t _ => .pure _))
  simpa only [Goal.cost, State.left_advance] using hc

theorem alternative (h : AgreeBelow c self self') (hc : 4 * s.leftAhead + 3 < c) :
    Agree (parseElse self) (parseElse self') s := by
  have hle := s.leftAhead_advance_le
  have hle' := s.advance.leftAhead_advance_le
  unfold parseElse
  refine .ahead_bind ?_
  split
  · refine .advance_bind (.need_bind fun _ => .bind (h.block ?_) fun body t _ => .pure _)
    omega
  · exact .pure _

theorem head (h : AgreeBelow c self self') (rule : HeadRule) (hc : 4 * s.leftAhead + 3 < c) :
    Agree (rule.parse self) (rule.parse self') s := by
  have hle := s.leftAhead_advance_le
  have hle' := s.advance.leftAhead_advance_le
  cases rule <;> simp only [HeadRule.parse]
  case ident | boolean | string => exact .current_bind (.pure _)
  case integer | float =>
    refine .current_bind ?_
    split
    · exact .pure _
    · exact .fail _
  case unary =>
    refine .current_bind (.advance_bind (.bind (h.slot ?_) fun right t _ => .pure _))
    rw [State.left_advance]
    omega
  case group =>
    refine .advance_bind (.bind (h _ _ ?_) fun inner t _ => .need_bind fun _ => .pure _)
    simp only [Goal.cost, State.left_advance]
    omega
  case cond =>
    refine .current_bind (.need_bind fun _ => .advance_bind (.bind (h.slot ?_) fun o t ht => ?_))
    · rw [State.left_advance]
      omega
    have ht := ht.leftAhead_le
    have htle := t.leftAhead_advance_le
    have htle' := t.advance.leftAhead_advance_le
    refine .need_bind fun _ => .need_bind fun _ => .bind (h.block ?_) fun body u hu => ?_
    · omega
    have hu := hu.leftAhead_le
    refine .bind (h.alternative ?_) fun other v _ => .pure _
    omega
  case function =>
    refine .current_bind (.need_bind fun _ => .bind (h.parameters ?_) fun names t ht => ?_)
    · omega
    have ht := ht.leftAhead_le
    have htle := t.leftAhead_advance_le
    refine .need_bind fun _ => .bind (h.block ?_) fun body u _ => .pure _
    omega
  case array =>
    refine .current_bind (.bind (h.list ?_) fun elements t _ => .pure _)
    omega
  case hash =>
    refine .current_bind (.bind (h .entries s ?_) fun pairs t _ => .need_bind fun _ => .pure _)
    simp only [Goal.cost]
    omega

theorem tail (h : AgreeBelow c self self') (left : Expr) (power : Power) (rule : TailRule)
    (hc : 4 * s.leftAhead + 1 < c) :
    Agree (rule.parse self left power) (rule.parse self' left power) s := by
  cases rule <;> simp only [TailRule.parse]
  case binary =>
    refine .current_bind (.advance_bind (.bind (h.slot ?_) fun right t _ => .pure _))
    rwa [State.left_advance]
  case call =>
    exact .current_bind (.bind (h.list hc).recover fun arguments t _ => .pure _)
  case index =>
    refine .current_bind (.advance_bind (.bind (h _ _ ?_) fun index t _ =>
      .need_bind fun _ => .pure _))
    simpa only [Goal.cost, State.left_advance] using hc

/-- A block is the one statement rule that can take as much as all statements. -/
theorem stmt (h : AgreeBelow c self self') (rule : StmtRule) (hc : 4 * s.left + 1 < c)
    (hlookup : rule = .lookup → 4 * s.left + 2 < c)
    (hblock : rule = .block → 4 * s.leftAhead + 3 < c) :
    Agree (rule.parse self) (rule.parse self') s := by
  have hle := s.leftAhead_le_left
  cases rule <;> simp only [StmtRule.parse]
  case lookup => exact h .stmt s (hlookup rfl)
  case binding =>
    have hle' := s.leftAhead_advance_le
    have hle'' := s.advance.leftAhead_advance_le
    refine .current_bind (.name_bind (.need_bind fun _ => .advance_bind (.bind (h.slot ?_) ?_)))
    · rw [State.left_advance]
      omega
    · exact fun value t _ => .semicolon_bind fun u _ => .pure _
  case ret =>
    refine .current_bind (.advance_bind (.bind (h.slot ?_) ?_))
    · rw [State.left_advance]
      omega
    · exact fun value t _ => .semicolon_bind fun u _ => .pure _
  case bare =>
    exact .current_bind (.bind (h.slot hc) fun value t _ => .semicolon_bind fun u _ => .pure _)
  case block => exact .bind (h.block (hblock rfl)) fun block t _ => .pure _

/-! ## One layer -/

theorem climb_layer {g : Grammar} (hg : g.Grounded) (min : Power) (left : Expr)
    (h : AgreeBelow (4 * s.leftAhead + 1) self self') :
    Agree (g.layer self (.climb min left)) (g.layer self' (.climb min left)) s := by
  simp only [Grammar.layer]
  refine .ahead_bind ?_
  split
  · exact .pure _
  · rename_i power rule hrule
    have hne : s.peek.kind ≠ .eof := fun e => by simp [e, hg.tails_eof] at hrule
    have hahead := State.leftAhead_advance hne
    split
    · refine .advance_bind (.bind (h.tail left power rule ?_) fun left t ht => h _ t ?_)
      · omega
      · have := ht.leftAhead_le
        simp only [Goal.cost]
        omega
    · exact .pure _

/-- A colon is not the end of the input, so the entries behind it are cheaper. -/
theorem entries_layer {g : Grammar} (h : AgreeBelow (4 * s.leftAhead + 2) self self') :
    Agree (g.layer self .entries) (g.layer self' .entries) s := by
  simp only [Grammar.layer]
  refine .ahead_bind ?_
  split
  · exact .pure _
  have hle := s.leftAhead_advance_le
  refine .advance_bind (.bind (h _ _ ?_) fun key t ht => .need_bind fun hcolon => ?_)
  · simp only [Goal.cost, State.left_advance]
    omega
  have ht := ht.leftAhead_le
  have hahead := State.leftAhead_advance (s := t) (by simp [hcolon])
  have hle' := t.advance.leftAhead_advance_le
  refine .advance_bind (.bind (h _ _ ?_) fun value u hu => .ahead_bind ?_)
  · simp only [Goal.cost, State.left_advance]
    omega
  have hu := hu.leftAhead_le
  have hrest (v : State) (hv : v.leftAhead ≤ u.leftAhead) :
      Agree (do let others ← self .entries; pure ((key, value) :: others))
        (do let others ← self' .entries; pure ((key, value) :: others)) v := by
    refine .bind (h .entries v ?_) fun others w _ => .pure _
    simp only [Goal.cost]
    omega
  split
  · exact .need_bind fun _ => hrest _ u.leftAhead_advance_le
  · exact hrest u (Nat.le_refl _)

theorem layer {g : Grammar} (hg : g.Grounded) {α : Type} (goal : Goal α) (s : State)
    (h : AgreeBelow (goal.cost s) self self') :
    Agree (g.layer self goal) (g.layer self' goal) s := by
  cases goal
  case expr min =>
    simp only [Grammar.layer]
    refine .current_bind ?_
    split
    · exact .fail _
    · rename_i rule hrule
      have hne : s.current.kind ≠ .eof := fun e => by simp [e, hg.heads_eof] at hrule
      have hleft := State.left_of_current hne
      refine .bind (h.head rule ?_) fun left t ht => h _ t ?_
      · simp only [Goal.cost]
        omega
      · have := ht.leftAhead_le
        simp only [Goal.cost]
        omega
  case climb min left => exact h.climb_layer hg min left
  case elements =>
    simp only [Grammar.layer]
    refine .ahead_bind ?_
    split
    · rename_i hcomma
      have hahead := State.leftAhead_advance (s := s) (by simp [hcomma])
      have hle := s.advance.leftAhead_advance_le
      refine .advance_bind (.advance_bind (.bind (h _ _ ?_) fun first t ht => ?_))
      · simp only [Goal.cost, State.left_advance]
        omega
      · have := ht.leftAhead_le
        refine .bind (h .elements t ?_) fun others u _ => .pure _
        simp only [Goal.cost]
        omega
    · exact .pure _
  case names =>
    simp only [Grammar.layer]
    refine .ahead_bind ?_
    split
    · rename_i hcomma
      have hahead := State.leftAhead_advance (s := s) (by simp [hcomma])
      have hle := s.advance.leftAhead_advance_le
      refine .advance_bind (.name_bind (.bind (h .names _ ?_) fun others u _ => .pure _))
      simp only [Goal.cost]
      omega
    · exact .pure _
  case entries => exact h.entries_layer
  case stmt =>
    simp only [Grammar.layer]
    refine .current_bind (h.stmt _ ?_ (fun e => ?_) fun e => ?_)
    · simp only [Goal.cost]
      omega
    · cases hk : g.stmts s.current.kind with
      | none => simp [hk] at e
      | some rule => exact (hg.stmts_ne_lookup s.current.kind (by simpa [hk] using e)).elim
    · have hne : s.current.kind ≠ .eof := fun hk => by simp [hk, hg.stmts_eof] at e
      have hleft := State.left_of_current hne
      simp only [Goal.cost]
      omega
  case stmts scope =>
    simp only [Grammar.layer]
    refine .current_bind ?_
    split
    · exact .pure _
    · rename_i hend
      have hne : s.current.kind ≠ .eof := fun hk => by
        cases scope <;> simp [hk, Scope.endsAt] at hend
      have hleft := State.left_of_current hne
      refine .bind (Agree.recover (h .stmt s ?_)) fun first t ht => .advance_bind ?_
      · simp only [Goal.cost]
        omega
      · have := ht.leftAhead_le
        refine .bind (h _ _ ?_) fun others u _ => .pure _
        simp only [Goal.cost, State.left_advance]
        omega

end Parses.AgreeBelow

/-! ## Enough budget -/

namespace Grammar

variable {g : Grammar}

/-- Budgets from the cost on all give one answer. -/
theorem run_agree (hg : g.Grounded) {m n : Nat} {α : Type} {goal : Goal α} {s : State}
    (hm : goal.cost s ≤ m) (hn : goal.cost s ≤ n) : Agree (g.run m goal) (g.run n goal) s := by
  have hpos := goal.cost_pos s
  induction m generalizing n α goal s with
  | zero => omega
  | succ m ih =>
    cases n with
    | zero => omega
    | succ n =>
      refine Parses.AgreeBelow.layer hg goal s fun part t hpart => ih ?_ ?_ (part.cost_pos t)
      · omega
      · omega

/-- What the grammar parses, with as much budget as it takes. -/
def parses (g : Grammar) : Parses := fun goal s => g.run (goal.cost s) goal s

instance {α : Type} (goal : Goal α) : (g.parses goal).Forward where
  done {s _ _} h := Forward.done (p := g.run (goal.cost s) goal) h
  failed {s _ _} h := Forward.failed (p := g.run (goal.cost s) goal) h

theorem run_eq_parses (hg : g.Grounded) {n : Nat} {α : Type} {goal : Goal α} {s : State}
    (h : goal.cost s ≤ n) : g.run n goal s = g.parses goal s :=
  (run_agree hg h (Nat.le_refl _)).1

/-- Without a budget, a layer of parsing is made of the same parsing. -/
theorem parses_eq (hg : g.Grounded) {α : Type} (goal : Goal α) (s : State) :
    g.parses goal s = g.layer g.parses goal s := by
  have hpos := goal.cost_pos s
  obtain ⟨k, hk⟩ : ∃ k, goal.cost s = k + 1 := ⟨goal.cost s - 1, by omega⟩
  have hbelow : Parses.AgreeBelow (goal.cost s) (g.run k) g.parses := fun part t hpart =>
    run_agree hg (by omega) (Nat.le_refl _)
  calc g.parses goal s = g.run (k + 1) goal s := by rw [← hk]; rfl
    _ = g.layer (g.run k) goal s := rfl
    _ = g.layer g.parses goal s := (hbelow.layer hg goal s).1

theorem agreeBelow_run (hg : g.Grounded) {m n : Nat} {s : State} (hm : 4 * s.left + 4 ≤ m)
    (hn : 4 * s.left + 4 ≤ n) : Parses.AgreeBelow (4 * s.left + 4) (g.run m) (g.run n) :=
  fun _ _ h => run_agree hg (by omega) (by omega)

end Grammar

/-! ## Statements are never refused -/

/-- A parser that can only be done or starved. -/
def Parse.Unfailing {α : Type} (p : Parse α) : Prop := ∀ s d t, p s ≠ .failed d t

namespace Parse.Unfailing

variable {α β : Type}

theorem pure (a : α) : (Pure.pure a : Parse α).Unfailing := by
  intro s d t h
  cases h

theorem bind {p : Parse α} {f : α → Parse β} (hp : p.Unfailing) (hf : ∀ a, (f a).Unfailing) :
    (p >>= f).Unfailing := by
  intro s d t h
  cases hs : p s with
  | done a u => rw [bind_done hs] at h; exact hf a u d t h
  | failed e u => exact hp s e u hs
  | starved => rw [bind_starved hs] at h; cases h

theorem recover (p : Parse α) : (Parse.recover p).Unfailing := by
  intro s d t h
  unfold Parse.recover at h
  split at h <;> cases h

end Parse.Unfailing

/-- What is wrong with a statement is recorded, and the next one is parsed. -/
theorem Grammar.run_stmts_unfailing (g : Grammar) (budget : Nat) (scope : Scope) :
    (g.run budget (.stmts scope)).Unfailing := by
  induction budget with
  | zero =>
    intro s d t h
    cases h
  | succ budget ih =>
    refine .bind (fun s d t h => by cases h) fun token => ?_
    split
    · exact .pure []
    · refine .bind (.recover _) fun first => ?_
      exact .bind (fun s d t h => by cases h) fun _ => .bind ih fun others => .pure _

/-! ## Calls from outside -/

/-- What a parser can be asked for. -/
inductive Call : Type → Type where
  | program : Call Program
  | stmt (rule : StmtRule) : Call Stmt
  | head (rule : HeadRule) : Call Expr
  | tail (left : Expr) (power : Power) (rule : TailRule) : Call Expr
  | expr (min : Power) : Call Expr
  | slot (min : Power) : Call (Option Expr)
  | block : Call Block
  | list (closing : Kind) : Call (List Expr)

def Call.parse (self : Parses) {α : Type} : Call α → Parse α
  | program => Program.mk <$> self (.stmts .script)
  | stmt rule => rule.parse self
  | head rule => rule.parse self
  | tail left power rule => rule.parse self left power
  | expr min => self (.expr min)
  | slot min => parseSlot self min
  | block => parseBlock self
  | list closing => parseList self closing

namespace Parser

def call (p : Parser) {α : Type} : Call α → Attempt α
  | .program => p.program
  | .stmt rule => p.stmt rule
  | .head rule => p.head rule
  | .tail left power rule => p.tail left power rule
  | .expr min => p.expr min
  | .slot min => p.slot min
  | .block => p.attempt fun self => parseBlock self
  | .list closing => p.list closing

theorem call_eq_attempt (p : Parser) {α : Type} (c : Call α) :
    p.call c = p.attempt fun self => c.parse self := by
  cases c <;> rfl

theorem budget_le (p : Parser) : 4 * p.state.left + 4 ≤ p.budget := by
  have := p.state.left_le_tokens
  have := p.state.lexer.tokens_length_le
  unfold budget
  omega

theorem attempt_isSome {p : Parser} {α : Type} {rule : Parses → Parse α}
    (h : rule (p.grammar.run p.budget) p.state ≠ .starved) : (p.attempt rule).isSome := by
  unfold attempt
  split
  · rfl
  · rfl
  · rename_i hs
    exact (h hs).elim

end Parser

theorem Call.agree {g : Grammar} (hg : g.Grounded) {m n : Nat} {s : State}
    (hm : 4 * s.left + 4 ≤ m) (hn : 4 * s.left + 4 ≤ n) {α : Type} (c : Call α) :
    Agree (c.parse (g.run m)) (c.parse (g.run n)) s := by
  have h : Parses.AgreeBelow (4 * s.left + 4) (g.run m) (g.run n) := Grammar.agreeBelow_run hg hm hn
  have hle := s.leftAhead_le_left
  cases c <;> simp only [Call.parse]
  case program =>
    refine .bind (h _ s ?_) fun body t _ => .pure _
    simp only [Goal.cost]
    omega
  case stmt rule => exact h.stmt rule (by omega) (fun _ => by omega) fun _ => by omega
  case head rule => exact h.head rule (by omega)
  case tail left power rule => exact h.tail left power rule (by omega)
  case expr min => exact h _ s (by simp only [Goal.cost]; omega)
  case slot min => exact h.slot (by omega)
  case block => exact h.block (by omega)
  case list closing => exact h.list (by omega)

/-- Whatever a parser of a grounded grammar is asked for, wherever it stands, it answers, and it
answers alike from a budget on that is linear in the tokens left in its lexer. -/
theorem Parser.call_answers (p : Parser) (hg : p.grammar.Grounded) {α : Type} (c : Call α) :
    (p.call c).isSome ∧
      ∀ budget, 4 * p.state.lexer.tokens.length + 12 ≤ budget →
        c.parse (p.grammar.run budget) p.state ≠ .starved ∧
        c.parse (p.grammar.run budget) p.state = c.parse (p.grammar.run p.budget) p.state := by
  have hleft := p.state.left_le_tokens
  refine ⟨?_, fun budget hb => ?_⟩
  · rw [call_eq_attempt]
    exact attempt_isSome (Call.agree hg p.budget_le p.budget_le c).2
  · obtain ⟨heq, hne⟩ := Call.agree hg (show 4 * p.state.left + 4 ≤ budget by omega) p.budget_le c
    exact ⟨hne, heq⟩

/-- A parser of a grounded grammar gives a program whatever it reads. -/
theorem Parser.program_ok (p : Parser) (hg : p.grammar.Grounded) :
    ∃ program s, p.program = some (.ok program, { p with state := s }) ∧
      (p.grammar.run p.budget (.stmts .script)) p.state = .done program.body s := by
  have hne := (Call.agree hg p.budget_le p.budget_le .program).2
  cases hrun : p.grammar.run p.budget (.stmts .script) p.state with
  | done body s => exact ⟨⟨body⟩, s, by simp only [program, attempt, Functor.map, hrun]; rfl, rfl⟩
  | failed d s => exact (p.grammar.run_stmts_unfailing _ _ _ _ _ hrun).elim
  | starved => exact (hne (by simp only [Call.parse, Functor.map, hrun])).elim

/-- A grammar with blocks as statements and a comma between operands, on input that breaks off. -/
theorem call_answers_unclosed :
    let g := ((Grammar.standard.withStmt .openCurly .block).withTail .comma .equality
      .binary).withHead .closeParen .hash
    let p : Parser := ⟨g, .ofLexer (.ofString "shell" "\x7b fn(x) \x7b [1, f(] ) ; let")⟩
    g.Grounded ∧ (p.call .program).isSome ∧
      ∀ budget, 4 * p.state.lexer.tokens.length + 12 ≤ budget →
        Call.program.parse (g.run budget) p.state ≠ .starved ∧
        Call.program.parse (g.run budget) p.state =
          Call.program.parse (g.run p.budget) p.state := by
  intro g p
  have hg : g.Grounded := ((Grammar.standard_grounded.withStmt (by decide) (by decide)).withTail _ _
    (by decide)).withHead _ (by decide)
  exact ⟨hg, p.call_answers hg .program⟩

end ScriptFront
