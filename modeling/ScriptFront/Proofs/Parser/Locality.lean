import ScriptFront.Proofs.Parser.Budget
import ScriptFront.Proofs.Tree.Spans

/-!
# What parsing depends on

A parser reads kinds and texts of tokens, up to the token ahead of where it stops. `Local p` says so
for a parser with parameters: where it stops, counted in tokens from the current one, and what it
gives and records is the same from any state that shows the same tokens as far as that, whatever
their spans are. What a rule is made of is local, so every rule is, and every run of a grammar.
-/

namespace ScriptFront

/-- A fault at a token, counted from the current one. -/
abbrev Mark := Fault × Nat

/-- The mark as it is seen from `k` tokens before. -/
def Mark.shift (k : Nat) (m : Mark) : Mark := (m.1, k + m.2)

instance {ε α : Type} [Spanned α] : Spanned (Except ε α) := ⟨fun f => Except.map (respan f)⟩

instance : Spanned Kind := ⟨fun _ => id⟩

instance : Spanned HeadRule := ⟨fun _ => id⟩

theorem respan_mapError {ε ε' α : Type} [Spanned α] (f : Span → Span) (h : ε → ε')
    (r : Except ε α) : respan f (r.mapError h) = (respan f r).mapError h := by
  cases r <;> rfl

namespace State

/-! ## States by what they show -/

def diagnose (s : State) (m : Mark) : Diagnostic := ⟨m.1, (s.token m.2).position⟩

/-- The state `k` tokens further on, with the marks recorded. -/
def after (s : State) (k : Nat) (marks : List Mark) : State :=
  { s.skip k with diagnostics := s.diagnostics ++ (marks.map s.diagnose).toArray }

/-- To be done or to fail `k` tokens further on, with the marks recorded. -/
def outcome {α : Type} (s : State) (k : Nat) (marks : List Mark) : Except Mark α → Outcome α
  | .ok a => .done a (s.after k marks)
  | .error m => .failed (s.diagnose m) (s.after k marks)

/-- The first `n` tokens are the same once the spans are changed. -/
def AgreesFor (f g : Span → Span) (n : Nat) (s s' : State) : Prop :=
  ∀ i < n, respan f (s.token i) = respan g (s'.token i)

variable {s s' : State} {k n : Nat} {marks : List Mark} {f g : Span → Span}

theorem token_record (s : State) (ds : Array Diagnostic) (i : Nat) :
    { s with diagnostics := ds }.token i = s.token i := by
  induction i generalizing s with
  | zero => rfl
  | succ i ih => exact ih s.advance

theorem skip_record (s : State) (ds : Array Diagnostic) (k : Nat) :
    { s with diagnostics := ds }.skip k = { s.skip k with diagnostics := ds } := by
  induction k generalizing s with
  | zero => rfl
  | succ k ih => exact ih s.advance

theorem token_skip (s : State) (k i : Nat) : (s.skip k).token i = s.token (k + i) := by
  rw [← skip_current, ← skip_current, skip_add]

theorem token_after (s : State) (k : Nat) (marks : List Mark) (i : Nat) :
    (s.after k marks).token i = s.token (k + i) := by
  rw [after, token_record, token_skip]

theorem diagnose_after (s : State) (k : Nat) (marks : List Mark) (m : Mark) :
    (s.after k marks).diagnose m = s.diagnose (m.shift k) := by
  rw [diagnose, token_after]
  rfl

@[simp] theorem after_zero (s : State) : s.after 0 [] = s := by
  simp [after, skip]

theorem after_one (s : State) : s.after 1 [] = s.advance := by
  simp only [after, List.map_nil, Array.append_empty]
  rfl

theorem after_after (s : State) (k k' : Nat) (marks marks' : List Mark) :
    (s.after k marks).after k' marks' =
      s.after (k + k') (marks ++ marks'.map (Mark.shift k)) := by
  have hmap : marks'.map (s.after k marks).diagnose =
      (marks'.map (Mark.shift k)).map s.diagnose := by
    simp [diagnose_after, Function.comp_def]
  rw [after, hmap]
  simp [after, skip_record, skip_add, Array.append_assoc]

theorem outcome_after {α : Type} (s : State) (k k' : Nat) (marks marks' : List Mark)
    (r : Except Mark α) : (s.after k marks).outcome k' marks' r =
      s.outcome (k + k') (marks ++ marks'.map (Mark.shift k)) (r.mapError (Mark.shift k)) := by
  cases r with
  | ok a => exact congrArg (Outcome.done a) (after_after s k k' marks marks')
  | error m =>
    show Outcome.failed ((s.after k marks).diagnose m) _ = .failed (s.diagnose (m.shift k)) _
    rw [diagnose_after, after_after]

theorem record_after (s : State) (k : Nat) (marks : List Mark) (m : Mark) :
    (s.after k marks).record (s.diagnose m) = s.after k (marks ++ [m]) := by
  have hpush : (s.diagnostics ++ (marks.map s.diagnose).toArray).push (s.diagnose m) =
      s.diagnostics ++ ((marks ++ [m]).map s.diagnose).toArray := by
    simp [-Array.toList_inj]
  simp only [record, after, hpush]

theorem AgreesFor.mono (h : AgreesFor f g n s s') {m : Nat} (hle : m ≤ n) : AgreesFor f g m s s' :=
  fun i hi => h i (Nat.lt_of_lt_of_le hi hle)

theorem AgreesFor.after (h : AgreesFor f g (k + n) s s') :
    AgreesFor f g n (s.after k marks) (s'.after k marks) := by
  intro i hi
  rw [token_after, token_after]
  exact h (k + i) (by omega)

theorem AgreesFor.peek_kind (h : AgreesFor f g n s s') (hn : 1 < n) :
    s.peek.kind = s'.peek.kind := by
  have hpeek : respan f s.peek = respan g s'.peek := h 1 hn
  simpa using congrArg Token.kind hpeek

end State

namespace Parse

variable {ι κ α β : Type} [Spanned ι] [Spanned κ] [Spanned α] [Spanned β]

/-- From the state `s` with the parameter `x` the parser `p 0` is starved, or what it does depends
on no more than the tokens up to the one ahead of where it stops. That is then what `p n` does, too,
which is the same parser with `n` more budget. -/
def LocalAt (p : Nat → ι → Parse α) (x : ι) (s : State) : Prop :=
  p 0 x s = .starved ∨ ∃ k marks r, p 0 x s = s.outcome k marks r ∧
    ∀ n f g x' s', respan f x = respan g x' → s.AgreesFor f g (k + 2) s' →
      ∃ r', respan f r = respan g r' ∧ p n x' s' = s'.outcome k marks r'

def Local (p : Nat → ι → Parse α) : Prop := ∀ x s, LocalAt p x s

namespace Local

theorem pure {a : ι → α} (ha : ∀ f x, respan f (a x) = a (respan f x)) :
    Local fun _ x => (Pure.pure (a x) : Parse α) := by
  intro x s
  refine .inr ⟨0, [], .ok (a x), by simp [State.outcome, pure_apply], fun n f g x' s' hx _ => ?_⟩
  refine ⟨.ok (a x'), ?_, by simp [State.outcome, pure_apply]⟩
  show Except.ok (respan f (a x)) = Except.ok (respan g (a x'))
  rw [ha, ha, hx]

theorem starve {p : Nat → ι → Parse α} (hp : p 0 = fun _ => Parse.starve) : Local p := fun x s =>
  .inl (by rw [hp]; rfl)

/-- Parameters may be made of others if their spans are. -/
theorem comp {p : Nat → κ → Parse α} (h : Local p) {e : ι → κ}
    (he : ∀ f x, respan f (e x) = e (respan f x)) : Local fun n x => p n (e x) := by
  intro x s
  refine (h (e x) s).imp id ?_
  rintro ⟨k, marks, r, hr, hcont⟩
  exact ⟨k, marks, r, hr, fun n f g x' s' hx => hcont n f g (e x') s' (by rw [he, he, hx])⟩

theorem bind {p : Nat → ι → Parse α} {q : Nat → ι → α → Parse β} (hp : Local p)
    (hq : Local fun n (y : ι × α) => q n y.1 y.2) : Local fun n x => p n x >>= q n x := by
  intro x s
  rcases hp x s with hstarved | ⟨k, marks, r, hr, hcont⟩
  · exact .inl (bind_starved hstarved)
  cases r with
  | error m =>
    refine .inr ⟨k, marks, .error m, bind_failed hr, fun n f g x' s' hx hs => ?_⟩
    obtain ⟨r', hr', hrun⟩ := hcont n f g x' s' hx hs
    cases r' with
    | error m' =>
      cases hr'
      exact ⟨.error m, rfl, bind_failed hrun⟩
    | ok a' => cases hr'
  | ok a =>
    rcases hq (x, a) (s.after k marks) with hstarved | ⟨k', marks', r', hr', hcont'⟩
    · exact .inl ((bind_done hr).trans hstarved)
    refine .inr ⟨k + k', marks ++ marks'.map (Mark.shift k), r'.mapError (Mark.shift k), ?_, ?_⟩
    · exact (bind_done hr).trans (hr'.trans (State.outcome_after ..))
    · intro n f g x' s' hx hs
      obtain ⟨b, hb, hrun⟩ := hcont n f g x' s' hx (hs.mono (by omega))
      cases b with
      | error m' => cases hb
      | ok a' =>
        have ha : respan f a = respan g a' := Except.ok.inj hb
        obtain ⟨r'', hr'', hrun'⟩ := hcont' n f g (x', a') (s'.after k marks)
          (Prod.ext hx ha) (State.AgreesFor.after (hs.mono (by omega)))
        refine ⟨r''.mapError (Mark.shift k), ?_, ?_⟩
        · rw [respan_mapError, respan_mapError, hr'']
        · exact (bind_done hrun).trans (hrun'.trans (State.outcome_after ..))

theorem current : Local fun _ (_ : ι) => Parse.current := by
  refine fun x s => .inr ⟨0, [], .ok s.current, by simp [State.outcome, Parse.current], ?_⟩
  intro n f g x' s' hx hs
  exact ⟨.ok s'.current, congrArg Except.ok (hs 0 (by omega)),
    by simp [State.outcome, Parse.current]⟩

theorem ahead : Local fun _ (_ : ι) => Parse.ahead := by
  refine fun x s => .inr ⟨0, [], .ok s.peek.kind, by simp [State.outcome, Parse.ahead], ?_⟩
  intro n f g x' s' hx hs
  have hpeek : s.peek.kind = s'.peek.kind := hs.peek_kind (by omega)
  exact ⟨.ok s'.peek.kind, congrArg Except.ok hpeek, by simp [State.outcome, Parse.ahead]⟩

theorem advance : Local fun _ (_ : ι) => Parse.advance := by
  refine fun x s => .inr ⟨1, [], .ok (), ?_, ?_⟩
  · simp [State.outcome, Parse.advance, State.after_one]
  intro n f g x' s' hx hs
  exact ⟨.ok (), rfl, by simp [State.outcome, Parse.advance, State.after_one]⟩

theorem expect (kind : Kind) : Local fun _ (_ : ι) => Parse.expect kind := by
  intro x s
  by_cases hk : s.peek.kind = kind
  · refine .inr ⟨1, [], .ok s.peek, ?_, fun n f g x' s' hx hs => ?_⟩
    · simp [State.outcome, Parse.expect, State.after_one, hk]
    · have hpeek : respan f s.peek = respan g s'.peek := hs 1 (by omega)
      have hk' : s'.peek.kind = kind := (congrArg Token.kind hpeek).symm.trans hk
      exact ⟨.ok s'.peek, congrArg Except.ok hpeek,
        by simp [State.outcome, Parse.expect, State.after_one, hk']⟩
  · refine .inr ⟨0, [], .error (.unexpected kind s.peek.kind, 1), ?_, fun n f g x' s' hx hs => ?_⟩
    · simp [State.outcome, Parse.expect, hk]
      rfl
    · have hpeek : s.peek.kind = s'.peek.kind := hs.peek_kind (by omega)
      refine ⟨.error (.unexpected kind s.peek.kind, 1), rfl, ?_⟩
      rw [hpeek] at hk ⊢
      simp [State.outcome, Parse.expect, hk]
      rfl

theorem recover {p : Nat → ι → Parse α} (hp : Local p) :
    Local fun n x => Parse.recover (p n x) := by
  intro x s
  rcases hp x s with hstarved | ⟨k, marks, r, hr, hcont⟩
  · exact .inl (by simp only [Parse.recover, hstarved])
  cases r with
  | ok a =>
    refine .inr ⟨k, marks, .ok (some a), by simp only [Parse.recover, hr, State.outcome], ?_⟩
    intro n f g x' s' hx hs
    obtain ⟨b, hb, hrun⟩ := hcont n f g x' s' hx hs
    cases b with
    | error m' => cases hb
    | ok a' =>
      have ha : respan f a = respan g a' := Except.ok.inj hb
      exact ⟨.ok (some a'), congrArg (fun a => Except.ok (some a)) ha,
        by simp only [Parse.recover, hrun, State.outcome]⟩
  | error m =>
    refine .inr ⟨k, marks ++ [m], .ok none, ?_, fun n f g x' s' hx hs => ?_⟩
    · simp only [Parse.recover, hr, State.outcome, State.record_after]
    obtain ⟨b, hb, hrun⟩ := hcont n f g x' s' hx hs
    cases b with
    | ok a' => cases hb
    | error m' =>
      cases hb
      exact ⟨.ok none, rfl, by simp only [Parse.recover, hrun, State.outcome, State.record_after]⟩

/-- What is read from the current token, or a failure there. -/
theorem read {δ : Type} {p : Parse α} (read : Token → Option δ) (node : Token → δ → α)
    (fault : Token → Fault)
    (hp : ∀ s, p s = (read s.current).elim (.failed ⟨fault s.current, s.current.position⟩ s)
      fun d => .done (node s.current d) s)
    (hread : ∀ f t, read (respan f t) = read t) (hfault : ∀ f t, fault (respan f t) = fault t)
    (hnode : ∀ f t d, respan f (node t d) = node (respan f t) d) : Local fun _ (_ : ι) => p := by
  intro x s
  have hrun (u : State) : p u = u.outcome 0 []
      ((read u.current).elim (.error (fault u.current, 0)) fun d => .ok (node u.current d)) := by
    rw [hp]
    cases read u.current with
    | none =>
      rw [Option.elim_none, Option.elim_none, State.outcome, State.after_zero]
      rfl
    | some d => rw [Option.elim_some, Option.elim_some, State.outcome, State.after_zero]
  refine .inr ⟨0, [], _, hrun s, fun n f g x' s' hx hs => ⟨_, ?_, hrun s'⟩⟩
  have hcurrent : respan f s.current = respan g s'.current := hs 0 (by omega)
  rw [← hread f, ← hread g s'.current, ← hfault f, ← hfault g s'.current, hcurrent]
  cases read (respan g s'.current) with
  | none => rfl
  | some d =>
    refine congrArg Except.ok ?_
    rw [hnode, hnode, hcurrent]

/-- What has no spans is the same in both runs. -/
theorem fixed {q : Nat → ι → κ → Parse β} (hκ : ∀ f (c : κ), respan f c = c)
    (h : ∀ c, Local fun n x => q n x c) : Local fun n (y : ι × κ) => q n y.1 y.2 := by
  rintro ⟨x, c⟩ s
  refine (h c x s).imp id ?_
  rintro ⟨k, marks, r, hr, hcont⟩
  refine ⟨k, marks, r, hr, ?_⟩
  rintro n f g ⟨x', c'⟩ s' hy hs
  obtain ⟨hx, hc⟩ := Prod.mk.inj hy
  rw [hκ, hκ] at hc
  subst hc
  exact hcont n f g x' s' hx hs

theorem ahead_bind {q : Nat → ι → Kind → Parse β} (h : ∀ kind, Local fun n x => q n x kind) :
    Local fun n x => Parse.ahead >>= q n x := ahead.bind (fixed (fun _ _ => rfl) h)

theorem kind_bind {q : Nat → ι → Kind → Parse β} (h : ∀ kind, Local fun n x => q n x kind) :
    Local fun n x => Parse.current >>= fun t => q n x t.kind :=
  current.bind ((fixed (fun _ _ => rfl) h).comp (e := fun y : ι × Token => (y.1, y.2.kind))
    fun _ _ => rfl)

theorem current_bind {q : Nat → ι → Token → Parse β}
    (h : Local fun n (y : ι × Token) => q n y.1 y.2) :
    Local fun n x => Parse.current >>= q n x := current.bind h

theorem advance_bind {q : Nat → ι → Parse β} (h : Local q) :
    Local fun n x => Parse.advance >>= fun _ => q n x :=
  advance.bind (h.comp (e := Prod.fst) (by simp))

theorem need_bind {kind : Kind} {q : Nat → ι → Parse β} (h : Local q) :
    Local fun n x => Parse.need kind >>= fun _ => q n x := by
  unfold Parse.need
  simp only [bind_assoc, pure_bind]
  exact (expect kind).bind (h.comp (e := Prod.fst) (by simp))

theorem name_bind {q : Nat → ι → Ident → Parse β} (h : Local fun n (y : ι × Ident) => q n y.1 y.2) :
    Local fun n x => parseName >>= q n x := by
  unfold parseName
  simp only [bind_assoc, pure_bind]
  exact (expect .identifier).bind
    (h.comp (e := fun y : ι × Token => (y.1, ⟨y.2, y.2.text⟩)) (by simp))

theorem semicolon_bind {q : Nat → ι → Parse β} (h : Local q) :
    Local fun n x => skipSemicolon >>= fun _ => q n x := by
  unfold skipSemicolon
  simp only [bind_assoc]
  refine ahead_bind fun kind => ?_
  split
  · exact advance_bind h
  · simpa only [pure_bind] using h

end Local

end Parse

/-! ## Rules -/

open Parse

/-- The rule for expressions that start with the current token. -/
def Grammar.headRule (g : Grammar) : Parse HeadRule := do
  let token ← current
  match g.heads token.kind with
  | none => fail ⟨.noExpression token.kind token.text, token.position⟩
  | some rule => pure rule

theorem Grammar.layer_expr (g : Grammar) (self : Parses) (min : Power) :
    g.layer self (.expr min) =
      g.headRule >>= fun rule => rule.parse self >>= fun left => self (.climb min left) := by
  simp only [Grammar.layer, headRule, bind_assoc]
  congr 1
  funext token
  cases g.heads token.kind <;> rfl

theorem Parse.Local.headRule {ι : Type} [Spanned ι] (g : Grammar) :
    Parse.Local fun _ (_ : ι) => g.headRule := by
  refine .read (fun t => g.heads t.kind) (fun _ rule => rule)
    (fun t => .noExpression t.kind t.text) (fun s => ?_) (fun _ _ => rfl) (fun _ _ => rfl)
    fun _ _ _ => rfl
  simp only [Grammar.headRule, Bind.bind, Parse.current]
  cases g.heads s.current.kind <;> rfl

/-- A parser that is local in every goal. -/
structure Parses.Local (parse : Nat → Parses) : Prop where
  expr (min : Power) {ι : Type} [Spanned ι] : Parse.Local fun n (_ : ι) => parse n (.expr min)
  climb (min : Power) : Parse.Local fun n (left : Expr) => parse n (.climb min left)
  elements {ι : Type} [Spanned ι] : Parse.Local fun n (_ : ι) => parse n .elements
  names {ι : Type} [Spanned ι] : Parse.Local fun n (_ : ι) => parse n .names
  entries {ι : Type} [Spanned ι] : Parse.Local fun n (_ : ι) => parse n .entries
  stmt {ι : Type} [Spanned ι] : Parse.Local fun n (_ : ι) => parse n .stmt
  stmts (scope : Scope) {ι : Type} [Spanned ι] : Parse.Local fun n (_ : ι) => parse n (.stmts scope)

namespace Parses.Local

variable {self : Nat → Parses} {ι : Type} [Spanned ι]

theorem slot (h : Local self) (min : Power) : Parse.Local fun n (_ : ι) => parseSlot (self n) min :=
  (h.expr min).recover

theorem list (h : Local self) (closing : Kind) :
    Parse.Local fun n (_ : ι) => parseList (self n) closing := by
  unfold parseList
  refine .ahead_bind fun kind => ?_
  split
  · exact .advance_bind (.pure (by simp))
  · exact .advance_bind ((h.expr _).bind (h.elements.bind (.need_bind (.pure (by simp)))))

theorem parameters (h : Local self) : Parse.Local fun n (_ : ι) => parseParameters (self n) := by
  unfold parseParameters
  refine .ahead_bind fun kind => ?_
  split
  · exact .advance_bind (.pure (by simp))
  · exact .name_bind (h.names.bind (.need_bind (.pure (by simp))))

theorem block (h : Local self) : Parse.Local fun n (_ : ι) => parseBlock (self n) := by
  unfold parseBlock
  exact .current_bind (.advance_bind ((h.stmts _).bind (.pure (by simp))))

theorem alternative (h : Local self) : Parse.Local fun n (_ : ι) => parseElse (self n) := by
  unfold parseElse
  refine .ahead_bind fun kind => ?_
  split
  · exact .advance_bind (.need_bind (h.block.bind (.pure (by simp))))
  · exact .pure (by simp)

theorem head (h : Local self) (rule : HeadRule) :
    Parse.Local fun n (_ : ι) => rule.parse (self n) := by
  cases rule <;> simp only [HeadRule.parse]
  case ident | boolean | string => exact .current_bind (.pure (by simp))
  case integer =>
    refine .read (fun t => Literal.integer? t.text) (fun t (value : Nat) => Expr.integer t value)
      (fun t => .badInteger t.text) (fun s => ?_) (fun _ _ => rfl) (fun _ _ => rfl) fun _ _ _ => rfl
    simp only [Bind.bind, current]
    cases Literal.integer? s.current.text <;> rfl
  case float =>
    refine .read (fun t => Literal.decimal? t.text) Expr.float (fun t => .badFloat t.text)
      (fun s => ?_) (fun _ _ => rfl) (fun _ _ => rfl) fun _ _ _ => rfl
    simp only [Bind.bind, current]
    cases Literal.decimal? s.current.text <;> rfl
  case unary => exact .current_bind (.advance_bind ((h.slot _).bind (.pure (by simp))))
  case group => exact .advance_bind ((h.expr _).bind (.need_bind (.pure (by simp))))
  case cond =>
    exact .current_bind (.need_bind (.advance_bind ((h.slot _).bind (.need_bind (.need_bind
      (h.block.bind (h.alternative.bind (.pure (by simp)))))))))
  case function =>
    exact .current_bind (.need_bind (h.parameters.bind (.need_bind (h.block.bind
      (.pure (by simp))))))
  case array => exact .current_bind ((h.list _).bind (.pure (by simp)))
  case hash => exact .current_bind (h.entries.bind (.need_bind (.pure (by simp))))

theorem tail (h : Local self) (power : Power) (rule : TailRule) :
    Parse.Local fun n (left : Expr) => rule.parse (self n) left power := by
  cases rule <;> simp only [TailRule.parse]
  case binary => exact .current_bind (.advance_bind ((h.slot _).bind (.pure (by simp))))
  case call =>
    refine .current_bind ((h.list _).recover.bind (.pure fun f y => ?_))
    cases h : y.2 <;> simp [h]
  case index =>
    exact .current_bind (.advance_bind ((h.expr _).bind (.need_bind (.pure (by simp)))))

theorem statement (h : Local self) (rule : StmtRule) :
    Parse.Local fun n (_ : ι) => rule.parse (self n) := by
  cases rule <;> simp only [StmtRule.parse]
  case lookup => exact h.stmt
  case binding =>
    exact .current_bind (.name_bind (.need_bind (.advance_bind ((h.slot _).bind
      (.semicolon_bind (.pure (by simp)))))))
  case ret =>
    exact .current_bind (.advance_bind ((h.slot _).bind (.semicolon_bind (.pure (by simp)))))
  case bare => exact .current_bind ((h.slot _).bind (.semicolon_bind (.pure (by simp))))
  case block => exact h.block.bind (.pure (by simp))

theorem layer (h : Local self) (g : Grammar) : Parses.Local fun n => g.layer (self n) where
  expr min ι _ := by
    simp only [Grammar.layer_expr]
    refine (Parse.Local.headRule g).bind (.fixed (q := fun n _ (rule : HeadRule) => do
      let left ← rule.parse (self n)
      self n (.climb min left)) (fun _ _ => rfl) fun rule => ?_)
    exact (h.head rule).bind ((h.climb min).comp (e := Prod.snd) (by simp))
  climb min := by
    simp only [Grammar.layer]
    refine .ahead_bind fun kind => ?_
    split
    · exact .pure fun _ _ => rfl
    · rename_i power rule _
      split
      · exact .advance_bind ((h.tail power rule).bind ((h.climb min).comp (by simp)))
      · exact .pure fun _ _ => rfl
  elements {ι _} := by
    simp only [Grammar.layer]
    refine .ahead_bind fun kind => ?_
    split
    · exact .advance_bind (.advance_bind ((h.expr _).bind (h.elements.bind (.pure (by simp)))))
    · exact .pure (by simp)
  names {ι _} := by
    simp only [Grammar.layer]
    refine .ahead_bind fun kind => ?_
    split
    · exact .advance_bind (.name_bind (h.names.bind (.pure (by simp))))
    · exact .pure (by simp)
  entries {ι _} := by
    simp only [Grammar.layer]
    refine .ahead_bind fun kind => ?_
    split
    · exact .pure (by simp)
    · refine .advance_bind ((h.expr _).bind (.need_bind (.advance_bind ((h.expr _).bind
        (.ahead_bind fun kind' => ?_)))))
      split
      · exact .need_bind (h.entries.bind (.pure (by simp)))
      · exact h.entries.bind (.pure (by simp))
  stmt {ι _} :=
    .kind_bind (q := fun n _ kind => ((g.stmts kind).getD .bare).parse (self n)) fun kind =>
      h.statement _
  stmts scope {ι _} := by
    refine .kind_bind (q := fun n _ kind => if scope.endsAt kind then pure [] else do
      let first ← Parse.recover (self n .stmt)
      advance
      let others ← self n (.stmts scope)
      pure (first.toList ++ others)) fun kind => ?_
    split
    · exact .pure (by simp)
    · refine h.stmt.recover.bind (.advance_bind ((h.stmts scope).bind (.pure fun f y => ?_)))
      cases h : y.1.2 <;> simp [h]

end Parses.Local

theorem Grammar.run_local (g : Grammar) (budget : Nat) :
    Parses.Local fun n => g.run (budget + n) := by
  induction budget with
  | zero =>
    exact ⟨fun _ => .starve rfl, fun _ => .starve rfl, .starve rfl, .starve rfl, .starve rfl,
      .starve rfl, fun _ => .starve rfl⟩
  | succ budget ih =>
    simp only [Nat.succ_add]
    exact ih.layer g

/-! ## Calls -/

namespace Call

variable {α : Type}

/-- How spans are changed in what a call gives. -/
@[reducible] def spanned : Call α → Spanned α
  | program => inferInstance
  | stmt _ => inferInstance
  | head _ | tail .. | expr _ => inferInstance
  | slot _ => inferInstance
  | block => inferInstance
  | list _ => inferInstance

/-- The answers of two calls are the same up to spans. -/
def Same (c : Call α) (r r' : Except Mark α) : Prop :=
  letI := c.spanned
  ScriptFront.Alike r r'

/-- The calls are the same up to the spans of the operand that they go on with. -/
def Alike : Call α → Call α → Prop
  | tail left power rule, c => ∃ left', ScriptFront.Alike left left' ∧ c = tail left' power rule
  | c, c' => c' = c

end Call

/-- The first `m` tokens have the same kinds and texts. -/
def State.Agrees (m : Nat) (s s' : State) : Prop :=
  ∀ i < m, (s.token i).kind = (s'.token i).kind ∧ (s.token i).text = (s'.token i).text

theorem State.Agrees.agreesFor {m : Nat} {s s' : State} (h : s.Agrees m s') :
    s.AgreesFor Span.forget Span.forget m s' := fun i hi => Token.alike_iff.2 (h i hi)

/-- What is read depends on the text only, up to spans. -/
theorem Tape.next_alike {tape tape' : Tape} (h : tape.pending = tape'.pending) :
    Alike tape.next.1 tape'.next.1 ∧ tape.next.2.pending = tape'.next.2.pending := by
  have hskip : tape.skipBlank.pending = tape'.skipBlank.pending := by
    rw [skipBlank_pending, skipBlank_pending, h]
  cases hp : tape'.skipBlank.pending with
  | nil =>
    rw [next_eq_none hp, next_eq_none (hskip.trans hp)]
    exact ⟨rfl, hskip⟩
  | cons c rest =>
    rw [next_eq_some hp, next_eq_some (hskip.trans hp)]
    exact ⟨rfl, rfl⟩

theorem Lexer.nextOrEnd_alike {lx lx' : Lexer} (h : lx.pending = lx'.pending) :
    Alike lx.nextOrEnd.1 lx'.nextOrEnd.1 ∧ lx.nextOrEnd.2.pending = lx'.nextOrEnd.2.pending := by
  obtain ⟨hfirst, hrest⟩ := @Tape.next_alike lx.tape lx'.tape h
  rw [← lx.next_tape.1, ← lx'.next_tape.1] at hfirst
  rw [← lx.next_tape.2, ← lx'.next_tape.2] at hrest
  unfold nextOrEnd
  generalize lx.next = next at hfirst hrest
  generalize lx'.next = next' at hfirst hrest
  obtain ⟨first, after⟩ := next
  obtain ⟨first', after'⟩ := next'
  cases first with
  | none =>
    cases first' with
    | none => exact ⟨rfl, hrest⟩
    | some t' => cases hfirst
  | some t =>
    cases first' with
    | none => cases hfirst
    | some t' => exact ⟨Option.some.inj hfirst, hrest⟩

theorem State.token_alike {s s' : State} (hcurrent : Alike s.current s'.current)
    (hpeek : Alike s.peek s'.peek) (hlexer : s.lexer.pending = s'.lexer.pending) (i : Nat) :
    Alike (s.token i) (s'.token i) := by
  induction i generalizing s s' with
  | zero => exact hcurrent
  | succ i ih =>
    obtain ⟨hnext, hrest⟩ := Lexer.nextOrEnd_alike hlexer
    exact @ih s.advance s'.advance hpeek hnext hrest

theorem Call.parse_local {self : Nat → Parses} (h : Parses.Local self) {α : Type} (c : Call α)
    (s : State) : c.parse (self 0) s = .starved ∨
      ∃ k marks r, c.parse (self 0) s = s.outcome k marks r ∧
        ∀ n s' c', s.Agrees (k + 2) s' → c.Alike c' →
          ∃ r', c.Same r r' ∧ c'.parse (self n) s' = s'.outcome k marks r' := by
  -- All calls but one have no parameter with spans.
  have key (hc : ∀ c', c.Alike c' → c' = c)
      (hlocal : @Parse.Local Unit α _ c.spanned fun n _ => c.parse (self n)) :
      c.parse (self 0) s = .starved ∨ ∃ k marks r, c.parse (self 0) s = s.outcome k marks r ∧
        ∀ n s' c', s.Agrees (k + 2) s' → c.Alike c' →
          ∃ r', c.Same r r' ∧ c'.parse (self n) s' = s'.outcome k marks r' := by
    refine (hlocal () s).imp id ?_
    rintro ⟨k, marks, r, hr, hcont⟩
    refine ⟨k, marks, r, hr, fun n s' c' hs hcalls => ?_⟩
    rw [hc c' hcalls]
    exact hcont n _ _ () s' rfl hs.agreesFor
  cases c
  case tail left power rule =>
    refine (h.tail power rule left s).imp id ?_
    rintro ⟨k, marks, r, hr, hcont⟩
    refine ⟨k, marks, r, hr, fun n s' c' hs hcalls => ?_⟩
    obtain ⟨left', hleft, rfl⟩ := hcalls
    exact hcont n _ _ left' s' hleft hs.agreesFor
  all_goals refine key (fun _ heq => heq) ?_
  case program => exact (h.stmts .script).bind (.pure fun _ _ => rfl)
  case stmt rule => exact h.statement rule
  case head rule => exact h.head rule
  case expr min => exact h.expr min
  case slot min => exact h.slot min
  case block => exact h.block
  case list closing => exact h.list closing

namespace Parser

/-- To answer `r` behind `k` tokens, with the marks recorded. -/
def answer {α : Type} (p : Parser) (k : Nat) (marks : List Mark) (r : Except Mark α) : Attempt α :=
  some (r.mapError p.state.diagnose, { p with state := p.state.after k marks })

theorem attempt_of_outcome {p : Parser} {α : Type} {rule : Parses → Parse α} {k : Nat}
    {marks : List Mark} {r : Except Mark α}
    (h : rule (p.grammar.run p.budget) p.state = p.state.outcome k marks r) :
    p.attempt rule = p.answer k marks r := by
  unfold attempt
  rw [h]
  cases r <;> rfl

/-- A call of a parser depends on the kinds and texts of tokens, up to the one ahead of where it
stops. From a state that agrees with this one as far as that, it moves on by as many tokens, gives
the same up to spans, and records the same faults at the same tokens behind what is recorded
already. -/
theorem call_local {g : Grammar} (hg : g.Grounded) (s : State) {α : Type} (c : Call α) :
    ∃ k marks r, (Parser.mk g s).call c = (Parser.mk g s).answer k marks r ∧
      ∀ m s' c', k + 1 < m → s.Agrees m s' → c.Alike c' →
        ∃ r', c.Same r r' ∧ (Parser.mk g s').call c' = (Parser.mk g s').answer k marks r' := by
  have hagree (u : State) (n : Nat) (c : Call α) :
      Agree (c.parse (g.run (Parser.mk g u).budget)) (c.parse (g.run (n + (Parser.mk g u).budget)))
        u := by
    have hle : 4 * u.left + 4 ≤ (Parser.mk g u).budget := (Parser.mk g u).budget_le
    exact Call.agree hg hle (by omega) c
  rcases c.parse_local (g.run_local (Parser.mk g s).budget) s with
    hstarved | ⟨k, marks, r, hr, hcont⟩
  · exact ((hagree s 0 c).2 hstarved).elim
  refine ⟨k, marks, r, ?_, fun m s' c' hm hs hc => ?_⟩
  · rw [call_eq_attempt]
    exact attempt_of_outcome hr
  · obtain ⟨r', hsame, hr'⟩ :=
      hcont (Parser.mk g s').budget s' c' (fun i hi => hs i (by omega)) hc
    refine ⟨r', hsame, ?_⟩
    rw [call_eq_attempt]
    exact attempt_of_outcome ((hagree s' _ c').1.trans hr')

end Parser

/-- A statement of the same text in two files, one of them with a fault already recorded. -/
theorem call_local_files :
    let s := State.ofLexer (.ofString "a" "let x = [1, f(] )")
    let s' := (State.ofLexer (.ofString "b" "let x = [1, f(] )")).record ⟨.badFloat "", ⟨0, "b"⟩⟩
    let c : Call Stmt := .stmt .lookup
    Grammar.standard.Grounded ∧ ∃ k marks r r',
      (Parser.mk .standard s).call c = (Parser.mk .standard s).answer k marks r ∧
      c.Same r r' ∧ (Parser.mk .standard s').call c = (Parser.mk .standard s').answer k marks r' := by
  intro s s' c
  obtain ⟨k, marks, r, hr, hcont⟩ := Parser.call_local Grammar.standard_grounded s c
  have hcurrent : Alike s.current s'.current := Token.alike_iff.2 (by decide)
  have hpeek : Alike s.peek s'.peek := Token.alike_iff.2 (by decide)
  have hs : s.Agrees (k + 2) s' := fun i _ =>
    Token.alike_iff.1 (State.token_alike hcurrent hpeek (by decide) i)
  obtain ⟨r', hsame, hr'⟩ := hcont (k + 2) s' c (by omega) hs rfl
  exact ⟨Grammar.standard_grounded, k, marks, r, r', hr, hsame, hr'⟩

end ScriptFront
