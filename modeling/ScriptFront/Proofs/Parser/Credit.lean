import ScriptFront.Parser.Basic
import ScriptFront.Proofs.Parser.Cursor
import ScriptFront.Proofs.Parser.Ensures
import ScriptFront.Proofs.Tree.Bill

/-!
# Paying for a tree

A parser that moves on to a token may keep that token once, and once more as a copy; a diagnostic
that it records pays for an empty slot. `s.Pays credit bill t` says that the bill is paid on the way
from `s` to `t`, with `credit` in hand, and `p.Affords credit cost s` that `p` pays for what it
gives. A part of a rule is given what it needs, and the rest of the credit is kept for what follows
(`Affords.bind`). So each rule pays for its node with what its parts are worth and with its own
token, and a run of a grammar pays for its tree (`Grammar.run_affords`).
-/

namespace ScriptFront

/-! ## Payments -/

/-- What a token is worth that can be kept, but not copied as well. -/
def Token.fresh (t : Token) : Bill := if t.kind = .eof then 0 else .token t

/-- What is gained by moving on to a token. -/
def Token.arrival (t : Token) : Bill := if t.kind = .eof then 0 else .token t + .copy t

namespace Token

variable {t : Token}

theorem arrival_of_ne (h : t.kind ≠ .eof) : t.arrival = .token t + .copy t := if_neg h

theorem fresh_of_ne (h : t.kind ≠ .eof) : t.fresh = .token t := if_neg h

/-- A token can be copied as often as it can be kept. -/
theorem arrival_copies (t : Token) : t.arrival.2.1 = t.arrival.1 := by
  unfold arrival
  split <;> rfl

theorem arrival_holes (t : Token) : t.arrival.2.2 = 0 := by
  unfold arrival
  split <;> rfl

theorem fresh_le_token (t : Token) : t.fresh ≤ .token t := by
  unfold fresh
  split
  · exact zero_le
  · exact le_rfl

theorem fresh_le_arrival (t : Token) : t.fresh ≤ t.arrival := by
  by_cases h : t.kind = .eof
  · rw [fresh, if_pos h]
    exact zero_le
  · rw [fresh_of_ne h, arrival_of_ne h]
    exact le_self_add

end Token

namespace Grammar

variable {g : Grammar} {t : Token}

/-- A token is worth its price, unless it is an end that is counted. -/
theorem price_le_fresh (h : t.kind = .eof → g.rulesEnd) : g.price t ≤ t.fresh := by
  by_cases hkind : t.kind = .eof
  · have hcounts : g.counts t = false := by simp [counts, hkind, h hkind]
    have hfree : g.price t = 0 := by simp [price, prices, hcounts]
    exact hfree.le.trans zero_le
  · rw [Token.fresh_of_ne hkind]
    exact g.price_le_token t

theorem price_le_fresh_of_head {rule : HeadRule} (h : g.heads t.kind = some rule) :
    g.price t ≤ t.fresh :=
  price_le_fresh fun hkind => by simp [rulesEnd, ← hkind, h]

theorem price_le_fresh_of_tail {power : Power} {rule : TailRule}
    (h : g.tails t.kind = some (power, rule)) : g.price t ≤ t.fresh :=
  price_le_fresh fun hkind => by simp [rulesEnd, ← hkind, h]

end Grammar

namespace State

/-- The tokens ahead that are no ends. -/
def unread (s : State) : Multiset Token :=
  ((s.peek :: s.lexer.tokens).filter (·.kind ≠ .eof) : List Token)

theorem unread_advance (s : State) : s.peek.arrival.1 + s.advance.unread = s.unread := by
  have hrest : s.advance.unread = (s.lexer.tokens.filter (·.kind ≠ .eof) : List Token) := by
    unfold unread
    cases h : s.lexer.tokens with
    | nil =>
      obtain ⟨hpeek, hrest⟩ := advance_of_nil h
      simp [hpeek, hrest]
    | cons t ts =>
      obtain ⟨hpeek, hrest⟩ := advance_of_cons h
      rw [hpeek, hrest]
  rw [hrest]
  by_cases h : s.peek.kind = .eof
  · simp [Token.arrival, unread, h]
  · simp [Token.arrival, unread, h, Bill.token, Bill.copy]

/-- With `credit` in hand the bill is paid on the way from `s` to `t`: tokens by those that are not
ahead any more, empty slots by the diagnostics that are recorded. -/
structure Pays (s : State) (credit bill : Bill) (t : State) : Prop where
  tokens : bill.1 + t.unread ≤ credit.1 + s.unread
  copies : bill.2.1 + t.unread ≤ credit.2.1 + s.unread
  holes : bill.2.2 + s.diagnostics.size ≤ credit.2.2 + t.diagnostics.size

namespace Pays

variable {s t u : State} {b c d : Bill}

theorem refl (h : b ≤ c) : s.Pays c b s :=
  ⟨add_le_add_left h.1 _, add_le_add_left h.2.1 _, add_le_add_left h.2.2 _⟩

theorem trans (h : s.Pays c b t) (h' : t.Pays b d u) : s.Pays c d u where
  tokens := h'.tokens.trans h.tokens
  copies := h'.copies.trans h.copies
  holes := by
    have := h.holes
    have := h'.holes
    omega

theorem mono {b' c' : Bill} (h : s.Pays c b t) (hc : c ≤ c') (hb : b' ≤ b) : s.Pays c' b' t :=
  (refl hc).trans (h.trans (refl hb))

/-- What is not needed on the way is still there. -/
theorem frame (h : s.Pays c b t) (d : Bill) : s.Pays (c + d) (b + d) t where
  tokens := by
    simpa only [Prod.fst_add, add_right_comm] using add_le_add_left h.tokens d.1
  copies := by
    simpa only [Prod.fst_add, Prod.snd_add, add_right_comm] using add_le_add_left h.copies d.2.1
  holes := by
    have := h.holes
    simp only [Prod.snd_add]
    omega

theorem advance (s : State) (c : Bill) : s.Pays c (s.peek.arrival + c) s.advance := by
  have hunread := s.unread_advance
  refine ⟨?_, ?_, ?_⟩
  · rw [Prod.fst_add, ← hunread, add_assoc, add_left_comm]
  · rw [Prod.snd_add, Prod.fst_add, s.peek.arrival_copies, ← hunread, add_assoc, add_left_comm]
  · simp [s.peek.arrival_holes]

theorem record (s : State) (d : Diagnostic) : s.Pays 0 .hole (s.record d) where
  tokens := le_rfl
  copies := le_rfl
  holes := by
    simp only [State.record, Array.size_push, Bill.hole]
    omega

end Pays

end State

/-! ## Parsers that pay -/

namespace Parse

variable {α β : Type} {g : Grammar} {s : State} {c d : Bill}

/-- From `s` and with `credit` in hand, `p` pays for what it gives. -/
def Affords (credit : Bill) (p : Parse α) (cost : α → Bill) (s : State) : Prop :=
  p.Ensures (fun a t => s.Pays credit (cost a) t) (fun _ t => s.Pays credit 0 t) s

namespace Affords

variable {p : Parse α} {cost : α → Bill} {cost' : β → Bill}

theorem weaken (h : Affords c p cost s) (hle : c ≤ d) : Affords d p cost s :=
  h.mono (fun _ _ ht => ht.mono hle le_rfl) fun _ _ ht => ht.mono hle le_rfl

theorem pure {a : α} (h : cost a ≤ c) : Affords c (Pure.pure a) cost s := Ensures.pure (.refl h)

theorem fail {e : Diagnostic} : Affords c (Parse.fail e) cost s := Ensures.fail (.refl zero_le)

/-- All credit goes into the first part. -/
theorem bind_all {f : α → Parse β} (hp : Affords c p cost s)
    (hf : ∀ a t, Affords (cost a) (f a) cost' t) : Affords c (p >>= f) cost' s :=
  Ensures.bind hp fun a t ht =>
    (hf a t).mono (fun _ _ hu => ht.trans hu) fun _ _ hu => ht.trans hu

/-- The first part is given `c`, and `d` is kept for what goes on with it. -/
theorem bind {f : α → Parse β} (hp : Affords c p cost s)
    (hf : ∀ a t, Affords (cost a + d) (f a) cost' t) : Affords (c + d) (p >>= f) cost' s := by
  have hframe : Affords (c + d) p (fun a => cost a + d) s :=
    hp.mono (fun _ _ ht => ht.frame d) fun _ _ ht => (ht.frame d).mono le_rfl zero_le
  exact hframe.bind_all hf

/-- The first part needs no credit. -/
theorem bind_free {f : α → Parse β} (hp : Affords 0 p cost s)
    (hf : ∀ a t, Affords (cost a + d) (f a) cost' t) : Affords d (p >>= f) cost' s := by
  rw [← zero_add d]
  exact hp.bind hf

theorem current_bind {f : Token → Parse β} (h : Affords c (f s.current) cost' s) :
    Affords c (current >>= f) cost' s := h

theorem ahead_bind {f : Kind → Parse β} (h : Affords c (f s.peek.kind) cost' s) :
    Affords c (ahead >>= f) cost' s := h

/-- What goes on behind a payment. -/
theorem behind {t : State} {q : Parse α} (h : s.Pays c d t) (hq : Affords d q cost t) :
    q.Ensures (fun a u => s.Pays c (cost a) u) (fun _ u => s.Pays c 0 u) t :=
  hq.mono (fun _ _ hu => h.trans hu) fun _ _ hu => h.trans hu

/-- A move whose token may be kept and copied. -/
theorem arrive_bind {f : Unit → Parse β}
    (h : Affords (s.peek.arrival + c) (f ()) cost' s.advance) :
    Affords c (advance >>= f) cost' s := Ensures.advance_bind (behind (.advance s c) h)

/-- A move whose token may be kept. -/
theorem advance_bind {f : Unit → Parse β} (h : Affords (s.peek.fresh + c) (f ()) cost' s.advance) :
    Affords c (advance >>= f) cost' s :=
  arrive_bind (h.weaken (add_le_add_left s.peek.fresh_le_arrival c))

/-- A move whose token is dropped. -/
theorem skip_bind {f : Unit → Parse β} (h : Affords c (f ()) cost' s.advance) :
    Affords c (advance >>= f) cost' s := arrive_bind (h.weaken le_add_self)

theorem need_bind {kind : Kind} {f : Unit → Parse β} (h : Affords c (f ()) cost' s.advance) :
    Affords c (need kind >>= f) cost' s :=
  Ensures.need_bind (fun _ => behind (.mono (.advance s c) le_rfl le_add_self) h)
    fun _ => .refl zero_le

/-- A token that is asked for can be kept, unless it is an end. -/
theorem price_le_arrival {kind : Kind} (hkind : s.peek.kind = kind) (hne : kind ≠ .eof) :
    g.price s.peek ≤ s.peek.arrival :=
  (Grammar.price_le_fresh fun h => absurd (hkind.symm.trans h) hne).trans s.peek.fresh_le_arrival

/-- The brace that opens a block is kept. -/
theorem brace_bind {f : Unit → Parse β} (h : Affords (g.price s.peek + c) (f ()) cost' s.advance) :
    Affords c (need .openCurly >>= f) cost' s :=
  Ensures.need_bind (fun hk => behind (.advance s c)
    (h.weaken (add_le_add_left (price_le_arrival hk (by decide)) c))) fun _ => .refl zero_le

/-- A name is kept. -/
theorem name_bind {f : Ident → Parse β}
    (h : Affords (g.price s.peek + c) (f ⟨s.peek, s.peek.text⟩) cost' s.advance) :
    Affords c (parseName >>= f) cost' s :=
  Ensures.name_bind (fun hk => behind (.advance s c)
    (h.weaken (add_le_add_left (price_le_arrival hk (by decide)) c))) fun _ => .refl zero_le

theorem semicolon_bind {f : Unit → Parse β} (h : ∀ t, Affords c (f ()) cost' t) :
    Affords c (skipSemicolon >>= f) cost' s :=
  Ensures.semicolon_bind
    (fun _ => behind (.mono (.advance s c) le_rfl le_add_self) (h s.advance)) fun _ => h s

/-- A failure that is recorded pays for an empty slot. -/
theorem recover {cost' : Option α → Bill} (h : Affords c p cost s) (hnone : cost' none ≤ .hole)
    (hsome : ∀ a, cost' (some a) ≤ cost a) : Affords c (recover p) cost' s :=
  Ensures.recover (h.mono (fun a _ ht => ht.mono le_rfl (hsome a))
    fun e t ht => ht.trans (.mono (.record t e) le_rfl hnone))

end Affords

end Parse

/-! ## The rules -/

open Parse

variable (g : Grammar)

/-- What a goal is given: the token where it starts, or what it goes on with. -/
def Goal.credit {α : Type} (s : State) : Goal α → Bill
  | .expr _ => s.current.fresh
  | .climb _ left => bill g left
  | .elements | .names | .entries => 0
  | .stmt => .token s.current + .copy s.current
  | .stmts _ => s.current.arrival

/-- What the tree of a goal costs. -/
def Goal.bill : {α : Type} → Goal α → α → Bill
  | _, .expr _, a | _, .climb _ _, a => ScriptFront.bill g a
  | _, .elements, a => ScriptFront.bill g a
  | _, .names, a => g.prices (a.map Ident.token)
  | _, .entries, a => ScriptFront.bill g a
  | _, .stmt, a => ScriptFront.bill g a
  | _, .stmts _, a => ScriptFront.bill g a

def Parses.Affords (parse : Parses) : Prop :=
  ∀ {α : Type} (goal : Goal α) (s : State),
    Parse.Affords (goal.credit g s) (parse goal) (goal.bill g) s

namespace Parses.Affords

variable {g} {self : Parses} {s : State}

theorem slot (h : self.Affords g) (min : Power) :
    Parse.Affords s.current.fresh (parseSlot self min) (slotBill g) s :=
  (h (.expr min) s).recover (slotBill_none g).le fun e => (slotBill_some g e).le

theorem list (h : self.Affords g) (closing : Kind) :
    Parse.Affords 0 (parseList self closing) (bill g) s := by
  unfold parseList
  refine .ahead_bind ?_
  split
  · exact .skip_bind (.pure le_rfl)
  · refine .advance_bind (.bind (h (.expr .lowest) _) fun first t => ?_)
    refine .bind_free (h .elements t) fun others u => .need_bind (.pure ?_)
    rw [bill_cons, add_zero]
    exact (add_comm _ _).le

theorem parameters (h : self.Affords g) : Parse.Affords 0 (parseParameters self)
    (fun names => g.prices (names.map Ident.token)) s := by
  unfold parseParameters
  refine .ahead_bind ?_
  split
  · exact .skip_bind (.pure le_rfl)
  · refine .name_bind (g := g) (.bind_free (h .names _) fun others t => .need_bind (.pure ?_))
    rw [List.map_cons, g.prices_cons, add_zero]
    exact (add_comm _ _).le

theorem block (h : self.Affords g) :
    Parse.Affords (g.price s.current) (parseBlock self) (bill g) s := by
  refine .current_bind (.arrive_bind (.bind (h (.stmts .block) _) fun body t => .pure ?_))
  rw [bill_mkBlock]
  exact (add_comm _ _).le

theorem alternative (h : self.Affords g) :
    Parse.Affords 0 (parseElse self) (bill g) s := by
  unfold parseElse
  refine .ahead_bind ?_
  split
  · refine .skip_bind (.brace_bind (g := g) (.bind h.block fun block t => .pure ?_))
    rw [bill_some, add_zero]
  · exact .pure (bill_none g).le

theorem head (h : self.Affords g) (rule : HeadRule) :
    Parse.Affords (g.price s.current) (rule.parse self) (bill g) s := by
  cases rule <;> simp only [HeadRule.parse]
  case ident | boolean | string => exact .current_bind (.pure (bill_leaf rfl rfl).le)
  case integer | float =>
    refine .current_bind ?_
    split
    · exact .pure (bill_leaf rfl rfl).le
    · exact .fail
  case unary =>
    refine .current_bind (.advance_bind (.bind (h.slot .unary) fun right t => .pure ?_))
    rw [bill_unary]
    exact (add_comm _ _).le
  case group =>
    exact .advance_bind (.bind (h (.expr .lowest) _) fun inner t => .need_bind (.pure le_self_add))
  case cond =>
    refine .current_bind (.need_bind (.advance_bind (.bind (h.slot .lowest) fun condition t => ?_)))
    refine .need_bind (.brace_bind (g := g) (.bind h.block fun consequence u => ?_))
    refine .bind_free h.alternative fun alternative v => .pure ?_
    rw [bill_cond]
    exact le_of_eq (by abel)
  case function =>
    refine .current_bind (.need_bind (.bind_free h.parameters fun parameters t => ?_))
    refine .brace_bind (g := g) (.bind h.block fun body u => .pure ?_)
    rw [bill_function]
    exact le_of_eq (by abel)
  case array =>
    refine .current_bind (.bind_free (h.list .closeBracket) fun elements t => .pure ?_)
    rw [bill_array]
    exact (add_comm _ _).le
  case hash =>
    refine .current_bind (.bind_free (h .entries s) fun pairs t => .need_bind (.pure ?_))
    rw [bill_hash, add_comm]
    exact add_le_add_left (bill_ofPairs_le g pairs) _

theorem tail (h : self.Affords g) (left : Expr) (power : Power) (rule : TailRule) :
    Parse.Affords (g.price s.current + bill g left) (rule.parse self left power) (bill g) s := by
  cases rule <;> simp only [TailRule.parse]
  case binary =>
    refine .current_bind (.advance_bind (.bind (h.slot power) fun right t => .pure ?_))
    rw [bill_binary]
    exact (add_comm _ _).le
  case call =>
    have hlist : Parse.Affords 0 (Parse.recover (parseList self .closeParen))
        (fun arguments => bill g (arguments.getD [])) s :=
      (h.list .closeParen).recover zero_le fun _ => le_rfl
    refine .current_bind (.bind_free hlist fun arguments t => .pure ?_)
    rw [bill_call]
    exact (add_comm _ _).le
  case index =>
    refine .current_bind (.advance_bind (.bind (h (.expr .lowest) _) fun index t => ?_))
    refine .need_bind (.pure ?_)
    rw [bill_index]
    exact (add_comm _ _).le

/-- What closes a statement is skipped. -/
theorem closed {statement : Stmt} {c : Bill} (h : bill g statement ≤ c) :
    Parse.Affords c (skipSemicolon >>= fun _ => pure statement : Parse Stmt) (bill g) s :=
  .semicolon_bind fun _ => .pure h

theorem statement (h : self.Affords g) (rule : StmtRule) :
    Parse.Affords (.token s.current + .copy s.current) (rule.parse self) (bill g) s := by
  have hprice : g.price s.current ≤ Bill.token s.current + .copy s.current :=
    (g.price_le_token s.current).trans le_self_add
  cases rule <;> simp only [StmtRule.parse]
  case lookup => exact h .stmt s
  case binding =>
    refine .weaken (.current_bind (.name_bind (g := g) (.need_bind (.advance_bind
      (.bind (h.slot .lowest) fun value t => closed ?_))))) hprice
    rw [bill_binding]
    exact le_of_eq (by abel)
  case ret =>
    refine .weaken (.current_bind (.advance_bind
      (.bind (h.slot .lowest) fun value t => closed ?_))) hprice
    rw [bill_ret]
    exact (add_comm _ _).le
  case bare =>
    -- The statement copies the token that its expression may keep.
    have hslot := (h.slot (s := s) .lowest).weaken s.current.fresh_le_token
    refine .current_bind (.bind hslot fun expression t => closed ?_)
    rw [bill_bare]
    exact (add_comm _ _).le
  case block =>
    refine .weaken (.bind_all h.block fun block t => .pure ?_) hprice
    rw [bill_block]

theorem layer (h : self.Affords g) : Parses.Affords g (g.layer self) := by
  intro α goal s
  cases goal <;> simp only [Grammar.layer, Goal.credit]
  case expr min =>
    refine .current_bind ?_
    split
    · exact .fail
    · rename_i rule hrule
      refine .weaken (.bind_all (h.head rule) fun left t => h (.climb min left) t) ?_
      exact Grammar.price_le_fresh_of_head hrule
  case climb min left =>
    refine .ahead_bind ?_
    split
    · exact .pure le_rfl
    · rename_i power rule hrule
      split
      · refine .advance_bind (.weaken (.bind_all (h.tail left power rule) fun grown t =>
          h (.climb min grown) t) ?_)
        exact add_le_add_left (Grammar.price_le_fresh_of_tail hrule) _
      · exact .pure le_rfl
  case elements =>
    refine .ahead_bind ?_
    split
    · refine .skip_bind (.advance_bind (.bind (h (.expr .lowest) _) fun first t => ?_))
      refine .bind_free (h .elements t) fun others u => .pure ?_
      simp only [Goal.bill, bill_cons, add_zero]
      exact (add_comm _ _).le
    · exact .pure le_rfl
  case names =>
    refine .ahead_bind ?_
    split
    · refine .skip_bind (.name_bind (g := g) (.bind_free (h .names _) fun others t => .pure ?_))
      simp only [Goal.bill, List.map_cons, g.prices_cons, add_zero]
      exact (add_comm _ _).le
    · exact .pure le_rfl
  case entries =>
    refine .ahead_bind ?_
    split
    · exact .pure le_rfl
    · refine .advance_bind (.bind (h (.expr .lowest) _) fun key t => .need_bind (.advance_bind
        (.bind (h (.expr .lowest) _) fun value u => .ahead_bind ?_)))
      have hrest (v : State) : Parse.Affords (bill g value + (bill g key + 0))
          (self .entries >>= fun others => pure ((key, value) :: others)) (bill g) v := by
        refine .bind_free (h .entries v) fun others w => .pure ?_
        simp only [Goal.bill, bill_cons, bill_pair]
        exact le_of_eq (by abel)
      split
      · exact .need_bind (hrest _)
      · exact hrest u
  case stmt => exact .current_bind (h.statement _)
  case stmts scope =>
    refine .current_bind ?_
    split
    · exact .pure zero_le
    · rename_i hends
      have hne : s.current.kind ≠ .eof := fun hk => by
        cases scope <;> simp [hk, Scope.endsAt] at hends
      have hfirst : Parse.Affords (.token s.current + .copy s.current)
          (Parse.recover (self .stmt)) (bill g) s :=
        (h .stmt s).recover zero_le fun statement => (bill_some g statement).le
      rw [Token.arrival_of_ne hne]
      refine .bind_all hfirst fun first t => .arrive_bind (.bind (h (.stmts scope) _)
        fun others u => .pure ?_)
      simp only [Goal.bill, bill_append]
      cases first <;> exact le_of_eq (by simp [add_comm])

end Parses.Affords

theorem Grammar.run_affords (budget : Nat) : Parses.Affords g (g.run budget) := by
  induction budget with
  | zero => exact fun _ _ => .starve
  | succ budget ih => exact ih.layer

end ScriptFront
