import Mathlib.Order.Monotone.Basic
import ScriptFront.Proofs.Parser.Locality
import ScriptFront.Proofs.Parser.Stream

/-!
# Diagnostics come in the order of the source

A parser finds fault with the token ahead, or with the current one where a phrase starts, and a
phrase starts only right behind a move. So it never comes back to a token before one that it found
fault with. `Ordered lo p s` says so of the marks that `p` leaves from `s` on: they are in order,
none is before the token `lo`, and none goes past the token ahead of where `p` stops.
-/

namespace ScriptFront

open Text

/-! ## Marks in order -/

def InOrder (lo hi : Nat) (marks : List Mark) : Prop :=
  marks.Pairwise (·.2 ≤ ·.2) ∧ ∀ m ∈ marks, lo ≤ m.2 ∧ m.2 ≤ hi

/-- The mark of a failure. -/
def raised {α : Type} : Except Mark α → List Mark
  | .ok _ => []
  | .error m => [m]

theorem raised_mapError {α : Type} (f : Mark → Mark) (r : Except Mark α) :
    raised (r.mapError f) = (raised r).map f := by
  cases r <;> rfl

namespace InOrder

variable {lo mid hi : Nat} {marks marks' : List Mark}

theorem nil (lo hi : Nat) : InOrder lo hi [] := by simp [InOrder]

theorem shift (k : Nat) (h : InOrder lo hi marks) :
    InOrder (k + lo) (k + hi) (marks.map (Mark.shift k)) := by
  refine ⟨List.pairwise_map.2 (h.1.imp fun hle => Nat.add_le_add_left hle k), ?_⟩
  simp only [List.mem_map, forall_exists_index, and_imp, forall_apply_eq_imp_iff₂]
  exact fun m hm => ⟨Nat.add_le_add_left (h.2 m hm).1 k, Nat.add_le_add_left (h.2 m hm).2 k⟩

theorem append (h : InOrder lo mid marks) (h' : InOrder mid hi marks') (hlo : lo ≤ mid)
    (hhi : mid ≤ hi) : InOrder lo hi (marks ++ marks') := by
  refine ⟨List.pairwise_append.2 ⟨h.1, h'.1, fun m hm m' hm' => ?_⟩, fun m hm => ?_⟩
  · exact Nat.le_trans (h.2 m hm).2 (h'.2 m' hm').1
  · rcases List.mem_append.1 hm with hm | hm
    · exact ⟨(h.2 m hm).1, Nat.le_trans (h.2 m hm).2 hhi⟩
    · exact ⟨Nat.le_trans hlo (h'.2 m hm).1, (h'.2 m hm).2⟩

end InOrder

/-! ## Parsers in order -/

namespace Parse

/-- From `s` the parser leaves marks in order, from the token `lo` on. -/
def Ordered {α : Type} (lo : Nat) (p : Parse α) (s : State) : Prop :=
  p s = .starved ∨
    ∃ k marks r, p s = s.outcome k marks r ∧ InOrder lo (k + 1) (marks ++ raised r)

namespace Ordered

variable {α β : Type} {lo : Nat} {s : State} {p : Parse α}

/-- What finds no fault with the current token may be where it is looked at. -/
theorem of_ahead (h : Ordered 1 p s) : Ordered 0 p s := by
  refine h.imp id ?_
  rintro ⟨k, marks, r, hr, hsorted, hmarks⟩
  exact ⟨k, marks, r, hr, hsorted, fun m hm => ⟨Nat.zero_le _, (hmarks m hm).2⟩⟩

theorem pure (a : α) : Ordered lo (pure a) s :=
  .inr ⟨0, [], .ok a, by simp [State.outcome, pure_apply], .nil _ _⟩

/-- A fault of the current token, where a phrase starts. -/
theorem fail (fault : Fault) : Ordered 0 (fail ⟨fault, s.current.position⟩ : Parse α) s := by
  refine .inr ⟨0, [], .error (fault, 0), ?_, ?_⟩
  · rw [State.outcome, State.after_zero]
    rfl
  · simp [InOrder, raised]

/-- What goes on behind a part has no fault to find before the token ahead. -/
theorem bind_of_le {f : α → Parse β} (hlo : lo ≤ 1) (hp : Ordered lo p s)
    (hf : ∀ a t, Ordered 1 (f a) t) : Ordered lo (p >>= f) s := by
  rcases hp with hstarved | ⟨k, marks, r, hr, hmarks⟩
  · exact .inl (bind_starved hstarved)
  cases r with
  | error m => exact .inr ⟨k, marks, .error m, bind_failed hr, hmarks⟩
  | ok a =>
    rcases hf a (s.after k marks) with hstarved | ⟨k', marks', r', hr', hmarks'⟩
    · exact .inl ((bind_done hr).trans hstarved)
    refine .inr ⟨k + k', marks ++ marks'.map (Mark.shift k), r'.mapError (Mark.shift k),
      (bind_done hr).trans (hr'.trans (State.outcome_after ..)), ?_⟩
    rw [raised_mapError, List.append_assoc, ← List.map_append]
    rw [raised, List.append_nil] at hmarks
    exact hmarks.append (hmarks'.shift k) (by omega) (by omega)

theorem bind {f : α → Parse β} (hp : Ordered 0 p s) (hf : ∀ a t, Ordered 1 (f a) t) :
    Ordered 0 (p >>= f) s := bind_of_le (Nat.zero_le 1) hp hf

theorem bind_ahead {f : α → Parse β} (hp : Ordered 1 p s) (hf : ∀ a t, Ordered 1 (f a) t) :
    Ordered 1 (p >>= f) s := bind_of_le (Nat.le_refl 1) hp hf

theorem current_bind {f : Token → Parse β} (h : Ordered lo (f s.current) s) :
    Ordered lo (current >>= f) s := h

theorem ahead_bind {f : Kind → Parse β} (h : Ordered lo (f s.peek.kind) s) :
    Ordered lo (ahead >>= f) s := h

/-- Behind a move the token that was ahead may be found fault with. -/
theorem advance_bind {f : Unit → Parse β} (h : Ordered 0 (f ()) s.advance) :
    Ordered 1 (advance >>= f) s := by
  rw [← State.after_one] at h
  rcases h with hstarved | ⟨k, marks, r, hr, hmarks⟩
  · exact .inl (by rwa [State.after_one] at hstarved)
  · refine .inr ⟨1 + k, marks.map (Mark.shift 1), r.mapError (Mark.shift 1), ?_, ?_⟩
    · rw [State.outcome_after, List.nil_append] at hr
      rw [← hr, State.after_one]
      rfl
    · rw [raised_mapError, ← List.map_append]
      exact (InOrder.nil 1 1).append (hmarks.shift 1) (Nat.le_refl 1) (by omega)

theorem expect (kind : Kind) : Ordered 1 (expect kind) s := by
  by_cases hk : s.peek.kind = kind
  · refine .inr ⟨1, [], .ok s.peek, ?_, .nil _ _⟩
    simp [State.outcome, Parse.expect, State.after_one, hk]
  · refine .inr ⟨0, [], .error (.unexpected kind s.peek.kind, 1), ?_, ?_⟩
    · simp [State.outcome, Parse.expect, hk]
      rfl
    · simp [InOrder, raised]

theorem need_bind {kind : Kind} {f : Unit → Parse β} (h : ∀ t, Ordered 1 (f ()) t) :
    Ordered 1 (need kind >>= f) s := by
  unfold need
  simp only [bind_assoc, pure_bind]
  exact (expect kind).bind_ahead fun _ => h

theorem name_bind {f : Ident → Parse β} (h : ∀ name t, Ordered 1 (f name) t) :
    Ordered 1 (parseName >>= f) s := by
  unfold parseName
  simp only [bind_assoc, pure_bind]
  exact (expect .identifier).bind_ahead fun t => h ⟨t, t.text⟩

theorem skipSemicolon : Ordered 1 skipSemicolon s := by
  unfold ScriptFront.skipSemicolon
  refine ahead_bind ?_
  split
  · exact .inr ⟨1, [], .ok (), by simp [State.outcome, advance, State.after_one], .nil _ _⟩
  · exact pure ()

theorem semicolon_bind {f : Unit → Parse β} (h : ∀ t, Ordered 1 (f ()) t) :
    Ordered 1 (ScriptFront.skipSemicolon >>= f) s := skipSemicolon.bind_ahead fun _ => h

theorem recover (h : Ordered lo p s) : Ordered lo (recover p) s := by
  rcases h with hstarved | ⟨k, marks, r, hr, hmarks⟩
  · exact .inl (by simp only [Parse.recover, hstarved])
  cases r with
  | ok a =>
    refine .inr ⟨k, marks, .ok (some a), ?_, hmarks⟩
    simp only [Parse.recover, hr, State.outcome]
  | error m =>
    refine .inr ⟨k, marks ++ [m], .ok none, ?_, ?_⟩
    · simp only [Parse.recover, hr, State.outcome, State.record_after]
    · simpa [raised] using hmarks

end Ordered

end Parse

/-! ## Rules -/

open Parse

/-- The first token that a goal may find fault with: the current one if a phrase starts there. -/
def Goal.first {α : Type} : Goal α → Nat
  | .expr _ | .stmt | .stmts _ => 0
  | .climb .. | .elements | .names | .entries => 1

def Parses.Ordered (parse : Parses) : Prop :=
  ∀ {α : Type} (goal : Goal α) (s : State), Parse.Ordered goal.first (parse goal) s

namespace Parses.Ordered

variable {self : Parses} {s : State}

theorem slot (h : self.Ordered) (min : Power) : Parse.Ordered 0 (parseSlot self min) s :=
  (h (.expr min) s).recover

theorem list (h : self.Ordered) (closing : Kind) : Parse.Ordered 1 (parseList self closing) s := by
  unfold parseList
  refine .ahead_bind ?_
  split
  · exact .advance_bind (.pure _)
  · exact .advance_bind (.bind (h (.expr .lowest) _) fun first t =>
      .bind_ahead (h .elements t) fun others u => .need_bind fun _ => .pure _)

theorem parameters (h : self.Ordered) : Parse.Ordered 1 (parseParameters self) s := by
  unfold parseParameters
  refine .ahead_bind ?_
  split
  · exact .advance_bind (.pure _)
  · exact .name_bind fun first t =>
      .bind_ahead (h .names t) fun others u => .need_bind fun _ => .pure _

theorem block (h : self.Ordered) : Parse.Ordered 1 (parseBlock self) s :=
  .current_bind (.advance_bind (.bind (h (.stmts .block) _) fun _ _ => .pure _))

theorem alternative (h : self.Ordered) : Parse.Ordered 1 (parseElse self) s := by
  unfold parseElse
  refine .ahead_bind ?_
  split
  · exact .advance_bind (.of_ahead (.need_bind fun _ => .bind_ahead h.block fun block t => .pure _))
  · exact .pure _

theorem head (h : self.Ordered) (rule : HeadRule) : Parse.Ordered 0 (rule.parse self) s := by
  cases rule <;> simp only [HeadRule.parse]
  case ident | boolean | string => exact .current_bind (.pure _)
  case integer | float =>
    refine .current_bind ?_
    split
    · exact .pure _
    · exact .fail _
  case unary =>
    exact .current_bind (.of_ahead (.advance_bind (.bind (h.slot .unary) fun right t => .pure _)))
  case group =>
    exact .of_ahead (.advance_bind (.bind (h (.expr .lowest) _) fun inner t =>
      .need_bind fun _ => .pure _))
  case cond =>
    exact .current_bind (.of_ahead (.need_bind fun _ => .advance_bind (.bind (h.slot .lowest)
      fun condition t => .need_bind fun _ => .need_bind fun _ => .bind_ahead h.block
      fun consequence u => .bind_ahead h.alternative fun alternative v => .pure _)))
  case function =>
    exact .current_bind (.of_ahead (.need_bind fun _ => .bind_ahead h.parameters fun parameters t =>
      .need_bind fun _ => .bind_ahead h.block fun body u => .pure _))
  case array =>
    exact .current_bind (.of_ahead (.bind_ahead (h.list .closeBracket) fun elements t => .pure _))
  case hash =>
    exact .current_bind (.of_ahead (.bind_ahead (h .entries s) fun pairs t =>
      .need_bind fun _ => .pure _))

theorem tail (h : self.Ordered) (left : Expr) (power : Power) (rule : TailRule) :
    Parse.Ordered 1 (rule.parse self left power) s := by
  cases rule <;> simp only [TailRule.parse]
  case binary =>
    exact .current_bind (.advance_bind (.bind (h.slot power) fun right t => .pure _))
  case call =>
    exact .current_bind (.bind_ahead (h.list .closeParen).recover fun arguments t => .pure _)
  case index =>
    exact .current_bind (.advance_bind (.bind (h (.expr .lowest) _) fun index t =>
      .need_bind fun _ => .pure _))

theorem statement (h : self.Ordered) (rule : StmtRule) : Parse.Ordered 0 (rule.parse self) s := by
  cases rule <;> simp only [StmtRule.parse]
  case lookup => exact h .stmt s
  case binding =>
    exact .current_bind (.of_ahead (.name_bind fun name t => .need_bind fun _ => .advance_bind
      (.bind (h.slot .lowest) fun value u => .semicolon_bind fun _ => .pure _)))
  case ret =>
    exact .current_bind (.of_ahead (.advance_bind (.bind (h.slot .lowest) fun value t =>
      .semicolon_bind fun _ => .pure _)))
  case bare =>
    exact .current_bind (.bind (h.slot .lowest) fun value t => .semicolon_bind fun _ => .pure _)
  case block => exact .of_ahead (.bind_ahead h.block fun block t => .pure _)

theorem layer (h : self.Ordered) (g : Grammar) : Parses.Ordered (g.layer self) := by
  intro α goal s
  cases goal <;> simp only [Grammar.layer, Goal.first]
  case expr min =>
    refine .current_bind ?_
    split
    · exact .fail _
    · exact .bind (h.head _) fun left t => h (.climb min left) t
  case climb min left =>
    refine .ahead_bind ?_
    split
    · exact .pure _
    · split
      · exact .advance_bind (.of_ahead (.bind_ahead (h.tail left _ _) fun left t =>
          h (.climb min left) t))
      · exact .pure _
  case elements =>
    refine .ahead_bind ?_
    split
    · exact .advance_bind (.of_ahead (.advance_bind (.bind (h (.expr .lowest) _) fun first t =>
        .bind_ahead (h .elements t) fun others u => .pure _)))
    · exact .pure _
  case names =>
    refine .ahead_bind ?_
    split
    · exact .advance_bind (.of_ahead (.name_bind fun first t =>
        .bind_ahead (h .names t) fun others u => .pure _))
    · exact .pure _
  case entries =>
    refine .ahead_bind ?_
    split
    · exact .pure _
    · refine .advance_bind (.bind (h (.expr .lowest) _) fun key t => .need_bind fun u =>
        .advance_bind (.bind (h (.expr .lowest) _) fun value v => .ahead_bind ?_))
      split
      · exact .need_bind fun w => .bind_ahead (h .entries w) fun others x => .pure _
      · exact .bind_ahead (h .entries v) fun others w => .pure _
  case stmt => exact .current_bind (h.statement _)
  case stmts scope =>
    refine .current_bind ?_
    split
    · exact .pure _
    · exact .bind (h .stmt s).recover fun first t => .advance_bind
        (.bind (h (.stmts scope) _) fun others u => .pure _)

end Parses.Ordered

theorem Grammar.run_ordered (g : Grammar) (budget : Nat) : Parses.Ordered (g.run budget) := by
  induction budget with
  | zero => exact fun goal s => .inl rfl
  | succ budget ih => exact ih.layer g

/-! ## Tokens in order -/

/-- In a source that is not too long for its offsets the tokens start in order. -/
theorem Lexer.stream_start_le {lx : Lexer} (hfits : lx.limit < 2 ^ 32) {i j : Nat} (hle : i ≤ j) :
    (lx.stream i).span.start ≤ (lx.stream j).span.start := by
  have hstart (k : Nat) : (lx.stream k).span.start.toNat = lx.startOf k := by
    have hlimit := Nat.le_trans (lx.startOf_le_stopOf k) (lx.stopOf_le_limit k)
    rw [stream_span, Span.between_start_toNat (by omega)]
  rw [UInt32.le_iff_toNat_le, hstart, hstart]
  exact lx.startOf_mono hle

/-- The diagnostics that the marks of a new parser stand for. -/
theorem State.after_positions (lx : Lexer) (k : Nat) (marks : List Mark) :
    ((ofLexer lx).after k marks).diagnostics.toList.map (·.position) =
      (marks.map Prod.snd).map fun i => (lx.stream i).position := by
  simp only [← token_ofLexer, after, ofLexer, List.map_map]
  simp [diagnose]

/-- Whatever a lexer reads, the diagnostics of its program come in the order of its tokens. That is
the order of their offsets, if the source is not too long for these. -/
theorem Parser.program_diagnostics_ordered (lx : Lexer) :
    ∃ program p, (Parser.ofLexer lx).program = some (.ok program, p) ∧
      (∃ places : List Nat, places.Pairwise (· ≤ ·) ∧
        p.diagnostics.map (·.position) = places.map fun i => (lx.stream i).position) ∧
      (lx.limit < 2 ^ 32 → (p.diagnostics.map (·.position.offset)).Pairwise (· ≤ ·)) := by
  obtain ⟨program, s, hprogram, hrun⟩ := (Parser.ofLexer lx).program_ok Grammar.standard_grounded
  obtain ⟨places, hsorted, hplaces⟩ : ∃ places : List Nat, places.Pairwise (· ≤ ·) ∧
      s.diagnostics.toList.map (·.position) = places.map fun i => (lx.stream i).position := by
    rcases Grammar.run_ordered _ _ (.stmts .script) (State.ofLexer lx) with
      hstarved | ⟨k, marks, r, hr, hmarks⟩
    · cases hrun.symm.trans hstarved
    · cases r with
      | error m => cases hrun.symm.trans hr
      | ok body =>
        cases hrun.symm.trans hr
        refine ⟨marks.map Prod.snd, ?_, State.after_positions lx k marks⟩
        simpa [raised] using List.pairwise_map.2 hmarks.1
  refine ⟨program, _, hprogram, ⟨places, hsorted, hplaces⟩, fun hfits => ?_⟩
  have hoffsets : s.diagnostics.toList.map (·.position.offset) =
      places.map fun i => (lx.stream i).span.start := by
    have hmap := congrArg (List.map Position.offset) hplaces
    rwa [List.map_map, List.map_map] at hmap
  show (s.diagnostics.toList.map (·.position.offset)).Pairwise (· ≤ ·)
  rw [hoffsets, List.pairwise_map]
  exact hsorted.imp fun hle => Lexer.stream_start_le hfits hle

/-- A statement without a name, a character that starts nothing and a parenthesis left open. -/
theorem program_diagnostics_ordered_open :
    let lx := Lexer.ofString "shell" "let = 1; @ (2"
    lx.limit < 2 ^ 32 ∧ ∃ program p, (Parser.ofLexer lx).program = some (.ok program, p) ∧
      (∃ places : List Nat, places.Pairwise (· ≤ ·) ∧
        p.diagnostics.map (·.position) = places.map fun i => (lx.stream i).position) ∧
      (p.diagnostics.map (·.position.offset)).Pairwise (· ≤ ·) := by
  intro lx
  have hfits : lx.limit < 2 ^ 32 := by decide
  obtain ⟨program, p, hprogram, hplaces, hordered⟩ := Parser.program_diagnostics_ordered lx
  exact ⟨hfits, program, p, hprogram, hplaces, hordered hfits⟩

/-- Of two characters behind so many spaces the first is the last that has an offset. The second is
at zero again, so the diagnostics of the two are not in order. -/
theorem program_diagnostics_wrap :
    let lx := Lexer.ofString "shell" (spaces (2 ^ 32 - 1) ++ "@@")
    ∃ program p, (Parser.ofLexer lx).program = some (.ok program, p) ∧
      ¬ (p.diagnostics.map (·.position.offset)).Pairwise (· ≤ ·) := by
  intro lx
  let second := (Lexer.ofString "shell" "@").countingFrom (2 ^ 32)
  let third := (Lexer.ofString "shell" "").countingFrom (2 ^ 32 + 1)
  let first : Token := ⟨.illegal, "@", 0xffffffff, 0, "shell"⟩
  let other : Token := ⟨.illegal, "@", 0, 1, "shell"⟩
  have hfirst : lx.nextOrEnd = (first, second) := by
    refine Lexer.nextOrEnd_of_tape ?_ (Lexer.pending_countingFrom _ _ _)
    rw [Lexer.tape_ofString, String.toList_append, List.append_assoc, Tape.next_spaces _ (by simp),
      Lexer.tape_countingFrom]
    decide
  have hsecond : second.nextOrEnd = (other, third) := by decide
  have hparser : Parser.ofLexer lx = ⟨.standard, third, first, other, #[]⟩ :=
    congrArg (Parser.mk .standard) (State.ofLexer_eq hfirst hsecond)
  obtain ⟨program, s, hprogram, -⟩ := (Parser.ofLexer lx).program_ok Grammar.standard_grounded
  refine ⟨program, _, hprogram, ?_⟩
  have hoffsets : (Parser.ofLexer lx).program.map (·.2.diagnostics.map (·.position.offset)) =
      some [(0xffffffff : UInt32), 0] := by
    rw [hparser]
    decide +kernel
  rw [hprogram, Option.map_some, Option.some.injEq] at hoffsets
  rw [hoffsets]
  decide

end ScriptFront
