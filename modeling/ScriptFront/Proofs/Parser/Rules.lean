import ScriptFront.Proofs.Parser.Clean

/-!
# What the rules parse without a diagnostic

A rule is parsed cleanly if and only if its parts are, one behind the other, with the tokens between
them that it asks for. So is one layer of each goal.
-/

namespace ScriptFront

open Parse

section
variable {self : Parses} {s t : State} {e : Expr}

/-! ## Leaves -/

theorem clean_ident : (HeadRule.ident.parse self).Clean s e t ↔
    e = .ident ⟨s.current, s.current.text⟩ ∧ s = t := by
  simp [-bind_pure_comp, HeadRule.parse]

theorem clean_integer : (HeadRule.integer.parse self).Clean s e t ↔
    ∃ value, Literal.integer? s.current.text = some value ∧
      e = .integer s.current value ∧ s = t := by
  simp only [HeadRule.parse, clean_current_bind]
  split <;> simp_all

theorem clean_float : (HeadRule.float.parse self).Clean s e t ↔
    ∃ value, Literal.decimal? s.current.text = some value ∧ e = .float s.current value ∧ s = t := by
  simp only [HeadRule.parse, clean_current_bind]
  split <;> simp_all

theorem clean_boolean : (HeadRule.boolean.parse self).Clean s e t ↔
    e = .boolean s.current (s.current.kind = .trueWord) ∧ s = t := by
  simp [-bind_pure_comp, HeadRule.parse]

theorem clean_string : (HeadRule.string.parse self).Clean s e t ↔
    e = .string s.current (Literal.inside s.current.text) ∧ s = t := by
  simp [-bind_pure_comp, HeadRule.parse]

/-- A statement is parsed by the rule of its first token. -/
theorem clean_stmt {g : Grammar} {statement : Stmt} : (g.layer self .stmt).Clean s statement t ↔
    (((g.stmts s.current.kind).getD .bare).parse self).Clean s statement t := clean_current_bind

variable [∀ {α : Type} (goal : Goal α), (self goal).Forward]

/-! ## Parts -/

theorem clean_list {closing : Kind} {es : List Expr} :
    (parseList self closing).Clean s es t ↔
      if s.peek.kind = closing then es = [] ∧ s.advance = t
      else ∃ first u, (self (.expr .lowest)).Clean s.advance first u ∧
        ∃ others v, (self .elements).Clean u others v ∧ v.peek.kind = closing ∧
          es = first :: others ∧ v.advance = t := by
  unfold parseList
  rw [clean_ahead_bind]
  split <;> simp [-bind_pure_comp]

theorem clean_parameters {names : List Ident} :
    (parseParameters self).Clean s names t ↔
      if s.peek.kind = .closeParen then names = [] ∧ s.advance = t
      else s.peek.kind = .identifier ∧ ∃ others u, (self .names).Clean s.advance others u ∧
        u.peek.kind = .closeParen ∧ names = ⟨s.peek, s.peek.text⟩ :: others ∧ u.advance = t := by
  unfold parseParameters
  rw [clean_ahead_bind]
  split <;> simp [-bind_pure_comp]

theorem clean_block {b : Block} : (parseBlock self).Clean s b t ↔
    ∃ body, (self (.stmts .block)).Clean s.advance body t ∧ b = .mk s.current body := by
  simp [-bind_pure_comp, parseBlock]

theorem clean_else {b : Option Block} : (parseElse self).Clean s b t ↔
    if s.peek.kind = .elseWord then
      s.advance.peek.kind = .openCurly ∧
        ∃ block, (parseBlock self).Clean s.advance.advance block t ∧ b = some block
    else b = none ∧ s = t := by
  unfold parseElse
  rw [clean_ahead_bind]
  split <;> simp [-bind_pure_comp]

/-! ## Operands -/

theorem clean_unary : (HeadRule.unary.parse self).Clean s e t ↔
    ∃ right, (self (.expr .unary)).Clean s.advance right t ∧
      e = .unary s.current s.current.text (some right) := by
  simp [-bind_pure_comp, HeadRule.parse, parseSlot]

theorem clean_group : (HeadRule.group.parse self).Clean s e t ↔
    ∃ u, (self (.expr .lowest)).Clean s.advance e u ∧
      u.peek.kind = .closeParen ∧ u.advance = t := by
  simp only [HeadRule.parse, clean_advance_bind]
  rw [clean_bind]
  constructor
  · rintro ⟨inner, u, hinner, h⟩
    obtain ⟨hk, rfl, rfl⟩ : _ ∧ _ ∧ _ := by simpa [-bind_pure_comp] using h
    exact ⟨u, hinner, hk, rfl⟩
  · rintro ⟨u, he, hk, rfl⟩
    exact ⟨e, u, he, by simp [-bind_pure_comp, hk]⟩

theorem clean_cond : (HeadRule.cond.parse self).Clean s e t ↔
    s.peek.kind = .openParen ∧
    ∃ condition u, (self (.expr .lowest)).Clean s.advance.advance condition u ∧
      u.peek.kind = .closeParen ∧ u.advance.peek.kind = .openCurly ∧
    ∃ consequence v, (parseBlock self).Clean u.advance.advance consequence v ∧
    ∃ alternative, (parseElse self).Clean v alternative t ∧
      e = .cond s.current (some condition) consequence alternative := by
  simp [-bind_pure_comp, HeadRule.parse, parseSlot]

theorem clean_function : (HeadRule.function.parse self).Clean s e t ↔
    s.peek.kind = .openParen ∧
    ∃ parameters u, (parseParameters self).Clean s.advance parameters u ∧
      u.peek.kind = .openCurly ∧
    ∃ body, (parseBlock self).Clean u.advance body t ∧
      e = .function s.current parameters body := by
  simp [-bind_pure_comp, HeadRule.parse]

theorem clean_array : (HeadRule.array.parse self).Clean s e t ↔
    ∃ elements, (parseList self .closeBracket).Clean s elements t ∧
      e = .array s.current elements := by
  simp [-bind_pure_comp, HeadRule.parse]

theorem clean_hash : (HeadRule.hash.parse self).Clean s e t ↔
    ∃ pairs u, (self .entries).Clean s pairs u ∧ u.peek.kind = .closeCurly ∧
      e = .hash s.current (Entries.ofPairs pairs) ∧ u.advance = t := by
  simp [-bind_pure_comp, HeadRule.parse]

variable {left : Expr} {power : Power}

theorem clean_binary : (TailRule.binary.parse self left power).Clean s e t ↔
    ∃ right, (self (.expr power)).Clean s.advance right t ∧
      e = .binary s.current left s.current.text (some right) := by
  simp [-bind_pure_comp, TailRule.parse, parseSlot]

theorem clean_call : (TailRule.call.parse self left power).Clean s e t ↔
    ∃ arguments, (parseList self .closeParen).Clean s arguments t ∧
      e = .call s.current left arguments := by
  simp [-bind_pure_comp, TailRule.parse]

theorem clean_index : (TailRule.index.parse self left power).Clean s e t ↔
    ∃ index u, (self (.expr .lowest)).Clean s.advance index u ∧ u.peek.kind = .closeBracket ∧
      e = .index s.current left index ∧ u.advance = t := by
  simp [-bind_pure_comp, TailRule.parse]

/-! ## Statements -/

theorem clean_binding {statement : Stmt} : (StmtRule.binding.parse self).Clean s statement t ↔
    s.peek.kind = .identifier ∧ s.advance.peek.kind = .assign ∧
    ∃ value u, (self (.expr .lowest)).Clean s.advance.advance.advance value u ∧
      statement = .binding s.current ⟨s.peek, s.peek.text⟩ (some value) ∧
      (if u.peek.kind = .semicolon then u.advance else u) = t := by
  simp [-bind_pure_comp, StmtRule.parse, parseSlot]

theorem clean_ret {statement : Stmt} : (StmtRule.ret.parse self).Clean s statement t ↔
    ∃ value u, (self (.expr .lowest)).Clean s.advance value u ∧
      statement = .ret s.current (some value) ∧
      (if u.peek.kind = .semicolon then u.advance else u) = t := by
  simp [-bind_pure_comp, StmtRule.parse, parseSlot]

theorem clean_bare {statement : Stmt} : (StmtRule.bare.parse self).Clean s statement t ↔
    ∃ value u, (self (.expr .lowest)).Clean s value u ∧
      statement = .bare s.current (some value) ∧
      (if u.peek.kind = .semicolon then u.advance else u) = t := by
  simp [-bind_pure_comp, StmtRule.parse, parseSlot]

/-! ## Layers -/

variable {g : Grammar} {min : Power}

theorem clean_expr : (g.layer self (.expr min)).Clean s e t ↔
    ∃ rule, g.heads s.current.kind = some rule ∧
      ∃ left u, (rule.parse self).Clean s left u ∧ (self (.climb min left)).Clean u e t := by
  simp only [Grammar.layer, clean_current_bind]
  split <;> simp_all

theorem clean_climb {left : Expr} : (g.layer self (.climb min left)).Clean s e t ↔
    (∃ power rule, g.tails s.peek.kind = some (power, rule) ∧ s.peek.kind ≠ .semicolon ∧
      min < power ∧ ∃ grown u, (rule.parse self left power).Clean s.advance grown u ∧
        (self (.climb min grown)).Clean u e t) ∨
    (s.peek.kind = .semicolon ∨ g.power s.peek.kind ≤ min) ∧ e = left ∧ s = t := by
  simp only [Grammar.layer, clean_ahead_bind]
  split
  · rename_i hnone
    simp [hnone, Grammar.power_of_none hnone, Power.lowest_le]
  · rename_i power rule hrule
    rw [Grammar.power_of_some hrule]
    split
    · rename_i hlt
      rw [clean_advance_bind, clean_bind]
      constructor
      · exact fun h => .inl ⟨power, rule, hrule, hlt.1, hlt.2, h⟩
      · rintro (⟨_, _, hrule', -, -, h⟩ | ⟨hstop, -⟩)
        · cases hrule.symm.trans hrule'
          exact h
        · exact (hstop.elim hlt.1 fun hle => Power.not_lt.2 hle hlt.2).elim
    · rename_i hstop
      rw [clean_pure]
      constructor
      · intro h
        refine .inr ⟨?_, h⟩
        by_cases hsemi : s.peek.kind = .semicolon
        · exact .inl hsemi
        · exact .inr (Power.not_lt.1 fun hlt => hstop ⟨hsemi, hlt⟩)
      · rintro (⟨_, _, hrule', hsemi, hlt, -⟩ | ⟨-, h⟩)
        · cases hrule.symm.trans hrule'
          exact (hstop ⟨hsemi, hlt⟩).elim
        · exact h

theorem clean_elements {es : List Expr} : (g.layer self .elements).Clean s es t ↔
    if s.peek.kind = .comma then
      ∃ first u, (self (.expr .lowest)).Clean s.advance.advance first u ∧
        ∃ others, (self .elements).Clean u others t ∧ es = first :: others
    else es = [] ∧ s = t := by
  simp only [Grammar.layer, clean_ahead_bind]
  split <;> simp [-bind_pure_comp]

theorem clean_names {names : List Ident} : (g.layer self .names).Clean s names t ↔
    if s.peek.kind = .comma then
      s.advance.peek.kind = .identifier ∧
        ∃ others, (self .names).Clean s.advance.advance others t ∧
          names = ⟨s.advance.peek, s.advance.peek.text⟩ :: others
    else names = [] ∧ s = t := by
  simp only [Grammar.layer, clean_ahead_bind]
  split <;> simp [-bind_pure_comp]

/-- A comma that may be missing before the closing brace. -/
theorem clean_comma {α : Type} {p : Parse α} {a : α} :
    (if s.peek.kind = .closeCurly then p else need .comma >>= fun _ => p).Clean s a t ↔
      s.peek.kind = .closeCurly ∧ p.Clean s a t ∨ s.peek.kind = .comma ∧ p.Clean s.advance a t := by
  split <;> simp_all

set_option synthInstance.maxSize 1024 in
theorem clean_entries {pairs : List (Expr × Expr)} : (g.layer self .entries).Clean s pairs t ↔
    if s.peek.kind = .closeCurly then pairs = [] ∧ s = t
    else ∃ key u, (self (.expr .lowest)).Clean s.advance key u ∧ u.peek.kind = .colon ∧
      ∃ value v, (self (.expr .lowest)).Clean u.advance.advance value v ∧
        ((v.peek.kind = .closeCurly ∧ ∃ others, (self .entries).Clean v others t ∧
            pairs = (key, value) :: others) ∨
          (v.peek.kind = .comma ∧ ∃ others, (self .entries).Clean v.advance others t ∧
            pairs = (key, value) :: others)) := by
  simp only [Grammar.layer, clean_ahead_bind]
  split <;> simp [-bind_pure_comp, clean_comma]

theorem clean_stmts {scope : Scope} {body : List Stmt} :
    (g.layer self (.stmts scope)).Clean s body t ↔
      if scope.endsAt s.current.kind then body = [] ∧ s = t
      else ∃ first u, (self .stmt).Clean s first u ∧
        ∃ others, (self (.stmts scope)).Clean u.advance others t ∧ body = first :: others := by
  simp only [Grammar.layer, clean_current_bind]
  split <;> simp [-bind_pure_comp]

end

end ScriptFront
