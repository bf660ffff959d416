import ScriptFront.Proofs.Literal.Integer
import ScriptFront.Proofs.Parser.Causes
import ScriptFront.Proofs.Parser.Ensures
import ScriptFront.Proofs.Syntax.Written
import ScriptFront.Proofs.Token.Forms
import ScriptFront.Proofs.Tree.Nodes

/-!
# Literals and their values

A literal is read from the text of its token, and that has the form that a lexer gives its kind:
digits, digits with a point, or a string between quotes. So a decimal is never refused, an integer
only where its digits denote none, and each literal of a program has the value that its token
denotes, however much is wrong around it (`Parser.program_literals`).
-/

namespace ScriptFront

open Text Parse

/-! ## Texts of literals -/

namespace Token.Lexed

variable {t : Token}

/-- The text of a token has the form of its kind in front of what it was read from. -/
theorem fits (h : t.Lexed) :
    ∃ text, (Form.of t.text.toList t.kind).Fits text t.kind t.text.toList := by
  obtain ⟨x, hx, hkind, htext⟩ := h
  obtain ⟨form, hform⟩ := hx.fits
  have hvalue : t.text.toList = x.read ++ x.echo := by
    rw [htext, Lexeme.shown, String.toList_ofList]
  rw [hkind, hvalue, ← hform.eq_of]
  exact ⟨_, hform⟩

theorem whole (h : t.Lexed) (hk : t.kind = .int) : IsWhole t.text.toList := by
  obtain ⟨text, hfits⟩ := h.fits
  rw [hk] at hfits
  obtain ⟨-, hlongest, -⟩ := hfits
  exact hlongest.holds

theorem decimal (h : t.Lexed) (hk : t.kind = .float) : IsDecimal t.text.toList := by
  obtain ⟨text, hfits⟩ := h.fits
  rw [hk] at hfits
  obtain ⟨-, hlongest, -⟩ := hfits
  exact hlongest.holds

theorem quoted (h : t.Lexed) (hk : t.kind = .string) : ∃ quote body, isQuote quote ∧
    quote ∉ body ∧ t.text.toList = quote :: (body ++ [quote]) := by
  obtain ⟨text, hfits⟩ := h.fits
  rw [hk] at hfits
  obtain ⟨-, quote, body, hquote, hbody, htext, -⟩ := hfits
  exact ⟨quote, body, hquote, hbody, htext⟩

end Token.Lexed

namespace Literal

theorem decimal?_of_isDecimal {text : String} (h : IsDecimal text.toList) :
    (decimal? text).isSome := by
  obtain ⟨whole, part, hne, hwhole, hpart, htext⟩ := h
  exact decimal?_isSome (htext ▸ fraction?_isSome hne hwhole hpart)

theorem inside_quoted {text : String} {quote : Char} {body : List Char} (hquote : isQuote quote)
    (htext : text.toList = quote :: (body ++ [quote])) : inside text = String.ofList body := by
  have hsize : quote.utf8Size = 1 := by
    rcases Lexeme.isQuote_iff.1 hquote with rfl | rfl <;> rfl
  simp [inside, htext, hsize]

end Literal

/-! ## Nodes with the values of their tokens -/

/-- An integer has the value of its digits, in the base that they announce, and a string has what
is between its quotes. -/
def Node.Faithful : Node → Prop
  | .expr (.integer token value) => ∃ n : Nat, value = n ∧
      Literal.Denotes (Literal.plainBase token.text.toList) token.text.toList n
  | .expr (.string token value) => ∃ quote, isQuote quote ∧ quote ∉ value.toList ∧
      token.text.toList = quote :: (value.toList ++ [quote])
  | _ => True

theorem Token.Lexed.faithful_integer {t : Token} {n : Nat} (h : t.Lexed) (hk : t.kind = .int)
    (hn : Literal.integer? t.text = some n) : Node.Faithful (.expr (.integer t n)) :=
  ⟨n, rfl, ((Literal.integer?_of_digits (h.whole hk).2 n).1 hn).1⟩

theorem Token.Lexed.faithful_string {t : Token} (h : t.Lexed) (hk : t.kind = .string) :
    Node.Faithful (.expr (.string t (Literal.inside t.text))) := by
  obtain ⟨quote, body, hquote, hbody, htext⟩ := h.quoted hk
  have hinside := Literal.inside_quoted hquote htext
  refine ⟨quote, hquote, ?_, ?_⟩
  · rwa [hinside, String.toList_ofList]
  · rwa [hinside, String.toList_ofList]

/-! ## The rules -/

/-- Started at tokens of a lexer, the parser gives faithful nodes and stops at tokens of a lexer. -/
abbrev Parse.Faithful {α : Type} [HasNodes α] (p : Parse α) (s : State) : Prop :=
  p.Ensures (fun a t => Every Node.Faithful a ∧ t.Lexed) (fun _ t => t.Lexed) s

theorem Parse.Faithful.recover {α : Type} [HasNodes α] {p : Parse α} {s : State}
    (h : p.Faithful s) : (recover p).Faithful s :=
  Ensures.recover (h.mono (fun _ _ h => ⟨.some h.1, h.2⟩) fun _ _ ht => ⟨.none, ht⟩)

/-- What a goal gives has faithful nodes. -/
def Goal.Gives : {α : Type} → Goal α → α → Prop
  | _, .expr _, a | _, .climb _ _, a => Every Node.Faithful a
  | _, .elements, a => Every Node.Faithful a
  | _, .names, a => Every Node.Faithful a
  | _, .entries, a => Every Node.Faithful a
  | _, .stmt, a => Every Node.Faithful a
  | _, .stmts _, a => Every Node.Faithful a

/-- What a goal starts with has faithful nodes. -/
def Goal.Given {α : Type} : Goal α → Prop
  | .climb _ left => Every Node.Faithful left
  | _ => True

def Parses.Faithful (parse : Parses) : Prop :=
  ∀ {α : Type} (goal : Goal α) (s : State), s.Lexed → goal.Given →
    (parse goal).Ensures (fun a t => goal.Gives a ∧ t.Lexed) (fun _ t => t.Lexed) s

namespace Parses.Faithful

variable {self : Parses} {s : State}

theorem expr (h : self.Faithful) (min : Power) (hs : s.Lexed) : (self (.expr min)).Faithful s :=
  h (.expr min) s hs trivial

theorem slot (h : self.Faithful) (min : Power) (hs : s.Lexed) :
    (parseSlot self min).Faithful s := (h.expr min hs).recover

theorem list (h : self.Faithful) (closing : Kind) (hs : s.Lexed) :
    (parseList self closing).Faithful s := by
  unfold parseList
  refine .ahead_bind ?_
  split
  · exact .advance_bind (.pure ⟨.nil, hs.advance⟩)
  · refine .advance_bind (.bind_and (h.expr .lowest hs.advance) fun first t hfirst ht => ?_)
    refine .bind_and (h .elements t ht trivial) fun others u hothers hu => ?_
    exact .need_bind (fun _ => .pure ⟨.cons hfirst hothers, hu.advance⟩) fun _ => hu

theorem parameters (h : self.Faithful) (hs : s.Lexed) :
    (parseParameters self).Ensures (fun _ t => t.Lexed) (fun _ t => t.Lexed) s := by
  unfold parseParameters
  refine .ahead_bind ?_
  split
  · exact .advance_bind (.pure hs.advance)
  · refine .name_bind (fun _ => ?_) fun _ => hs
    refine .bind_and (h .names _ hs.advance trivial) fun others t _ ht => ?_
    exact .need_bind (fun _ => .pure ht.advance) fun _ => ht

theorem block (h : self.Faithful) (hs : s.Lexed) : (parseBlock self).Faithful s :=
  .current_bind (.advance_bind (.bind_and (h (.stmts .block) _ hs.advance trivial)
    fun _ _ hbody ht => .pure ⟨.block trivial hbody, ht⟩))

theorem alternative (h : self.Faithful) (hs : s.Lexed) : (parseElse self).Faithful s := by
  unfold parseElse
  refine .ahead_bind ?_
  split
  · refine .advance_bind (.need_bind (fun _ => ?_) fun _ => hs.advance)
    exact .bind_and (h.block hs.advance.advance) fun _ t hblock ht => .pure ⟨.some hblock, ht⟩
  · exact .pure ⟨.none, hs⟩

theorem head (h : self.Faithful) {rule : HeadRule} (hs : s.Lexed)
    (hrule : Grammar.standard.heads s.current.kind = some rule) :
    (rule.parse self).Faithful s := by
  have hstarts := Grammar.standard_heads.1 hrule
  have hleaf : ∀ x ∈ ([] : List Node), x.Faithful := List.forall_mem_nil _
  cases rule <;> simp only [HeadRule.parse]
  case ident | boolean => exact .current_bind (.pure ⟨.expr trivial hleaf, hs⟩)
  case integer =>
    refine .current_bind ?_
    split
    · rename_i value hvalue
      have hk : s.current.kind = .int := List.mem_singleton.1 hstarts
      exact .pure ⟨.expr (hs.1.faithful_integer hk hvalue) hleaf, hs⟩
    · exact .fail hs
  case float =>
    refine .current_bind ?_
    split
    · exact .pure ⟨.expr trivial hleaf, hs⟩
    · exact .fail hs
  case string =>
    have hk : s.current.kind = .string := List.mem_singleton.1 hstarts
    exact .current_bind (.pure ⟨.expr (hs.1.faithful_string hk) hleaf, hs⟩)
  case unary =>
    refine .current_bind (.advance_bind ?_)
    exact .bind_and (h.slot .unary hs.advance) fun right t hright ht =>
      .pure ⟨.expr trivial hright, ht⟩
  case group =>
    refine .advance_bind (.bind_and (h.expr .lowest hs.advance) fun inner t hinner ht => ?_)
    exact .need_bind (fun _ => .pure ⟨hinner, ht.advance⟩) fun _ => ht
  case cond =>
    refine .current_bind (.need_bind (fun _ => .advance_bind ?_) fun _ => hs)
    refine .bind_and (h.slot .lowest hs.advance.advance) fun condition t hcondition ht => ?_
    refine .need_bind (fun _ => .need_bind (fun _ => ?_) fun _ => ht.advance) fun _ => ht
    refine .bind_and (h.block ht.advance.advance) fun consequence u hconsequence hu => ?_
    refine .bind_and (h.alternative hu) fun alternative v halternative hv => .pure ⟨?_, hv⟩
    exact .expr trivial (List.forall_mem_append.2
      ⟨hcondition, List.forall_mem_append.2 ⟨hconsequence, halternative⟩⟩)
  case function =>
    refine .current_bind (.need_bind (fun _ => ?_) fun _ => hs)
    refine .bind (h.parameters hs.advance) fun parameters t ht => ?_
    refine .need_bind (fun _ => ?_) fun _ => ht
    exact .bind_and (h.block ht.advance) fun body u hbody hu => .pure ⟨.expr trivial hbody, hu⟩
  case array =>
    exact .current_bind (.bind_and (h.list .closeBracket hs) fun elements t helements ht =>
      .pure ⟨.expr trivial helements, ht⟩)
  case hash =>
    refine .current_bind (.bind_and (h .entries s hs trivial) fun pairs t hpairs ht => ?_)
    exact .need_bind (fun _ => .pure ⟨.expr trivial (Every.ofPairs hpairs), ht.advance⟩) fun _ => ht

theorem tail (h : self.Faithful) {left : Expr} (hleft : Every Node.Faithful left) (power : Power)
    (rule : TailRule) (hs : s.Lexed) : (rule.parse self left power).Faithful s := by
  cases rule <;> simp only [TailRule.parse]
  case binary =>
    refine .current_bind (.advance_bind ?_)
    exact .bind_and (h.slot power hs.advance) fun right t hright ht =>
      .pure ⟨.expr trivial (List.forall_mem_append.2 ⟨hleft, hright⟩), ht⟩
  case call =>
    refine .current_bind ?_
    refine .bind_and (h.list .closeParen hs).recover fun arguments t harguments ht => ?_
    have harguments : Every Node.Faithful (arguments.getD []) := by
      cases arguments with
      | none => exact .nil
      | some es => exact harguments.of_some
    exact .pure ⟨.expr trivial (List.forall_mem_append.2 ⟨hleft, harguments⟩), ht⟩
  case index =>
    refine .current_bind (.advance_bind ?_)
    refine .bind_and (h.expr .lowest hs.advance) fun index t hindex ht =>
      .need_bind (fun _ => .pure ⟨?_, ht.advance⟩) fun _ => ht
    exact .expr trivial (List.forall_mem_append.2 ⟨hleft, hindex⟩)

/-- What closes a statement is skipped. -/
theorem closed {statement : Stmt} (hstatement : Every Node.Faithful statement) (hs : s.Lexed) :
    (skipSemicolon >>= fun _ => pure statement : Parse Stmt).Faithful s :=
  .semicolon_bind (fun _ => .pure ⟨hstatement, hs.advance⟩) fun _ => .pure ⟨hstatement, hs⟩

theorem statement (h : self.Faithful) (rule : StmtRule) (hs : s.Lexed) :
    (rule.parse self).Faithful s := by
  cases rule <;> simp only [StmtRule.parse]
  case lookup => exact h .stmt s hs trivial
  case binding =>
    refine .current_bind (.name_bind (fun _ => ?_) fun _ => hs)
    refine .need_bind (fun _ => .advance_bind ?_) fun _ => hs.advance
    refine .bind_and (h.slot .lowest hs.advance.advance.advance) fun value t hvalue ht => ?_
    exact closed (.stmt trivial hvalue) ht
  case ret =>
    refine .current_bind (.advance_bind ?_)
    refine .bind_and (h.slot .lowest hs.advance) fun value t hvalue ht => ?_
    exact closed (.stmt trivial hvalue) ht
  case bare =>
    refine .current_bind (.bind_and (h.slot .lowest hs) fun value t hvalue ht => ?_)
    exact closed (.stmt trivial hvalue) ht
  case block =>
    exact .bind_and (h.block hs) fun block t hblock ht => .pure ⟨.stmt trivial hblock, ht⟩

theorem layer (h : self.Faithful) : Parses.Faithful (Grammar.standard.layer self) := by
  intro α goal s hs hgiven
  cases goal <;> simp only [Grammar.layer, Goal.Gives]
  case expr min =>
    refine .current_bind ?_
    split
    · exact .fail hs
    · rename_i rule hrule
      exact .bind_and (h.head hs hrule) fun left t hleft ht => h (.climb min left) t ht hleft
  case climb min left =>
    refine .ahead_bind ?_
    split
    · exact .pure ⟨hgiven, hs⟩
    · split
      · refine .advance_bind (.bind_and (h.tail hgiven _ _ hs.advance) fun grown t hgrown ht => ?_)
        exact h (.climb min grown) t ht hgrown
      · exact .pure ⟨hgiven, hs⟩
  case elements =>
    refine .ahead_bind ?_
    split
    · refine .advance_bind (.advance_bind ?_)
      refine .bind_and (h.expr .lowest hs.advance.advance) fun first t hfirst ht => ?_
      exact .bind_and (h .elements t ht trivial) fun others u hothers hu =>
        .pure ⟨Every.cons hfirst hothers, hu⟩
    · exact .pure ⟨Every.nil, hs⟩
  case names =>
    refine .ahead_bind ?_
    split
    · refine .advance_bind (.name_bind (fun _ => ?_) fun _ => hs.advance)
      exact .bind_and (h .names _ hs.advance.advance trivial) fun others t hothers ht =>
        .pure ⟨Every.cons (.ident _) hothers, ht⟩
    · exact .pure ⟨Every.nil, hs⟩
  case entries =>
    refine .ahead_bind ?_
    split
    · exact .pure ⟨Every.nil, hs⟩
    · refine .advance_bind (.bind_and (h.expr .lowest hs.advance) fun key t hkey ht => ?_)
      refine .need_bind (fun _ => .advance_bind ?_) fun _ => ht
      refine .bind_and (h.expr .lowest ht.advance.advance) fun value u hvalue hu => .ahead_bind ?_
      have hpair : Every Node.Faithful (key, value) := Every.pair.2 ⟨hkey, hvalue⟩
      split
      · refine .need_bind (fun _ => ?_) fun _ => hu
        exact .bind_and (h .entries _ hu.advance trivial) fun others v hothers hv =>
          .pure ⟨Every.cons hpair hothers, hv⟩
      · exact .bind_and (h .entries u hu trivial) fun others v hothers hv =>
          .pure ⟨Every.cons hpair hothers, hv⟩
  case stmt => exact .current_bind (h.statement _ hs)
  case stmts scope =>
    refine .current_bind ?_
    split
    · exact .pure ⟨Every.nil, hs⟩
    · have hstmt : (self .stmt).Faithful s := h .stmt s hs trivial
      refine .bind_and hstmt.recover fun first t hfirst ht => .advance_bind ?_
      exact .bind_and (h (.stmts scope) _ ht.advance trivial) fun others u hothers hu =>
        .pure ⟨Every.append hfirst hothers, hu⟩

end Parses.Faithful

theorem Grammar.run_faithful (budget : Nat) : Parses.Faithful (standard.run budget) := by
  induction budget with
  | zero => exact fun _ _ _ _ => .starve
  | succ budget ih => exact ih.layer

/-! ## Literals of a program -/

/-- What a state on the way of a parser gives cause for describes a token of a lexer. -/
theorem State.Meets.lexed {s : State} {d : Diagnostic} (h : s.Meets .standard d) (hs : s.Lexed) :
    ∃ t : Token, t.Lexed ∧ d.Describes t := by
  obtain ⟨u, hu, hcause⟩ := h
  have hu := hs.reaches hu.reaches
  rcases hcause.describes with hcurrent | hpeek
  · exact ⟨u.current, hu.1, hcurrent⟩
  · exact ⟨u.peek, hu.2, hpeek⟩

/-- Whatever a source holds and whatever character ends it, no decimal of it is refused, an integer
is refused only if it is made of digits that denote none below `2 ^ 63` in their base, and the
integers and strings of its program have the values that their tokens denote. -/
theorem Parser.program_literals (file source : String) (c : Char) :
    ∃ program p,
      (ofLexer ((Lexer.ofString file source).endingWith c)).program = some (.ok program, p) ∧
      (∀ text position, ⟨.badFloat text, position⟩ ∉ p.diagnostics) ∧
      (∀ text position, ⟨.badInteger text, position⟩ ∈ p.diagnostics →
        IsWhole text.toList ∧ Literal.Refused text.toList) ∧
      Every Node.Faithful program := by
  let lx := (Lexer.ofString file source).endingWith c
  have hlexed := State.lexed_ofLexer lx
  obtain ⟨program, s, hprogram, hrun⟩ := (Parser.ofLexer lx).program_ok Grammar.standard_grounded
  have hdescribes : ∀ d ∈ s.diagnostics.toList, ∃ t : Token, t.Lexed ∧ d.Describes t := by
    intro d hd
    rcases Grammar.run_meets hrun d (Array.mem_toList_iff.1 hd) with hd | hmeets
    · -- A new parser has recorded nothing.
      simp [Parser.ofLexer, State.ofLexer] at hd
    · exact hmeets.lexed hlexed
  refine ⟨program, _, hprogram, fun text position hd => ?_, fun text position hd => ?_, ?_⟩
  · obtain ⟨t, ht, -, hk, rfl, hnone⟩ := hdescribes _ hd
    simpa [hnone] using Literal.decimal?_of_isDecimal (ht.decimal hk)
  · obtain ⟨t, ht, -, hk, rfl, hnone⟩ := hdescribes _ hd
    have hwhole := ht.whole hk
    exact ⟨hwhole, Literal.refused_of_none hwhole.1 hwhole.2 hnone⟩
  · have hensures :=
      Grammar.run_faithful (Parser.ofLexer lx).budget (.stmts .script) _ hlexed trivial
    exact (hensures.done hrun).1

end ScriptFront
