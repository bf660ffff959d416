import Mathlib.Data.Set.Card
import ScriptFront.Proofs.Syntax.Blanks
import ScriptFront.Proofs.Syntax.RoundTrip
import ScriptFront.Proofs.Tree.Nodes

/-!
# Keys of a hash

Two pairs of a hash become one entry if their keys have the same text. Keys without conditions and
functions have the same text only if they are the same tree (`Expr.Written.alike_of_render`), and
never that of a key with one (`Expr.Scans.isPlain_eq`). Both is said of what a parser reads without
a diagnostic, so the nodes of a program are gone through once (`Grammar.run_forms`): each expression
scans as its kind does, and each hash has the entries of pairs that are written behind its brace.
-/

namespace ScriptFront

open Parse

/-! ## What is written -/

/-- The parser of the text can come to this state. -/
def Lexer.Meets (lx : Lexer) (s : State) : Prop := (State.ofLexer lx).Reaches s

namespace Lexer.Meets

variable {lx : Lexer} {s t : State}

theorem lexed (h : lx.Meets s) : s.Lexed := (State.lexed_ofLexer lx).reaches h

theorem advance (h : lx.Meets s) : lx.Meets s.advance := State.Reaches.advance h

theorem clean {α : Type} {p : Parse α} [p.Forward] {a : α} (h : lx.Meets s)
    (hp : p.Clean s a t) : lx.Meets t := State.Reaches.trans h (Forward.done hp.1)

end Lexer.Meets

/-- These pairs are written between the brace `token` and the one that closes it: a parser of the
text that has come to the brace reads them without a diagnostic. -/
def Lexer.Pairs (lx : Lexer) (token : Token) (pairs : List (Expr × Expr)) : Prop :=
  ∃ budget s t, lx.Meets s ∧ s.current = token ∧ token.kind = .openCurly ∧
    (Grammar.standard.run budget .entries).Clean s pairs t ∧ t.peek.kind = .closeCurly

/-- A node of a tree that is written in the text. -/
def Node.Formed (lx : Lexer) : Node → Prop
  | .expr (.hash token entries) => (Expr.hash token entries).Scans ∧
      ∃ pairs, lx.Pairs token pairs ∧ entries = Entries.ofPairs pairs
  | .expr e => e.Scans
  | .stmt s => s.Scans
  | .block b => b.Scans

theorem Node.Formed.scans {lx : Lexer} {e : Expr} (h : Node.Formed lx (.expr e)) : e.Scans := by
  cases e with
  | hash => exact h.1
  | _ => exact h

/-- What a parser parses without a diagnostic is made of such nodes. -/
structure Parses.Forms (lx : Lexer) (parse : Parses) : Prop where
  expr {min : Power} {s t : State} {e : Expr} :
    lx.Meets s → (parse (.expr min)).Clean s e t → Every (Node.Formed lx) e
  climb {min : Power} {left : Expr} {s t : State} {e : Expr} :
    lx.Meets s → Every (Node.Formed lx) left → (parse (.climb min left)).Clean s e t →
      Every (Node.Formed lx) e
  elements {s t : State} {es : List Expr} :
    lx.Meets s → (parse .elements).Clean s es t → Every (Node.Formed lx) es
  names {s t : State} {names : List Ident} :
    lx.Meets s → (parse .names).Clean s names t → ∀ name ∈ names, name.Lexed
  entries {s t : State} {pairs : List (Expr × Expr)} :
    lx.Meets s → (parse .entries).Clean s pairs t → Every (Node.Formed lx) pairs
  stmt {s t : State} {statement : Stmt} :
    lx.Meets s → (parse .stmt).Clean s statement t → Every (Node.Formed lx) statement
  stmts {scope : Scope} {s t : State} {body : List Stmt} :
    lx.Meets s → (parse (.stmts scope)).Clean s body t → Every (Node.Formed lx) body

namespace Parses.Forms

variable {lx : Lexer} {self : Parses} [∀ {α : Type} (goal : Goal α), (self goal).Forward]
  {s t : State}

theorem each {es : List Expr} (h : Every (Node.Formed lx) es) : ∀ e ∈ es, e.Scans :=
  fun _ he => (h.mem he).of_expr.scans

theorem list (h : self.Forms lx) {closing : Kind} {es : List Expr} (hs : lx.Meets s)
    (hes : (parseList self closing).Clean s es t) : Every (Node.Formed lx) es := by
  rw [clean_list] at hes
  split at hes
  · exact hes.1 ▸ .nil
  · obtain ⟨first, u, hfirst, others, v, hothers, -, rfl, -⟩ := hes
    exact .cons (h.expr hs.advance hfirst) (h.elements (hs.advance.clean hfirst) hothers)

theorem parameters (h : self.Forms lx) {names : List Ident} (hs : lx.Meets s)
    (hnames : (parseParameters self).Clean s names t) : ∀ name ∈ names, name.Lexed := by
  rw [clean_parameters] at hnames
  split at hnames
  · simp [hnames.1]
  · obtain ⟨hk, others, u, hothers, -, rfl, -⟩ := hnames
    exact List.forall_mem_cons.2 ⟨⟨hs.lexed.2, hk, rfl⟩, h.names hs.advance hothers⟩

theorem block (h : self.Forms lx) {b : Block} (hs : lx.Meets s)
    (hb : (parseBlock self).Clean s b t) : Every (Node.Formed lx) b := by
  obtain ⟨body, hbody, rfl⟩ := clean_block.1 hb
  have hbody := h.stmts hs.advance hbody
  exact .block (Block.scans fun s hs => (hbody.mem hs).of_stmt) hbody

theorem alternative (h : self.Forms lx) {b : Option Block} (hs : lx.Meets s)
    (hb : (parseElse self).Clean s b t) : Every (Node.Formed lx) b := by
  rw [clean_else] at hb
  split at hb
  · obtain ⟨-, block, hblock, rfl⟩ := hb
    exact .some (h.block hs.advance.advance hblock)
  · exact hb.1 ▸ .none

theorem leaf {rule : HeadRule} {e : Expr} (hs : lx.Meets s)
    (hrule : Grammar.standard.heads s.current.kind = some rule)
    (he : rule.leaf? s.current = some e) : Every (Node.Formed lx) e := by
  have hscans : e.Scans := .leaf hs.lexed.1 (by simpa [Grammar.leaf?, hrule] using he)
  cases rule <;> simp only [HeadRule.leaf?, Option.some.injEq, Option.map_eq_some_iff,
    reduceCtorEq] at he
  case integer | float =>
    obtain ⟨value, -, rfl⟩ := he
    exact .expr hscans (List.forall_mem_nil _)
  all_goals
    subst he
    exact .expr hscans (List.forall_mem_nil _)

/-- Where a parser reads pairs, they are written. -/
def Reads (lx : Lexer) (parse : Parses) : Prop :=
  ∀ ⦃s t : State⦄ ⦃pairs : List (Expr × Expr)⦄, lx.Meets s → s.current.kind = .openCurly →
    (parse .entries).Clean s pairs t → t.peek.kind = .closeCurly → lx.Pairs s.current pairs

theorem head (h : self.Forms lx) (hreads : Reads lx self) {rule : HeadRule} {e : Expr}
    (hs : lx.Meets s) (hrule : Grammar.standard.heads s.current.kind = some rule)
    (he : (rule.parse self).Clean s e t) : Every (Node.Formed lx) e := by
  have hstarts := Grammar.standard_heads.1 hrule
  cases rule with
  | ident => exact leaf hs hrule (by rw [(clean_ident.1 he).1]; rfl)
  | integer =>
    obtain ⟨value, hvalue, rfl, -⟩ := clean_integer.1 he
    exact leaf hs hrule (by simp [HeadRule.leaf?, hvalue])
  | float =>
    obtain ⟨value, hvalue, rfl, -⟩ := clean_float.1 he
    exact leaf hs hrule (by simp [HeadRule.leaf?, hvalue])
  | boolean => exact leaf hs hrule (by rw [(clean_boolean.1 he).1]; rfl)
  | string => exact leaf hs hrule (by rw [(clean_string.1 he).1]; rfl)
  | unary =>
    obtain ⟨right, hright, rfl⟩ := clean_unary.1 he
    have hright := h.expr hs.advance hright
    exact .expr (.unary hs.lexed.1 (by simpa [HeadRule.starts] using hstarts) hright.of_expr.scans)
      hright.some
  | group =>
    obtain ⟨u, hinner, -, -⟩ := clean_group.1 he
    exact h.expr hs.advance hinner
  | cond =>
    obtain ⟨-, condition, u, hcondition, -, -, consequence, v, hconsequence, alternative,
      halternative, rfl⟩ := clean_cond.1 he
    have hu := hs.advance.advance.clean hcondition
    have hcondition := h.expr hs.advance.advance hcondition
    have hv := hu.advance.advance.clean hconsequence
    have hconsequence := h.block hu.advance.advance hconsequence
    refine .expr (.cond hcondition.of_expr.scans hconsequence.of_block) ?_
    exact List.forall_mem_append.2 ⟨hcondition.some, List.forall_mem_append.2
      ⟨hconsequence, h.alternative hv halternative⟩⟩
  | function =>
    obtain ⟨-, parameters, u, hparameters, -, body, hbody, rfl⟩ := clean_function.1 he
    have hu := hs.advance.clean hparameters
    have hbody := h.block hu.advance hbody
    exact .expr (.function hs.lexed.1 (List.mem_singleton.1 hstarts)
      (h.parameters hs.advance hparameters) hbody.of_block) hbody
  | array =>
    obtain ⟨elements, helements, rfl⟩ := clean_array.1 he
    have helements := h.list hs helements
    exact .expr (.array (each helements)) helements
  | hash =>
    obtain ⟨pairs, u, hpairs, hclosing, rfl, -⟩ := clean_hash.1 he
    have hwritten := hreads hs (List.mem_singleton.1 hstarts) hpairs hclosing
    have hpairs := h.entries hs hpairs
    have hscans := Entries.forall_ofPairs fun p hp => ⟨(Every.pair.1 (hpairs.mem hp)).1.of_expr.scans,
      (Every.pair.1 (hpairs.mem hp)).2.of_expr.scans⟩
    exact .expr ⟨.hash hscans, pairs, hwritten, rfl⟩ (Every.ofPairs hpairs)

theorem tail (h : self.Forms lx) {left e : Expr} {power : Power} {rule : TailRule}
    (hs : lx.Meets s) (hrule : Grammar.standard.tails s.current.kind = some (power, rule))
    (hleft : Every (Node.Formed lx) left) (he : (rule.parse self left power).Clean s e t) :
    Every (Node.Formed lx) e := by
  cases rule with
  | binary =>
    obtain ⟨right, hright, rfl⟩ := clean_binary.1 he
    have hright := h.expr hs.advance hright
    exact .expr (.binary hs.lexed.1 (Grammar.standard_binary hrule).1 hleft.of_expr.scans
      hright.of_expr.scans) (List.forall_mem_append.2 ⟨hleft, hright.some⟩)
  | call =>
    obtain ⟨arguments, harguments, rfl⟩ := clean_call.1 he
    have harguments := h.list hs harguments
    exact .expr (.call hleft.of_expr.scans (each harguments))
      (List.forall_mem_append.2 ⟨hleft, harguments⟩)
  | index =>
    obtain ⟨index, u, hindex, -, rfl, -⟩ := clean_index.1 he
    have hindex := h.expr hs.advance hindex
    exact .expr (.index hleft.of_expr.scans hindex.of_expr.scans)
      (List.forall_mem_append.2 ⟨hleft, hindex⟩)

theorem entries_layer (h : self.Forms lx) {pairs : List (Expr × Expr)} (hs : lx.Meets s)
    (hpairs : (Grammar.standard.layer self .entries).Clean s pairs t) :
    Every (Node.Formed lx) pairs := by
  rw [clean_entries] at hpairs
  split at hpairs
  · exact hpairs.1 ▸ .nil
  · obtain ⟨key, u, hkey, -, value, v, hvalue, hothers⟩ := hpairs
    have hu := (hs.advance.clean hkey).advance.advance
    have hv := hu.clean hvalue
    have hpair := Every.pair.2 ⟨h.expr hs.advance hkey, h.expr hu hvalue⟩
    rcases hothers with ⟨-, others, hothers, rfl⟩ | ⟨-, others, hothers, rfl⟩
    · exact .cons hpair (h.entries hv hothers)
    · exact .cons hpair (h.entries hv.advance hothers)

theorem stmt_layer (h : self.Forms lx) {statement : Stmt} (hs : lx.Meets s)
    (hp : (Grammar.standard.layer self .stmt).Clean s statement t) :
    Every (Node.Formed lx) statement := by
  rw [clean_stmt, Grammar.standard_stmts] at hp
  split at hp
  · rename_i hlet
    obtain ⟨-, -, value, u, hvalue, rfl, -⟩ := clean_binding.1 hp
    exact .stmt (.binding hs.lexed.1 hlet) (h.expr hs.advance.advance.advance hvalue).some
  · split at hp
    · rename_i hret
      obtain ⟨value, u, hvalue, rfl, -⟩ := clean_ret.1 hp
      exact .stmt (.ret hs.lexed.1 hret) (h.expr hs.advance hvalue).some
    · obtain ⟨value, u, hvalue, rfl, -⟩ := clean_bare.1 hp
      have hvalue := h.expr hs hvalue
      exact .stmt (.bare hvalue.of_expr.scans) hvalue.some

theorem layer (h : self.Forms lx) (hreads : Reads lx self) :
    Parses.Forms lx (Grammar.standard.layer self) where
  expr hs he := by
    obtain ⟨rule, hrule, left, u, hleft, he⟩ := clean_expr.1 he
    exact h.climb (hs.clean hleft) (h.head hreads hs hrule hleft) he
  climb hs hleft he := by
    rcases clean_climb.1 he with ⟨power, rule, hrule, -, -, grown, u, hgrown, he⟩ | ⟨-, rfl, -⟩
    · have hformed := h.tail (s := State.advance _) hs.advance hrule hleft hgrown
      exact h.climb (hs.advance.clean hgrown) hformed he
    · exact hleft
  elements hs hes := by
    rw [clean_elements] at hes
    split at hes
    · obtain ⟨first, u, hfirst, others, hothers, rfl⟩ := hes
      have hs' := hs.advance.advance
      exact .cons (h.expr hs' hfirst) (h.elements (hs'.clean hfirst) hothers)
    · exact hes.1 ▸ .nil
  names hs hnames := by
    rw [clean_names] at hnames
    split at hnames
    · obtain ⟨hk, others, hothers, rfl⟩ := hnames
      exact List.forall_mem_cons.2
        ⟨⟨hs.advance.lexed.2, hk, rfl⟩, h.names hs.advance.advance hothers⟩
    · simp [hnames.1]
  entries := h.entries_layer
  stmt := h.stmt_layer
  stmts hs hbody := by
    rw [clean_stmts] at hbody
    split at hbody
    · exact hbody.1 ▸ .nil
    · obtain ⟨first, u, hfirst, others, hothers, rfl⟩ := hbody
      exact .cons (h.stmt hs hfirst) (h.stmts (hs.clean hfirst).advance hothers)

end Parses.Forms

theorem Grammar.run_forms (lx : Lexer) (budget : Nat) : Parses.Forms lx (standard.run budget) := by
  induction budget with
  | zero =>
    refine ⟨fun _ h => ?_, fun _ _ h => ?_, fun _ h => ?_, fun _ h => ?_, fun _ h => ?_,
      fun _ h => ?_, fun _ h => ?_⟩ <;> cases h.1
  | succ budget ih =>
    exact ih.layer fun s t pairs hs hk hpairs hclosing =>
      ⟨budget, s, t, hs, rfl, hk, hpairs, hclosing⟩

/-! ## Keys -/

/-- The tree is told by its text. -/
theorem Expr.Written.alike_of_render {e e' : Expr} (h : e.Written) (h' : e'.Written)
    (heq : e.render = e'.render) : Alike e e' := by
  let t : Token := .atEnd "" 0
  obtain ⟨s, p, hparse, -, hs⟩ := (Stmt.Written.bare (t := t) h).parses ""
  obtain ⟨s', p', hparse', -, hs'⟩ := (Stmt.Written.bare (t := t) h').parses ""
  have hrender : (Stmt.bare t (some e)).render = (Stmt.bare t (some e')).render := heq
  rw [hrender, hparse'] at hparse
  cases hparse
  have hsame : Alike (Stmt.bare t (some e)) (.bare t (some e')) := hs.trans hs'.symm
  unfold Alike at *
  simpa using hsame

/-- What is known of a key that is read. -/
structure Expr.IsKey (e : Expr) : Prop where
  fair : e.Fair
  scans : e.Scans

theorem Lexer.Pairs.keys {lx : Lexer} {token : Token} {pairs : List (Expr × Expr)}
    (h : lx.Pairs token pairs) : ∀ p ∈ pairs, p.1.IsKey := by
  obtain ⟨budget, s, t, hs, -, -, hpairs, -⟩ := h
  have hformed := (Grammar.run_forms lx budget).entries hs hpairs
  have hfair := (Grammar.run_writes budget).entries hs.lexed hpairs
  exact fun p hp => ⟨(hfair p hp).1, (Every.pair.1 (hformed.mem hp)).1.of_expr.scans⟩

/-- Keys with one text are alike, or there is a condition or a function in both. -/
theorem Expr.IsKey.render_eq_iff {e e' : Expr} (h : e.IsKey) (h' : e'.IsKey) :
    e.render = e'.render ↔
      Alike e e' ∨ ¬ e.isPlain ∧ ¬ e'.isPlain ∧ e.render = e'.render := by
  constructor
  · intro heq
    have hplain := h.scans.isPlain_eq h'.scans heq
    by_cases he : e.isPlain
    · exact .inl ((h.fair he).alike_of_render (h'.fair (hplain ▸ he)) heq)
    · exact .inr ⟨he, hplain ▸ he, heq⟩
  · rintro (halike | ⟨-, -, heq⟩)
    · rw [← e.render_respan Span.forget, ← e'.render_respan Span.forget]
      exact congrArg Expr.render halike
    · exact heq

/-- The keys without conditions and functions, up to spans. -/
def plainKeys (pairs : List (Expr × Expr)) : Set Expr :=
  {key | ∃ p ∈ pairs, p.1.isPlain ∧ respan Span.forget p.1 = key}

/-- The texts of the other keys. -/
def otherKeys (pairs : List (Expr × Expr)) : Set String :=
  {text | ∃ p ∈ pairs, ¬ p.1.isPlain ∧ p.1.render = text}

/-- The texts of all keys are those of the one sort and those of the other. -/
theorem texts_eq (pairs : List (Expr × Expr)) :
    ((pairs.map (·.1.render)).toFinset : Set String) =
      Expr.render '' plainKeys pairs ∪ otherKeys pairs := by
  ext text
  simp only [List.coe_toFinset, List.mem_map, Set.mem_union, Set.mem_image]
  constructor
  · rintro ⟨p, hp, rfl⟩
    by_cases hplain : p.1.isPlain
    · exact .inl ⟨_, ⟨p, hp, hplain, rfl⟩, p.1.render_respan _⟩
    · exact .inr ⟨p, hp, hplain, rfl⟩
  · rintro (⟨_, ⟨p, hp, -, rfl⟩, rfl⟩ | ⟨p, hp, -, rfl⟩)
    · exact ⟨p, hp, (p.1.render_respan _).symm⟩
    · exact ⟨p, hp, rfl⟩

theorem Lexer.Pairs.length_eq {lx : Lexer} {token : Token} {pairs : List (Expr × Expr)}
    (h : lx.Pairs token pairs) :
    (Entries.ofPairs pairs).length = (plainKeys pairs).ncard + (otherKeys pairs).ncard := by
  have hinj : Set.InjOn Expr.render (plainKeys pairs) := by
    rintro _ ⟨p, hp, hplain, rfl⟩ _ ⟨q, hq, -, rfl⟩ heq
    have heq : p.1.render = q.1.render := by
      rwa [show (respan Span.forget p.1).render = _ from p.1.render_respan _,
        show (respan Span.forget q.1).render = _ from q.1.render_respan _] at heq
    exact ((h.keys p hp).render_eq_iff (h.keys q hq)).1 heq |>.resolve_right fun hother =>
      hother.1 hplain
  have hdisjoint : Disjoint (Expr.render '' plainKeys pairs) (otherKeys pairs) := by
    refine Set.disjoint_left.2 ?_
    rintro _ ⟨_, ⟨p, hp, hplain, rfl⟩, rfl⟩ ⟨q, hq, hother, heq⟩
    have heq : p.1.render = q.1.render := (p.1.render_respan _).symm.trans heq.symm
    exact hother ((h.keys p hp).scans.isPlain_eq (h.keys q hq).scans heq ▸ hplain)
  have hfinite := (pairs.map (·.1.render)).toFinset.finite_toSet
  rw [texts_eq] at hfinite
  rw [Entries.length_ofPairs, ← Set.ncard_coe_finset, texts_eq,
    Set.ncard_union_eq hdisjoint (hfinite.subset Set.subset_union_left)
      (hfinite.subset Set.subset_union_right), hinj.ncard_image]

/-- In a text that is parsed without a diagnostic, each hash of the program has the entries of the
pairs that are written behind its brace. Wherever pairs are written, also in a hash that another
entry takes the place of, two of them become one if and only if their keys are the same tree, or
have the same text and a condition or a function in them. So there are as many entries as different
trees of the one sort and different texts of the other. -/
theorem Parser.program_hashes {lx : Lexer} {program : Program} {p : Parser}
    (hparse : (ofLexer lx).program = some (.ok program, p)) (hnone : p.diagnostics = []) :
    (∀ token entries, .expr (.hash token entries) ∈ nodes program →
      ∃ pairs, lx.Pairs token pairs ∧ entries = Entries.ofPairs pairs) ∧
    ∀ token pairs, lx.Pairs token pairs →
      (∀ a ∈ pairs, ∀ b ∈ pairs, Entries.Merges a b ↔
        Alike a.1 b.1 ∨ ¬ a.1.isPlain ∧ ¬ b.1.isPlain ∧ a.1.render = b.1.render) ∧
      (Entries.ofPairs pairs).length = (plainKeys pairs).ncard + (otherKeys pairs).ncard := by
  have hmeets : lx.Meets (State.ofLexer lx) := .refl
  have hformed := (Grammar.run_forms lx _).stmts hmeets (Parser.program_clean hparse hnone)
  refine ⟨fun token entries hhash => (hformed _ hhash).2, fun token pairs hpairs => ?_⟩
  refine ⟨fun a ha b hb => ?_, hpairs.length_eq⟩
  rw [Entries.merges_iff]
  exact (hpairs.keys a ha).render_eq_iff (hpairs.keys b hb)

/-- A name that is written twice, with a function between. -/
theorem program_hashes_repeated :
    ∃ program p token entries pairs,
      (Parser.ofLexer (.ofString "shell" "\x7ba: 1, fn() \x7b\x7d: 2, a: 3\x7d")).program =
        some (.ok program, p) ∧
      p.diagnostics = [] ∧ .expr (.hash token entries) ∈ nodes program ∧
      (Lexer.ofString "shell" "\x7ba: 1, fn() \x7b\x7d: 2, a: 3\x7d").Pairs token pairs ∧
      entries = Entries.ofPairs pairs ∧ entries.length = 2 ∧
      (plainKeys pairs).ncard + (otherKeys pairs).ncard = 2 := by
  let token (kind : Kind) (text : String) (start stop : Nat) : Token :=
    ⟨kind, text, ⟨start, stop, "shell"⟩⟩
  let number (text : String) (value : Int) (start stop : Nat) : Expr :=
    .integer (token .int text start stop) value
  let a := Expr.ident (token .identifier "a" 1 2).toIdent
  let f := Expr.function (token .fnWord "fn" 7 9) [] (.mk (token .openCurly "\x7b" 12 13) [])
  let opening := token .openCurly "\x7b" 0 1
  let entries := [(a, number "3" 3 22 23), (f, number "2" 2 16 17)]
  let program := Program.mk [.bare opening (some (.hash opening entries))]
  have hnode : .expr (.hash opening entries) ∈ nodes program := by
    simp [program, nodes, Stmt.nodes, Expr.nodes, nodesSlot]
  have hhashes := @Parser.program_hashes
    (.ofString "shell" "\x7ba: 1, fn() \x7b\x7d: 2, a: 3\x7d") program _ rfl rfl
  obtain ⟨pairs, hpairs, hentries⟩ := hhashes.1 opening entries hnode
  have hlength := (hhashes.2 opening pairs hpairs).2
  rw [← hentries] at hlength
  exact ⟨program, _, opening, entries, pairs, rfl, rfl, hnode, hpairs, hentries, rfl,
    hlength.symm⟩

/-- Two functions whose bodies have different statements and one text. -/
theorem keys_merge_bodies :
    ∃ program p token entries a b,
      parse "shell" "\x7bfn() \x7b1 2\x7d: 1, fn() \x7b12\x7d: 2\x7d" = some (.ok program, p) ∧
      p.diagnostics = [] ∧ .expr (.hash token entries) ∈ nodes program ∧
      (Lexer.ofString "shell" "\x7bfn() \x7b1 2\x7d: 1, fn() \x7b12\x7d: 2\x7d").Pairs token [a, b] ∧
      entries = Entries.ofPairs [a, b] ∧ entries.length = 1 ∧
      Entries.Merges a b ∧ ¬ Alike a.1 b.1 := by
  let token (kind : Kind) (text : String) (start stop : Nat) : Token :=
    ⟨kind, text, ⟨start, stop, "shell"⟩⟩
  let number (text : String) (value : Int) (start stop : Nat) : Expr :=
    .integer (token .int text start stop) value
  let bare (e : Expr) : Stmt := .bare e.token (some e)
  let a := Expr.function (token .fnWord "fn" 1 3) [] (.mk (token .openCurly "\x7b" 6 7)
    [bare (number "1" 1 7 8), bare (number "2" 2 9 10)])
  let b := Expr.function (token .fnWord "fn" 16 18) [] (.mk (token .openCurly "\x7b" 21 22)
    [bare (number "12" 12 22 24)])
  let opening := token .openCurly "\x7b" 0 1
  let hash := Expr.hash opening [(a, number "2" 2 27 28)]
  have hnode : .expr hash ∈ nodes (Program.mk [bare hash]) := by
    simp [nodes, Stmt.nodes, Expr.nodes, bare, nodesSlot, hash]
  have hrender : a.render = b.render := by decide
  refine ⟨⟨[bare hash]⟩, _, opening, _, (a, number "1" 1 13 14), (b, number "2" 2 27 28), rfl, rfl,
    hnode, ⟨20, .ofLexer _, _, .refl, rfl, rfl, ⟨rfl, rfl⟩, rfl⟩, ?_, rfl,
    Entries.merges_iff.2 hrender, ?_⟩
  · simp [Entries.ofPairs, Entries.insert, hrender]
  · intro h
    simp [Alike, a, b, bare] at h

end ScriptFront
