import ScriptFront.Proofs.Syntax.Soundness
import ScriptFront.Proofs.Syntax.Written
import ScriptFront.Proofs.Token.Tiling
import ScriptFront.Proofs.Tree.Spans

/-!
# Reading what is rendered

The text of a written tree is read as tokens from which the syntax derives the same tree, up to
spans. Every mark of the text is a token by itself, and what stands behind a token of the tree is
never a character that would go on with it. `ReadsAs` says so of a phrase and a text; there is a
lemma for each way in which a tree is written.
-/

namespace ScriptFront

open Text

/-! ## Marks and words -/

namespace Lexeme.Shaped

variable {kind : Kind} {read echo rest : List Char}

/-- Only `=` goes on with an operator that stands before its operand. -/
theorem before_operand (h : Shaped ⟨kind, read, echo, rest⟩) (hk : kind = .bang ∨ kind = .dash)
    {rest' : List Char} (hrest : '=' ∉ rest'.head?) : Shaped ⟨kind, read, echo, rest'⟩ := by
  cases h with
  | alone hc => exact .alone hc hrest
  | mark heq hbang hquote hword hblank => exact .mark heq hbang hquote hword hblank
  | paired hc =>
    simp only [List.mem_cons, Prod.mk.injEq, List.not_mem_nil, or_false] at hc
    rcases hc with ⟨-, rfl⟩ | ⟨-, rfl⟩ <;> simp at hk
  | @word c cs _ =>
    have hword := Kind.ofWord_mem (String.ofList (c :: cs))
    rcases hk with hk | hk <;> rw [hk] at hword <;> exact absurd hword (by decide)
  | string | unclosed | int | float | points => simp at hk

/-- Only `=` and `==` start with `=`. -/
theorem head_ne_assign (h : Shaped ⟨kind, read, echo, rest⟩) (hassign : kind ≠ .assign)
    (hequal : kind ≠ .equal) : ∃ c ∈ read.head?, c ≠ '=' := by
  cases h with
  | alone hc | paired hc =>
    simp only [List.mem_cons, Prod.mk.injEq, List.not_mem_nil, or_false] at hc
    rcases hc with ⟨-, rfl⟩ | ⟨rfl, rfl⟩
    · contradiction
    · exact ⟨'!', rfl, by decide⟩
  | string hq => exact ⟨_, rfl, ne_of_class hq (by decide)⟩
  | unclosed hq => exact ⟨_, rfl, ne_of_class hq (by decide)⟩
  | word hc => exact ⟨_, rfl, ne_of_class hc (by decide)⟩
  | int hwhole | float hwhole | points hwhole =>
    exact ⟨_, rfl, ne_of_class (hwhole _ List.mem_cons_self) (by decide)⟩
  | mark heq => exact ⟨_, rfl, heq⟩

end Lexeme.Shaped

/-! ## Reading token by token -/

namespace Tape

/-- `ts` is read off the tape, none of it an end, up to `after`. -/
def Reads (tape : Tape) (ts : List Token) (after : Tape) : Prop :=
  tape.tokens = ts ++ after.tokens ∧ ∀ t ∈ ts, t.kind ≠ .eof

variable {tape tape' after : Tape} {ts us : List Token} {c : Char} {rest : List Char}

theorem Reads.refl (tape : Tape) : tape.Reads [] tape := ⟨by simp, by simp⟩

theorem Reads.trans (h : tape.Reads ts tape') (h' : tape'.Reads us after) :
    tape.Reads (ts ++ us) after := by
  refine ⟨by rw [h.1, h'.1, List.append_assoc], fun t ht => ?_⟩
  rcases List.mem_append.1 ht with ht | ht
  · exact h.2 t ht
  · exact h'.2 t ht

theorem reads_lexeme {kind : Kind} {read : List Char}
    (hx : Lexeme.Shaped ⟨kind, read, [], rest⟩) (hkind : kind ≠ .eof)
    (htape : tape.pending = read ++ rest) : ∃ t after, tape.Reads [t] after ∧ after.pending = rest ∧
      t.kind = kind ∧ t.text = String.ofList read := by
  obtain ⟨file, n, pending⟩ := tape
  cases htape
  have htokens := @tokens_lexeme file n [] _ _ _ _ (by simp) hx
  refine ⟨_, _, ⟨htokens, by simpa [token] using hkind⟩, rfl, rfl, ?_⟩
  simp [token, Lexeme.shown]

theorem reads_blank (htape : tape.pending = ' ' :: rest) :
    ∃ after, tape.Reads [] after ∧ after.pending = rest := by
  obtain ⟨file, n, pending⟩ := tape
  cases htape
  exact ⟨⟨file, n + 1, rest⟩, ⟨tokens_space rest, by simp⟩, rfl⟩

/-- A character that is a token whatever stands behind it. -/
def IsMark (c : Char) : Prop :=
  c ≠ '=' ∧ c ≠ '!' ∧ ¬ isQuote c ∧ ¬ isWordChar c ∧ ¬ isBlank c

instance (c : Char) : Decidable (IsMark c) :=
  inferInstanceAs (Decidable (c ≠ '=' ∧ c ≠ '!' ∧ ¬ isQuote c ∧ ¬ isWordChar c ∧ ¬ isBlank c))

theorem reads_mark {kind : Kind} (hc : IsMark c) (hkind : Kind.ofMark? c = some kind)
    (hne : kind ≠ .eof) (htape : tape.pending = c :: rest) :
    ∃ t after, tape.Reads [t] after ∧ after.pending = rest ∧ t.kind = kind ∧
      t.text = String.ofList [c] := by
  have hx : Lexeme.Shaped ⟨kind, [c], [], rest⟩ := by
    have := @Lexeme.Shaped.mark c rest hc.1 hc.2.1 hc.2.2.1 hc.2.2.2.1 hc.2.2.2.2
    rwa [hkind] at this
  exact reads_lexeme hx hne htape

end Tape

/-- What the text starts with goes on with no lexeme. -/
def Stops (rest : List Char) : Prop := ∃ c ∈ rest.head?, Lexeme.Breaks c

theorem stops_cons {c : Char} (hc : Lexeme.Breaks c) (rest : List Char) : Stops (c :: rest) :=
  ⟨c, rfl, hc⟩

namespace Token.Lexed

variable {t : Token} {tape : Tape} {rest : List Char}

/-- A token that is legal is a closed lexeme without an echo. -/
theorem shaped (h : t.Lexed) (hk : t.kind ≠ .illegal) :
    ∃ rest, Lexeme.Shaped ⟨t.kind, t.text.toList, [], rest⟩ := by
  obtain ⟨⟨kind, read, echo, rest⟩, hx, rfl, htext⟩ := h
  have hecho : echo = [] := by
    rcases hx.echo with hecho | ⟨-, hkind, -⟩
    · exact hecho
    · exact (hk hkind).elim
  subst hecho
  refine ⟨rest, ?_⟩
  rw [htext]
  simpa [Lexeme.shown] using hx

/-- A token of a tree is read back in front of what goes on with nothing. -/
theorem reads (h : t.Lexed) (hk : t.kind ≠ .illegal) (hend : t.kind ≠ .eof) (hrest : Stops rest)
    (htape : tape.pending = t.text.toList ++ rest) :
    ∃ t' after, tape.Reads [t'] after ∧ after.pending = rest ∧ Alike t t' := by
  obtain ⟨rest', hx⟩ := h.shaped hk
  have hx := hx.behind (fun hopen => hk hopen.1) (.inr ⟨rfl, hrest⟩)
  obtain ⟨t', after, hreads, hafter, hkind, htext⟩ := Tape.reads_lexeme hx hend htape
  exact ⟨t', after, hreads, hafter, Token.alike_iff.2 ⟨hkind.symm, by simp [htext]⟩⟩

theorem reads_operator (h : t.Lexed) (hk : t.kind = .bang ∨ t.kind = .dash)
    (hrest : '=' ∉ rest.head?) (htape : tape.pending = t.text.toList ++ rest) :
    ∃ t' after, tape.Reads [t'] after ∧ after.pending = rest ∧ Alike t t' := by
  obtain ⟨rest', hx⟩ := h.shaped (by rcases hk with hk | hk <;> simp [hk])
  obtain ⟨t', after, hreads, hafter, hkind, htext⟩ := Tape.reads_lexeme
    (hx.before_operand hk hrest) (by rcases hk with hk | hk <;> simp [hk]) htape
  exact ⟨t', after, hreads, hafter, Token.alike_iff.2 ⟨hkind.symm, by simp [htext]⟩⟩

/-- An opening mark is read back as the token of the tree. -/
theorem reads_opening {c : Char} (h : t.Lexed) (hc : Tape.IsMark c)
    (hmark : Kind.ofMark? c = some t.kind) (hk : t.kind ∈ [.openParen, .openBracket, .openCurly])
    (htape : tape.pending = c :: rest) :
    ∃ t' after, tape.Reads [t'] after ∧ after.pending = rest ∧ Alike t t' := by
  have hne : t.kind ≠ .illegal ∧ t.kind ≠ .eof := by
    constructor <;> rintro heq <;> simp [heq] at hk
  obtain ⟨rest', hx⟩ := h.shaped hne.1
  have htext : t.text = String.ofList [c] := by
    rw [← hx.read_of_mark hmark, String.ofList_toList]
  obtain ⟨t', after, hreads, hafter, hkind, htext'⟩ := Tape.reads_mark hc hmark hne.2 htape
  exact ⟨t', after, hreads, hafter, Token.alike_iff.2 ⟨hkind.symm, by rw [htext, htext']⟩⟩

end Token.Lexed

/-! ## Leaves -/

namespace Grammar

variable {t t' : Token} {e : Expr}

theorem leaf?_kind (h : standard.leaf? t = some e) :
    t.kind ∈ [.identifier, .int, .float, .trueWord, .falseWord, .string] := by
  obtain ⟨rule, hrule, hleaf⟩ := Option.bind_eq_some_iff.1 h
  have hstarts : ∀ kind ∈ rule.starts,
      kind ∈ [.identifier, .int, .float, .trueWord, .falseWord, .string] := by
    cases rule with
    | unary | group | cond | function | array | hash => cases hleaf
    | ident | integer | float | boolean | string => decide
  exact hstarts _ (standard_heads.1 hrule)

theorem leaf?_kind_ne (h : standard.leaf? t = some e) {kind : Kind}
    (hk : kind ∉ [.identifier, .int, .float, .trueWord, .falseWord, .string]) : t.kind ≠ kind := by
  rintro rfl
  exact hk (leaf?_kind h)

theorem leaf?_render (h : standard.leaf? t = some e) : e.render = t.text := by
  obtain ⟨rule, hrule, hleaf⟩ := Option.bind_eq_some_iff.1 h
  cases rule <;> simp only [HeadRule.leaf?, Option.some.injEq, Option.map_eq_some_iff,
    reduceCtorEq] at hleaf
  case integer | float =>
    obtain ⟨value, -, rfl⟩ := hleaf
    rfl
  all_goals
    subst hleaf
    rfl

theorem leaf?_respan (f : Span → Span) (t : Token) :
    standard.leaf? (respan f t) = (standard.leaf? t).map (respan f) := by
  unfold leaf?
  rw [respan_kind]
  cases standard.heads t.kind with
  | none => rfl
  | some rule =>
    cases rule <;> simp [HeadRule.leaf?, Function.comp_def]

theorem leaf?_alike (h : standard.leaf? t = some e) (ht : Alike t t') :
    ∃ e', standard.leaf? t' = some e' ∧ Alike e e' := by
  have hmap : (standard.leaf? t').map (respan Span.forget) = some (respan Span.forget e) := by
    have ht : respan Span.forget t = respan Span.forget t' := ht
    rw [← leaf?_respan, ← ht, leaf?_respan, h]
    rfl
  obtain ⟨e', he', heq⟩ := Option.map_eq_some_iff.1 hmap
  exact ⟨e', he', heq.symm⟩

theorem leaf?_derives (h : standard.leaf? t = some e) (rest : List Token) :
    Derives .primary (t :: rest) e rest := by
  obtain ⟨rule, hrule, hleaf⟩ := Option.bind_eq_some_iff.1 h
  have hkind := standard_heads.1 hrule
  cases rule <;> simp only [HeadRule.leaf?, HeadRule.starts, Option.some.injEq,
    Option.map_eq_some_iff, reduceCtorEq, List.mem_cons, List.not_mem_nil, or_false] at hleaf hkind
  case ident =>
    subst hleaf
    exact .ident hkind
  case integer =>
    obtain ⟨value, hvalue, rfl⟩ := hleaf
    exact .integer hkind hvalue
  case float =>
    obtain ⟨value, hvalue, rfl⟩ := hleaf
    have hdecimal : value = t.decimal := by simp [Token.decimal, hvalue]
    rw [hdecimal]
    exact .float hkind
  case boolean =>
    subst hleaf
    rcases hkind with hkind | hkind
    · simpa [hkind] using Derives.trueWord hkind
    · simpa [hkind] using Derives.falseWord hkind
  case string =>
    subst hleaf
    exact .string hkind

end Grammar

/-! ## Alike trees -/

namespace Alike

variable {t t' : Token} {left left' right right' : Expr} {es es' : List Expr}

theorem text (h : Alike t t') : t.text = t'.text := (Token.alike_iff.1 h).2

theorem kind (h : Alike t t') : t.kind = t'.kind := (Token.alike_iff.1 h).1

theorem unary (ht : Alike t t') (hright : Alike right right') :
    Alike (Expr.unary t t.text (some right)) (.unary t' t'.text (some right')) := by
  rw [ht.text]
  unfold Alike at *
  simp [ht, hright]

theorem binary (ht : Alike t t') (hleft : Alike left left') (hright : Alike right right') :
    Alike (Expr.binary t left t.text (some right)) (.binary t' left' t'.text (some right')) := by
  rw [ht.text]
  unfold Alike at *
  simp [ht, hleft, hright]

theorem call (ht : Alike t t') (hf : Alike left left') (hes : Alike es es') :
    Alike (Expr.call t left es) (.call t' left' es') := by
  unfold Alike at *
  simp [ht, hf, hes]

theorem array (ht : Alike t t') (hes : Alike es es') : Alike (Expr.array t es) (.array t' es') := by
  unfold Alike at *
  simp [ht, hes]

theorem index (ht : Alike t t') (hleft : Alike left left') (hright : Alike right right') :
    Alike (Expr.index t left right) (.index t' left' right') := by
  unfold Alike at *
  simp [ht, hleft, hright]

theorem hash {entries entries' : List (Expr × Expr)} (ht : Alike t t')
    (hentries : Alike entries entries') : Alike (Expr.hash t entries) (.hash t' entries') := by
  unfold Alike at *
  simp [ht, hentries]

theorem cons {α : Type} [Spanned α] {a a' : α} {as as' : List α} (ha : Alike a a')
    (has : Alike as as') : Alike (a :: as) (a' :: as') := by
  unfold Alike at *
  simp [ha, has]

theorem pair {α β : Type} [Spanned α] [Spanned β] {a a' : α} {b b' : β} (ha : Alike a a')
    (hb : Alike b b') : Alike (a, b) (a', b') := by
  unfold Alike at *
  simp [ha, hb]

end Alike

/-- The keys of alike entries are rendered alike. -/
theorem Entries.keys_alike {es es' : List (Expr × Expr)} (h : Alike es es') :
    es.map (·.1.render) = es'.map (·.1.render) := by
  have hkeys (es : List (Expr × Expr)) :
      es.map (·.1.render) = (respan Span.forget es).map (·.1.render) := by
    induction es with
    | nil => rfl
    | cons e es ih =>
      rw [respan_cons, List.map_cons, List.map_cons, ← ih, respan_fst]
      exact congrArg (· :: _) (e.1.render_respan _).symm
  rw [hkeys es, hkeys es', h]

/-! ## Phrases -/

/-- In front of what goes on with nothing, the text is read as tokens that derive the tree, up to
spans. -/
def ReadsAs (φ : Phrase) [Spanned φ.Tree] (text : List Char) (a : φ.Tree) : Prop :=
  ∀ ⦃tape : Tape⦄ ⦃rest : List Char⦄, Stops rest → tape.pending = text ++ rest →
    ∃ ts after, tape.Reads ts after ∧ after.pending = rest ∧
      ∃ a', Alike a a' ∧ ∀ more, Derives φ (ts ++ more) a' more

namespace ReadsAs

variable {text : List Char} {e : Expr}

theorem lift {p q : Power} (hpq : p < q) (h : ReadsAs (.level q) text e) :
    ReadsAs (.level p) text e := by
  intro tape rest hrest htape
  obtain ⟨ts, after, hreads, hafter, e', he, hderives⟩ := h hrest htape
  exact ⟨ts, after, hreads, hafter, e', he, fun more => .lift hpq (hderives more)⟩

theorem group (h : ReadsAs .expr text e) :
    ReadsAs (.level .index) ('(' :: (text ++ [')'])) e := by
  intro tape rest hrest htape
  simp only [List.cons_append, List.append_assoc, List.nil_append] at htape
  obtain ⟨opening, l₁, h₁, hl₁, hopening, -⟩ :=
    Tape.reads_mark (c := '(') (by decide) rfl (by decide) htape
  obtain ⟨ts, l₂, h₂, hl₂, e', he, hderives⟩ := h (stops_cons (by decide) _) hl₁
  obtain ⟨closing, l₃, h₃, hl₃, hclosing, -⟩ :=
    Tape.reads_mark (c := ')') (by decide) rfl (by decide) hl₂
  refine ⟨_, l₃, (h₁.trans h₂).trans h₃, hl₃, e', he, fun more => .primary ?_⟩
  simpa using Derives.group hopening hclosing (hderives (closing :: more))

end ReadsAs

/-! ## Expressions -/

/-- The text of the expression stands for it anywhere, also in front of a call or an index. -/
def Expr.ReadsBack (e : Expr) : Prop := ReadsAs (.level .index) e.render.toList e

namespace Expr.ReadsBack

variable {t op : Token} {e f left right inner key value : Expr} {es : List Expr}

theorem expr (h : e.ReadsBack) : ReadsAs .expr e.render.toList e :=
  .lift (p := .equality) (by decide) h

theorem leaf (ht : t.Lexed) (h : Grammar.standard.leaf? t = some e) : e.ReadsBack := by
  intro tape rest hrest htape
  rw [Grammar.leaf?_render h] at htape
  obtain ⟨t', after, hreads, hafter, halike⟩ :=
    ht.reads (Grammar.leaf?_kind_ne h (by decide)) (Grammar.leaf?_kind_ne h (by decide)) hrest htape
  obtain ⟨e', he', he⟩ := Grammar.leaf?_alike h halike
  exact ⟨_, after, hreads, hafter, e', he,
    fun more => .primary (Grammar.leaf?_derives he' more)⟩

theorem unary (hop : op.Lexed) (hk : op.kind = .bang ∨ op.kind = .dash)
    (hhead : ∃ c ∈ right.render.toList.head?, c ≠ '=') (hright : right.ReadsBack) :
    (Expr.unary op op.text (some right)).ReadsBack := by
  have hinside : ReadsAs .expr (op.text.toList ++ right.render.toList)
      (Expr.unary op op.text (some right)) := by
    intro tape rest hrest htape
    rw [List.append_assoc] at htape
    have hoperand : '=' ∉ (right.render.toList ++ rest).head? := by
      obtain ⟨c, hc, hne⟩ := hhead
      simpa [List.head?_append, Option.mem_def.1 hc] using hne
    obtain ⟨op', l₁, h₁, hl₁, hop'⟩ := hop.reads_operator hk hoperand htape
    obtain ⟨ts, l₂, h₂, hl₂, right', hright', hderives⟩ := hright hrest hl₁
    refine ⟨_, l₂, h₁.trans h₂, hl₂, _, hop'.unary hright', fun more => ?_⟩
    rw [hop'.kind] at hk
    exact .lift (by decide) (.unary hk (.lift (by decide) (hderives more)))
  simpa [ReadsBack, render, renderSlot] using hinside.group

theorem binary {p : Power} (hop : op.Lexed) (hk : op.kind ∈ p.operators) (hleft : left.ReadsBack)
    (hright : right.ReadsBack) : (Expr.binary op left op.text (some right)).ReadsBack := by
  have hinside : ReadsAs .expr
      (left.render.toList ++ ' ' :: (op.text.toList ++ ' ' :: right.render.toList))
      (Expr.binary op left op.text (some right)) := by
    intro tape rest hrest htape
    simp only [List.append_assoc, List.cons_append] at htape
    obtain ⟨ts, l₁, h₁, hl₁, left', hleft', hderives⟩ := hleft (stops_cons (by decide) _) htape
    obtain ⟨l₂, h₂, hl₂⟩ := Tape.reads_blank hl₁
    have hkind : op.kind ≠ .illegal ∧ op.kind ≠ .eof := by
      constructor <;> rintro heq <;> rw [heq] at hk <;> cases p <;> exact absurd hk (by decide)
    obtain ⟨op', l₃, h₃, hl₃, hop'⟩ := hop.reads hkind.1 hkind.2 (stops_cons (by decide) _) hl₂
    obtain ⟨l₄, h₄, hl₄⟩ := Tape.reads_blank hl₃
    obtain ⟨us, l₅, h₅, hl₅, right', hright', hderives'⟩ := hright hrest hl₄
    refine ⟨_, l₅, (((h₁.trans h₂).trans h₃).trans h₄).trans h₅, hl₅, _,
      hop'.binary hleft' hright', fun more => ?_⟩
    rw [hop'.kind] at hk
    have hp : .equality ≤ p ∧ p < .index := by cases p <;> first | decide | cases hk
    have hbinary := Derives.binary hk hp.2 (.lift hp.2 (hderives (op' :: (us ++ more))))
      (hderives' more)
    simpa using hbinary.lift_le hp.1
  simpa [ReadsBack, render, renderSlot] using hinside.group

theorem index (ht : t.Lexed) (hk : t.kind = .openBracket) (hleft : left.ReadsBack)
    (hinner : inner.ReadsBack) : (Expr.index t left inner).ReadsBack := by
  have hinside : ReadsAs .expr (left.render.toList ++ '[' :: (inner.render.toList ++ [']']))
      (Expr.index t left inner) := by
    intro tape rest hrest htape
    simp only [List.append_assoc, List.cons_append, List.nil_append] at htape
    obtain ⟨ts, l₁, h₁, hl₁, left', hleft', hderives⟩ := hleft (stops_cons (by decide) _) htape
    obtain ⟨t', l₂, h₂, hl₂, ht'⟩ :=
      ht.reads_opening (c := '[') (by decide) (by rw [hk]; rfl) (by simp [hk]) hl₁
    obtain ⟨us, l₃, h₃, hl₃, inner', hinner', hderives'⟩ :=
      hinner.expr (stops_cons (by decide) _) hl₂
    obtain ⟨closing, l₄, h₄, hl₄, hclosing, -⟩ :=
      Tape.reads_mark (c := ']') (by decide) rfl (by decide) hl₃
    refine ⟨_, l₄, ((h₁.trans h₂).trans h₃).trans h₄, hl₄, _, ht'.index hleft' hinner',
      fun more => .lift (q := .index) (by decide) ?_⟩
    rw [ht'.kind] at hk
    simpa using Derives.index hk hclosing (hderives (t' :: (us ++ closing :: more)))
      (hderives' (closing :: more))
  simpa [ReadsBack, render] using hinside.group

/-! ## Lists -/

/-- The texts, each behind a comma. -/
def commaed (texts : List String) : List Char := texts.flatMap fun text => ',' :: ' ' :: text.toList

theorem commaed_cons (text : String) (texts : List String) :
    commaed (text :: texts) = ',' :: ' ' :: (text.toList ++ commaed texts) := rfl

theorem commas_cons (text : String) (texts : List String) :
    (commas (text :: texts)).toList = text.toList ++ commaed texts := by
  induction texts generalizing text with
  | nil => simp [commas, commaed]
  | cons u texts ih =>
    have htail := ih u
    unfold commas at *
    simp only [String.toList_intercalate, List.map_cons] at *
    rw [List.intercalate_cons_cons, htail, commaed_cons]
    simp

/-- Behind a part of a list there is a comma or what closes the list. -/
theorem stops_commaed {rest : List Char} (texts : List String) (hrest : Stops rest) :
    Stops (commaed texts ++ rest) := by
  cases texts with
  | nil => exact hrest
  | cons text texts => exact stops_cons (by decide) _

theorem elements (h : ∀ e ∈ es, e.ReadsBack) : ReadsAs .elements (commaed (es.map render)) es := by
  intro tape rest hrest htape
  induction es generalizing tape with
  | nil => exact ⟨[], tape, .refl tape, htape, [], .refl _, fun more => .noElement⟩
  | cons e es ih =>
    obtain ⟨he, hes⟩ := List.forall_mem_cons.1 h
    simp only [List.map_cons, commaed_cons, List.cons_append, List.append_assoc] at htape
    obtain ⟨comma, l₁, h₁, hl₁, hcomma, -⟩ :=
      Tape.reads_mark (c := ',') (by decide) rfl (by decide) htape
    obtain ⟨l₂, h₂, hl₂⟩ := Tape.reads_blank hl₁
    obtain ⟨ts, l₃, h₃, hl₃, e', he', hderives⟩ := he.expr (stops_commaed _ hrest) hl₂
    obtain ⟨us, l₄, h₄, hl₄, es', hes', hderives'⟩ := ih hes hl₃
    refine ⟨_, l₄, ((h₁.trans h₂).trans h₃).trans h₄, hl₄, e' :: es', he'.cons hes', fun more => ?_⟩
    simpa using Derives.element hcomma (hderives (us ++ more)) (hderives' more)

/-- A list is read up to the mark that closes it. -/
theorem list {c : Char} {kind : Kind} (h : ∀ e ∈ es, e.ReadsBack) (hc : Tape.IsMark c)
    (hstop : Lexeme.Breaks c) (hmark : Kind.ofMark? c = some kind) (hkind : kind ≠ .eof) :
    ReadsAs (.list kind) ((commas (renderEach es)).toList ++ [c]) es := by
  intro tape rest _ htape
  rw [renderEach_eq_map] at htape
  cases es with
  | nil =>
    obtain ⟨closing, l₁, h₁, hl₁, hclosing, -⟩ := Tape.reads_mark hc hmark hkind htape
    exact ⟨_, l₁, h₁, hl₁, [], .refl _, fun more => .noList hclosing⟩
  | cons e es =>
    obtain ⟨he, hes⟩ := List.forall_mem_cons.1 h
    simp only [List.map_cons, commas_cons, List.append_assoc] at htape
    have hrest : Stops ([c] ++ rest) := stops_cons hstop rest
    obtain ⟨ts, l₁, h₁, hl₁, e', he', hderives⟩ := he.expr (stops_commaed _ hrest) htape
    obtain ⟨us, l₂, h₂, hl₂, es', hes', hderives'⟩ := elements hes hrest hl₁
    obtain ⟨closing, l₃, h₃, hl₃, hclosing, -⟩ := Tape.reads_mark hc hmark hkind hl₂
    refine ⟨_, l₃, (h₁.trans h₂).trans h₃, hl₃, e' :: es', he'.cons hes', fun more => ?_⟩
    simpa using Derives.list hclosing (hderives (us ++ closing :: more))
      (hderives' (closing :: more))

theorem call (ht : t.Lexed) (hk : t.kind = .openParen) (hf : f.ReadsBack)
    (hes : ∀ e ∈ es, e.ReadsBack) : (Expr.call t f es).ReadsBack := by
  intro tape rest hrest htape
  have htape : tape.pending = f.render.toList ++
      '(' :: ((commas (renderEach es)).toList ++ [')'] ++ rest) := by
    simpa [render] using htape
  obtain ⟨ts, l₁, h₁, hl₁, f', hf', hderives⟩ := hf (stops_cons (by decide) _) htape
  obtain ⟨t', l₂, h₂, hl₂, ht'⟩ :=
    ht.reads_opening (c := '(') (by decide) (by rw [hk]; rfl) (by simp [hk]) hl₁
  obtain ⟨us, l₃, h₃, hl₃, es', hes', hderives'⟩ :=
    list hes (by decide) (by decide) rfl (by decide) hrest hl₂
  refine ⟨_, l₃, (h₁.trans h₂).trans h₃, hl₃, _, ht'.call hf' hes', fun more => ?_⟩
  rw [ht'.kind] at hk
  simpa using Derives.call hk (hderives (t' :: (us ++ more))) (hderives' more)

theorem array (ht : t.Lexed) (hk : t.kind = .openBracket) (hes : ∀ e ∈ es, e.ReadsBack) :
    (Expr.array t es).ReadsBack := by
  intro tape rest hrest htape
  have htape : tape.pending = '[' :: ((commas (renderEach es)).toList ++ [']'] ++ rest) := by
    simpa [render] using htape
  obtain ⟨t', l₁, h₁, hl₁, ht'⟩ :=
    ht.reads_opening (c := '[') (by decide) (by rw [hk]; rfl) (by simp [hk]) htape
  obtain ⟨ts, l₂, h₂, hl₂, es', hes', hderives⟩ :=
    list hes (by decide) (by decide) rfl (by decide) hrest hl₁
  refine ⟨_, l₂, h₁.trans h₂, hl₂, _, ht'.array hes', fun more => ?_⟩
  rw [ht'.kind] at hk
  exact .primary (.array hk (hderives more))

/-! ## Hashes -/

def renderEntry (entry : Expr × Expr) : String := entry.1.render ++ ":" ++ entry.2.render

theorem entry (hkey : key.ReadsBack) (hvalue : value.ReadsBack) {tape : Tape} {rest : List Char}
    (hrest : Stops rest) (htape : tape.pending = (renderEntry (key, value)).toList ++ rest) :
    ∃ ts colon us after, tape.Reads (ts ++ colon :: us) after ∧ after.pending = rest ∧
      colon.kind = .colon ∧ ∃ key' value', Alike key key' ∧ Alike value value' ∧
        (∀ more, Derives .expr (ts ++ more) key' more) ∧
        ∀ more, Derives .expr (us ++ more) value' more := by
  have htape : tape.pending = key.render.toList ++ ':' :: (value.render.toList ++ rest) := by
    simpa [renderEntry] using htape
  obtain ⟨ts, l₁, h₁, hl₁, key', hkey', hderives⟩ := hkey.expr (stops_cons (by decide) _) htape
  obtain ⟨colon, l₂, h₂, hl₂, hcolon, -⟩ :=
    Tape.reads_mark (c := ':') (by decide) rfl (by decide) hl₁
  obtain ⟨us, l₃, h₃, hl₃, value', hvalue', hderives'⟩ := hvalue.expr hrest hl₂
  exact ⟨ts, colon, us, l₃, h₁.trans (h₂.trans h₃), hl₃, hcolon, key', value', hkey', hvalue',
    hderives, hderives'⟩

theorem entries_cons {first : Expr × Expr} {others : List (Expr × Expr)}
    (hkeys : ∀ e ∈ first :: others, e.1.ReadsBack)
    (hvalues : ∀ e ∈ first :: others, e.2.ReadsBack) :
    ReadsAs .entries ((renderEntry first).toList ++ commaed (others.map renderEntry))
      (first :: others) := by
  intro tape rest hrest htape
  induction others generalizing first tape with
  | nil =>
    obtain ⟨hkey, -⟩ := List.forall_mem_cons.1 hkeys
    obtain ⟨hvalue, -⟩ := List.forall_mem_cons.1 hvalues
    have htape : tape.pending = (renderEntry first).toList ++ rest := by simpa [commaed] using htape
    obtain ⟨ts, colon, us, l₁, h₁, hl₁, hcolon, key, value, hkey, hvalue, hderives, hderives'⟩ :=
      entry hkey hvalue hrest htape
    refine ⟨_, l₁, h₁, hl₁, [(key, value)], (hkey.pair hvalue).cons (.refl _), fun more => ?_⟩
    simpa using Derives.lastEntry hcolon (hderives (colon :: (us ++ more))) (hderives' more)
  | cons other others ih =>
    obtain ⟨hkey, hkeys⟩ := List.forall_mem_cons.1 hkeys
    obtain ⟨hvalue, hvalues⟩ := List.forall_mem_cons.1 hvalues
    rw [List.append_assoc] at htape
    obtain ⟨ts, colon, us, l₁, h₁, hl₁, hcolon, key, value, hkey, hvalue, hderives, hderives'⟩ :=
      entry hkey hvalue (stops_commaed _ hrest) htape
    obtain ⟨comma, l₂, h₂, hl₂, hcomma, -⟩ :=
      Tape.reads_mark (c := ',') (by decide) rfl (by decide) hl₁
    obtain ⟨l₃, h₃, hl₃⟩ := Tape.reads_blank hl₂
    obtain ⟨vs, l₄, h₄, hl₄, pairs, hpairs, hothers⟩ := ih hkeys hvalues hl₃
    refine ⟨_, l₄, ((h₁.trans h₂).trans h₃).trans h₄, hl₄, (key, value) :: pairs,
      (hkey.pair hvalue).cons hpairs, fun more => ?_⟩
    simpa using Derives.entry hcolon hcomma (hderives (colon :: (us ++ comma :: (vs ++ more))))
      (hderives' (comma :: (vs ++ more))) (hothers more)

theorem entries {entries : List (Expr × Expr)} (hkeys : ∀ e ∈ entries, e.1.ReadsBack)
    (hvalues : ∀ e ∈ entries, e.2.ReadsBack) :
    ReadsAs .entries (commas (entries.map renderEntry)).toList entries := by
  cases entries with
  | nil => exact fun tape _ _ htape => ⟨[], tape, .refl tape, htape, [], .refl _, fun _ => .noEntry⟩
  | cons first others =>
    rw [List.map_cons, commas_cons]
    exact entries_cons hkeys hvalues

theorem hash {entries : List (Expr × Expr)} (ht : t.Lexed) (hk : t.kind = .openCurly)
    (hkeys : ∀ e ∈ entries, e.1.ReadsBack) (hvalues : ∀ e ∈ entries, e.2.ReadsBack)
    (hnodup : (entries.map (·.1.render)).Nodup) : (Expr.hash t entries).ReadsBack := by
  intro tape rest hrest htape
  have htape : tape.pending =
      '\x7b' :: ((commas (entries.map renderEntry)).toList ++ '\x7d' :: rest) := by
    have hrender : renderEntries entries = entries.map renderEntry := renderEntries_eq_map entries
    simpa [render, hrender] using htape
  obtain ⟨t', l₁, h₁, hl₁, ht'⟩ :=
    ht.reads_opening (c := '\x7b') (by decide) (by rw [hk]; rfl) (by simp [hk]) htape
  obtain ⟨ts, l₂, h₂, hl₂, pairs, hpairs, hderives⟩ :=
    ReadsBack.entries hkeys hvalues (stops_cons (by decide) _) hl₁
  obtain ⟨closing, l₃, h₃, hl₃, hclosing, -⟩ :=
    Tape.reads_mark (c := '\x7d') (by decide) rfl (by decide) hl₂
  -- The keys are still different, so no entry takes the place of another.
  have hkept : Entries.ofPairs pairs = pairs :=
    Entries.ofPairs_eq_self (Entries.keys_alike hpairs ▸ hnodup)
  refine ⟨_, l₃, (h₁.trans h₂).trans h₃, hl₃, _, ht'.hash hpairs, fun more => .primary ?_⟩
  rw [ht'.kind] at hk
  have hhash := Derives.hash hk hclosing (hderives (closing :: more))
  rw [hkept] at hhash
  simpa using hhash

end Expr.ReadsBack

namespace Expr.Written

variable {e : Expr}

/-- No text of a written tree starts like the end of an operator. -/
theorem head (h : e.Written) : ∃ c ∈ e.render.toList.head?, c ≠ '=' := by
  induction h with
  | @leaf t e ht h =>
    rw [Grammar.leaf?_render h]
    obtain ⟨rest, hx⟩ := ht.shaped (Grammar.leaf?_kind_ne h (by decide))
    exact hx.head_ne_assign (Grammar.leaf?_kind_ne h (by decide))
      (Grammar.leaf?_kind_ne h (by decide))
  | call _ _ _ _ ih =>
    obtain ⟨c, hc, hne⟩ := ih
    refine ⟨c, ?_, hne⟩
    simp [render, List.head?_append, Option.mem_def.1 hc]
  | unary | binary | array | index | hash =>
    refine ⟨_, by simp [render]; rfl, by decide⟩

theorem readsBack (h : e.Written) : e.ReadsBack := by
  induction h with
  | leaf ht h => exact .leaf ht h
  | unary hop hk hright ih => exact .unary hop hk hright.head ih
  | binary hop hk _ _ ihleft ihright => exact .binary hop hk ihleft ihright
  | call ht hk _ _ ihf ih => exact .call ht hk ihf ih
  | array ht hk _ ih => exact .array ht hk ih
  | index ht hk _ _ ihleft ihindex => exact .index ht hk ihleft ihindex
  | hash ht hk _ _ hnodup ihkeys ihvalues => exact .hash ht hk ihkeys ihvalues hnodup

end Expr.Written

end ScriptFront
