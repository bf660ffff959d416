import ScriptFront.Proofs.Syntax.Rendering

/-!
# Blanks in the text of a tree

Outside of strings the text of a plain tree has blanks behind commas and around operators only. A
condition shows one behind what it tests and a function one behind its parameters, and no operator
is behind that. So a scan of the characters tells whether a tree is plain (`Expr.Scans`), and a
plain tree never has the text of another.
-/

namespace ScriptFront

open Text
open Expr.ReadsBack (commaed commaed_cons commas_cons renderEntry)

/-! ## Scanning for blanks -/

/-- The characters of the operators. -/
def isOperator (c : Char) : Bool := c ∈ ['=', '!', '<', '>', '+', '-', '*', '/']

/-- What a text has come to. -/
inductive Scan where
  /-- Behind a blank here there has to be an operator. -/
  | plain
  /-- Behind a comma or an operator: a blank is expected here. -/
  | glued
  /-- Behind a blank, where there has to be an operator. -/
  | spaced
  /-- In a string. -/
  | quoted (quote : Char)
  /-- There was no operator behind a blank. -/
  | broken
  deriving DecidableEq

namespace Scan

/-- Behind a character that is no blank. -/
def behind (c : Char) : Scan :=
  if isQuote c then quoted c else if c = ',' || isOperator c then glued else plain

def step : Scan → Char → Scan
  | plain, c => if c = ' ' then spaced else behind c
  | glued, c => if c = ' ' then plain else behind c
  | spaced, c => if isOperator c then glued else broken
  | quoted quote, c => if c = quote then plain else quoted quote
  | broken, _ => broken

def run (s : Scan) (text : List Char) : Scan := text.foldl step s

@[simp] theorem run_nil (s : Scan) : run s [] = s := rfl

@[simp] theorem run_cons (s : Scan) (c : Char) (text : List Char) :
    run s (c :: text) = run (s.step c) text := rfl

@[simp] theorem run_append (s : Scan) (text more : List Char) :
    run s (text ++ more) = run (run s text) more := List.foldl_append

/-- Nothing mends a blank without an operator. -/
@[simp] theorem run_broken (text : List Char) : run broken text = broken := by
  induction text with
  | nil => rfl
  | cons c text ih => exact ih

/-- How the text of a tree ends: as it started if the tree is plain, and else behind a blank without
an operator. -/
def Ends : Bool → Scan → Prop
  | true, s => s = plain
  | false, s => s = spaced ∨ s = broken

theorem Ends.apart {s : Scan} (h : Ends true s) (h' : Ends false s) : False := by
  rcases h' with h' | h' <;> cases h.symm.trans h'

/-- Behind a blank, the text does not go on with an operator. -/
def Stays (text : List Char) : Prop := Ends false (run spaced text)

theorem stays_nil : Stays [] := .inl rfl

theorem Ends.stays {s : Scan} {text : List Char} (h : Ends false s) (htext : Stays text) :
    Ends false (run s text) := by
  rcases h with rfl | rfl
  · exact htext
  · exact .inr (run_broken _)

theorem Stays.append {text more : List Char} (h : Stays text) (hmore : Stays more) :
    Stays (text ++ more) := by
  unfold Stays
  rw [run_append]
  exact Ends.stays h hmore

/-- A part of the text of a tree. It starts with no operator, and no string is open at its ends. -/
structure Runs (whole : Bool) (text : List Char) : Prop where
  plain : Ends whole (run plain text)
  glued : Ends whole (run glued text)
  spaced : run spaced text = broken

theorem Runs.append {whole whole' : Bool} {text text' : List Char} (h : Runs whole text)
    (h' : Runs whole' text') : Runs (whole && whole') (text ++ text') := by
  have key {s : Scan} (hs : Ends whole (run s text)) :
      Ends (whole && whole') (run s (text ++ text')) := by
    rw [run_append]
    cases whole with
    | true =>
      rw [show run s text = Scan.plain from hs]
      exact h'.plain
    | false => exact hs.stays (.inr h'.spaced)
  exact ⟨key h.plain, key h.glued, by rw [run_append, h.spaced, run_broken]⟩

/-- A character that is a part of a tree by itself. -/
def Neutral (c : Char) : Prop := c ≠ ' ' ∧ c ≠ ',' ∧ ¬ isQuote c ∧ ¬ isOperator c

instance (c : Char) : Decidable (Neutral c) :=
  inferInstanceAs (Decidable (c ≠ ' ' ∧ c ≠ ',' ∧ ¬ isQuote c ∧ ¬ isOperator c))

theorem runs_neutral {c : Char} (h : Neutral c) : Runs true [c] := by
  obtain ⟨hblank, hcomma, hquote, hoperator⟩ := h
  constructor <;> simp [step, behind, Ends, hblank, hcomma, hquote, hoperator]

theorem runs_neutrals {c : Char} {cs : List Char} (h : ∀ d ∈ c :: cs, Neutral d) :
    Runs true (c :: cs) := by
  induction cs generalizing c with
  | nil => exact runs_neutral (h c List.mem_cons_self)
  | cons d cs ih =>
    obtain ⟨hc, hcs⟩ := List.forall_mem_cons.1 h
    exact (runs_neutral hc).append (ih hcs)

theorem runs_comma : Runs true [',', ' '] := ⟨rfl, rfl, rfl⟩

theorem not_isOperator_of_isQuote {c : Char} (h : isQuote c) : ¬ isOperator c := by
  rcases Lexeme.isQuote_iff.1 h with rfl | rfl <;> decide

theorem runs_quoted {quote : Char} {body : List Char} (hquote : isQuote quote)
    (hbody : quote ∉ body) : Runs true (quote :: (body ++ [quote])) := by
  have hinside : run (quoted quote) body = quoted quote := by
    induction body with
    | nil => rfl
    | cons c body ih =>
      obtain ⟨hne, hbody⟩ := not_or.1 (mt List.mem_cons.2 hbody)
      rw [run_cons, step, if_neg (Ne.symm hne)]
      exact ih hbody
  have hblank : quote ≠ ' ' := by
    rintro rfl
    revert hquote
    decide
  constructor <;> simp [step, behind, Ends, hblank, hquote, not_isOperator_of_isQuote hquote,
    hinside]

/-! ## Operators -/

section
variable {op : List Char}

/-- The first character of an operator may be behind a blank, and a blank behind the last one. -/
theorem run_operator {c : Char} {cs : List Char} (h : ∀ d ∈ c :: cs, isOperator d) {s : Scan}
    (hs : s = plain ∨ s = glued ∨ s = spaced) : run s (c :: cs) = glued := by
  have hstep {d : Char} (hd : isOperator d) {s : Scan}
      (hs : s = plain ∨ s = glued ∨ s = spaced) : step s d = glued := by
    have hblank : d ≠ ' ' := by
      rintro rfl
      revert hd
      decide
    have hquote : ¬ isQuote d := fun hquote => not_isOperator_of_isQuote hquote hd
    rcases hs with rfl | rfl | rfl <;> simp [step, behind, hblank, hquote, hd]
  induction cs generalizing c s with
  | nil => exact hstep (h c List.mem_cons_self) hs
  | cons d cs ih =>
    obtain ⟨hc, hcs⟩ := List.forall_mem_cons.1 h
    rw [run_cons, hstep hc hs]
    exact ih hcs (.inr (.inl rfl))

theorem runs_between (hne : op ≠ []) (h : ∀ c ∈ op, isOperator c) :
    Runs true (' ' :: (op ++ [' '])) := by
  obtain ⟨c, cs, rfl⟩ := List.exists_cons_of_ne_nil hne
  have hplain := run_operator h (.inl rfl)
  have hspaced := run_operator h (.inr (.inr rfl))
  refine ⟨?_, ?_, ?_⟩
  · rw [run_cons, show step plain ' ' = spaced from rfl, run_append, hspaced]
    rfl
  · rw [run_cons, show step glued ' ' = plain from rfl, run_append, hplain]
    rfl
  · rw [run_cons, show step spaced ' ' = broken from rfl, run_broken]

/-- An operator before its operand. -/
theorem Runs.prefixed {whole : Bool} {text : List Char} (h : Runs whole text) (hne : op ≠ [])
    (hop : ∀ c ∈ op, isOperator c) : Runs whole ('(' :: (op ++ text)) := by
  obtain ⟨c, cs, rfl⟩ := List.exists_cons_of_ne_nil hne
  have hplain := run_operator hop (.inl rfl)
  refine ⟨?_, ?_, ?_⟩
  · rw [run_cons, show step Scan.plain '(' = Scan.plain from rfl, run_append, hplain]
    exact h.glued
  · rw [run_cons, show step Scan.glued '(' = Scan.plain from rfl, run_append, hplain]
    exact h.glued
  · rw [run_cons, show step Scan.spaced '(' = broken from rfl, run_broken]

end

/-! ## Lists -/

section
variable {α : Type} {plain : α → Bool} {shown : α → String} {parts : List α}

/-- Texts with commas between them. -/
theorem Runs.commaed {whole : Bool} {text : List Char} (h : Runs whole text)
    (hparts : ∀ part ∈ parts, Runs (plain part) (shown part).toList) :
    Runs (whole && parts.all plain) (text ++ Expr.ReadsBack.commaed (parts.map shown)) := by
  induction parts generalizing whole text with
  | nil => simpa [Expr.ReadsBack.commaed] using h
  | cons part parts ih =>
    obtain ⟨hpart, hparts⟩ := List.forall_mem_cons.1 hparts
    have hall := ih ((h.append runs_comma).append hpart) hparts
    simpa [commaed_cons, Bool.and_assoc] using hall

theorem runs_list (opening closing : Char) (hopening : Neutral opening) (hclosing : Neutral closing)
    (hparts : ∀ part ∈ parts, Runs (plain part) (shown part).toList) :
    Runs (parts.all plain) (opening :: ((commas (parts.map shown)).toList ++ [closing])) := by
  have hopening := runs_neutral hopening
  have hclosing := runs_neutral hclosing
  cases parts with
  | nil => exact hopening.append hclosing
  | cons part parts =>
    obtain ⟨hpart, hparts⟩ := List.forall_mem_cons.1 hparts
    have hall := ((hopening.append hpart).commaed hparts).append hclosing
    simpa [commas_cons] using hall

end

/-! ## Bodies -/

/-- A body behind its blank. -/
theorem Runs.stays {whole : Bool} {text body : List Char} (h : Runs whole text)
    (hbody : Stays body) : Runs false (text ++ ' ' :: body) := by
  have key {s : Scan} (hs : Ends whole (run s text)) : Ends false (run s (text ++ ' ' :: body)) := by
    rw [run_append]
    cases whole with
    | true =>
      rw [show run s text = Scan.plain from hs]
      exact hbody
    | false => exact hs.stays (.inr (run_broken body))
  exact ⟨key h.plain, key h.glued, by rw [run_append, h.spaced, run_broken]⟩

end Scan

/-! ## Tokens -/

theorem Scan.neutral_of_isWordChar {c : Char} (h : isWordChar c) : Neutral c :=
  ⟨Lexeme.ne_of_class h (by decide), Lexeme.ne_of_class h (by decide),
    Lexeme.not_isQuote_of_isWordChar h, fun hoperator => by
      have hne (d : Char) (hd : ¬ isWordChar d) : c ≠ d := Lexeme.ne_of_class h hd
      simp only [isOperator, List.mem_cons, List.not_mem_nil, or_false, decide_eq_true_eq]
        at hoperator
      rcases hoperator with hc | hc | hc | hc | hc | hc | hc | hc <;> exact hne _ (by decide) hc⟩

/-- The kinds of the words and literals whose text a tree shows. -/
def Kind.texts : List Kind :=
  [identifier, int, float, string, trueWord, falseWord, fnWord, letWord, returnWord]

def Kind.operators : List Kind :=
  [bang, equal, notEqual, less, greater, plus, dash, star, slash]

namespace Token.Lexed

open Scan

variable {t : Token}

theorem runs (h : t.Lexed) (hk : t.kind ∈ Kind.texts) : Runs true t.text.toList := by
  have hillegal : t.kind ≠ .illegal := fun heq => absurd (heq ▸ hk) (by decide)
  have hmarks : ∀ kind ∈ Kind.marks, kind ∉ Kind.texts := by decide
  obtain ⟨rest, hx⟩ := h.shaped hillegal
  have hdigit {c : Char} (hc : isDigit c) : Neutral c :=
    neutral_of_isWordChar (Lexeme.isWordChar_of_isDigit hc)
  generalize t.text.toList = read at hx
  generalize t.kind = kind at hx hk hillegal
  cases hx with
  | alone hc | paired hc =>
    simp only [List.mem_cons, Prod.mk.injEq, List.not_mem_nil, or_false] at hc
    rcases hc with ⟨-, rfl⟩ | ⟨-, rfl⟩ <;> exact absurd hk (by decide)
  | string hquote hbody => exact runs_quoted hquote hbody
  | unclosed => exact (hillegal rfl).elim
  | word hc hcs =>
    refine runs_neutrals (List.forall_mem_cons.2 ⟨?_, fun d hd => neutral_of_isWordChar (hcs d hd)⟩)
    exact neutral_of_isWordChar (Lexeme.isWordChar_of_isLetter hc)
  | int hwhole => exact runs_neutrals fun d hd => hdigit (hwhole d hd)
  | float hwhole hpart =>
    obtain ⟨hc, hcs⟩ := List.forall_mem_cons.1 hwhole
    refine runs_neutrals (List.forall_mem_cons.2 ⟨hdigit hc, List.forall_mem_append.2
      ⟨fun d hd => hdigit (hcs d hd), List.forall_mem_cons.2 ⟨by decide, fun d hd => ?_⟩⟩⟩)
    exact hdigit (hpart d hd)
  | @mark c _ =>
    cases hmark : Kind.ofMark? c with
    | none => exact (hillegal (by rw [hmark]; rfl)).elim
    | some kind =>
      rw [hmark] at hk
      exact (hmarks kind (Kind.ofMark?_mem hmark) hk).elim

theorem operator (h : t.Lexed) (hk : t.kind ∈ Kind.operators) :
    t.text.toList ≠ [] ∧ ∀ c ∈ t.text.toList, isOperator c := by
  have hillegal : t.kind ≠ .illegal := fun heq => absurd (heq ▸ hk) (by decide)
  have hwords : ∀ kind ∈ .identifier :: Kind.reserved.map Prod.snd, kind ∉ Kind.operators := by
    decide
  obtain ⟨rest, hx⟩ := h.shaped hillegal
  generalize t.text.toList = read at hx
  generalize t.kind = kind at hx hk hillegal
  cases hx with
  | alone hc | paired hc =>
    simp only [List.mem_cons, Prod.mk.injEq, List.not_mem_nil, or_false] at hc
    rcases hc with ⟨rfl, -⟩ | ⟨rfl, -⟩ <;>
      exact ⟨by simp, List.all_eq_true.1 (by decide)⟩
  | string | int | float => exact absurd hk (by decide)
  | unclosed => exact (hillegal rfl).elim
  | word => exact (hwords _ (Kind.ofWord_mem _) hk).elim
  | @mark c _ =>
    refine ⟨by simp, List.forall_mem_singleton.2 ?_⟩
    cases hmark : Kind.ofMark? c with
    | none => exact (hillegal (by rw [hmark]; rfl)).elim
    | some kind =>
      rw [hmark] at hk
      unfold Kind.ofMark? at hmark
      split at hmark <;> cases hmark <;> revert hk <;> decide

end Token.Lexed

/-! ## Trees -/

/-- A name that is the text of its token. -/
def Ident.Lexed (name : Ident) : Prop :=
  name.token.Lexed ∧ name.token.kind = .identifier ∧ name.name = name.token.text

/-- The text of the tree tells whether it is plain. -/
def Expr.Scans (e : Expr) : Prop := Scan.Runs e.isPlain e.render.toList

def Block.Scans (b : Block) : Prop := Scan.Stays b.render.toList

/-- The text of the statement starts with no operator. -/
def Stmt.Scans (s : Stmt) : Prop := Scan.run .spaced s.render.toList = .broken

theorem Grammar.leaf?_isPlain {t : Token} {e : Expr} (h : standard.leaf? t = some e) :
    e.isPlain = true := by
  obtain ⟨rule, -, hleaf⟩ := Option.bind_eq_some_iff.1 h
  cases rule <;> simp only [HeadRule.leaf?, Option.some.injEq, Option.map_eq_some_iff,
    reduceCtorEq] at hleaf
  case integer | float =>
    obtain ⟨value, -, rfl⟩ := hleaf
    rfl
  all_goals
    subst hleaf
    rfl

theorem Expr.plainEach_eq_all (es : List Expr) : plainEach es = es.all isPlain := by
  induction es with
  | nil => rfl
  | cons e es ih => simp [plainEach, ih]

theorem Expr.plainEntries_eq_all (entries : List (Expr × Expr)) :
    plainEntries entries = entries.all fun e => e.1.isPlain && e.2.isPlain := by
  induction entries with
  | nil => rfl
  | cons entry entries ih => simp [plainEntries, ih]

namespace Expr.Scans

open Scan

variable {t : Token} {e f left right inner condition : Expr} {es : List Expr}

attribute [local simp] isPlain

/-- Trees with one text are both plain, or both not. -/
theorem isPlain_eq (he : e.Scans) (hf : f.Scans) (h : e.render = f.render) :
    e.isPlain = f.isPlain := by
  have hends := he.plain
  have hends' := hf.plain
  rw [h] at hends
  cases hplain : e.isPlain <;> cases hplain' : f.isPlain <;> rw [hplain] at hends <;>
    rw [hplain'] at hends'
  · exact (hends'.apart hends).elim
  · exact (hends.apart hends').elim

theorem leaf (ht : t.Lexed) (h : Grammar.standard.leaf? t = some e) : e.Scans := by
  have hkinds : [.identifier, .int, .float, .trueWord, .falseWord, .string] ⊆ Kind.texts := by
    decide
  rw [Scans, Grammar.leaf?_isPlain h, Grammar.leaf?_render h]
  exact ht.runs (hkinds (Grammar.leaf?_kind h))

theorem unary (ht : t.Lexed) (hk : t.kind = .bang ∨ t.kind = .dash) (hright : right.Scans) :
    (Expr.unary t t.text (some right)).Scans := by
  have hop := ht.operator (by rcases hk with hk | hk <;> rw [hk] <;> decide)
  have hruns := (Runs.prefixed hright hop.1 hop.2).append (runs_neutral (c := ')') (by decide))
  simpa [Scans, render, renderSlot, plainSlot] using hruns

theorem binary {p : Power} (ht : t.Lexed) (hk : t.kind ∈ p.operators) (hleft : left.Scans)
    (hright : right.Scans) : (Expr.binary t left t.text (some right)).Scans := by
  have hop := ht.operator (by
    revert hk
    generalize t.kind = kind
    revert kind
    cases p <;> decide)
  have hruns := ((((runs_neutral (c := '(') (by decide)).append hleft).append
    (runs_between hop.1 hop.2)).append hright).append (runs_neutral (c := ')') (by decide))
  simpa [Scans, render, renderSlot, plainSlot] using hruns

theorem index (hleft : left.Scans) (hinner : inner.Scans) : (Expr.index t left inner).Scans := by
  have hruns := (((((runs_neutral (c := '(') (by decide)).append hleft).append
    (runs_neutral (c := '[') (by decide))).append hinner).append
    (runs_neutral (c := ']') (by decide))).append (runs_neutral (c := ')') (by decide))
  simpa [Scans, render] using hruns

theorem list (opening closing : Char) (h : ∀ e ∈ es, e.Scans) (hopening : Neutral opening)
    (hclosing : Neutral closing) :
    Runs (plainEach es) (opening :: ((commas (renderEach es)).toList ++ [closing])) := by
  rw [plainEach_eq_all, renderEach_eq_map]
  exact runs_list opening closing hopening hclosing h

theorem call (hf : f.Scans) (hes : ∀ e ∈ es, e.Scans) : (Expr.call t f es).Scans := by
  have hruns := hf.append (list '(' ')' hes (by decide) (by decide))
  simpa [Scans, render] using hruns

theorem array (hes : ∀ e ∈ es, e.Scans) : (Expr.array t es).Scans := by
  have hruns := list '[' ']' hes (by decide) (by decide)
  simpa [Scans, render] using hruns

theorem hash {entries : List (Expr × Expr)} (h : ∀ e ∈ entries, e.1.Scans ∧ e.2.Scans) :
    (Expr.hash t entries).Scans := by
  have hparts : ∀ e ∈ entries, Runs (e.1.isPlain && e.2.isPlain) (renderEntry e).toList := by
    intro e he
    obtain ⟨hkey, hvalue⟩ := h e he
    have hruns := (hkey.append (runs_neutral (c := ':') (by decide))).append hvalue
    simpa [renderEntry] using hruns
  have hruns := runs_list '\x7b' '\x7d' (by decide) (by decide) hparts
  have hrender : renderEntries entries = entries.map renderEntry := renderEntries_eq_map entries
  simpa [Scans, render, plainEntries_eq_all, hrender] using hruns

theorem cond {consequence : Block} {alternative : Option Block} (hcondition : condition.Scans)
    (hconsequence : consequence.Scans) :
    (Expr.cond t (some condition) consequence alternative).Scans := by
  have helse : Stays (renderElse alternative).toList := by
    cases alternative with
    | none => exact stays_nil
    | some b =>
      have hhead : Runs true ['e'] := runs_neutral (by decide)
      refine .inr ?_
      have htext : (renderElse (some b)).toList = ['e'] ++ ("lse ".toList ++ b.render.toList) := by
        simp [renderElse]
      rw [htext, run_append, hhead.spaced, run_broken]
  have hword := (runs_neutral (c := 'i') (by decide)).append (runs_neutral (c := 'f') (by decide))
  have hruns := (hword.append hcondition).stays (hconsequence.append helse)
  simpa [Scans, render, renderSlot] using hruns

theorem function {parameters : List Ident} {body : Block} (ht : t.Lexed) (hk : t.kind = .fnWord)
    (hparameters : ∀ name ∈ parameters, name.Lexed) (hbody : body.Scans) :
    (Expr.function t parameters body).Scans := by
  have hparts : ∀ name ∈ parameters, Runs true name.name.toList := by
    intro name hname
    obtain ⟨hlexed, hkind, htext⟩ := hparameters name hname
    rw [htext]
    exact hlexed.runs (by rw [hkind]; decide)
  have hruns := ((ht.runs (by rw [hk]; decide)).append
    (runs_list '(' ')' (by decide) (by decide) hparts)).stays hbody
  simpa [Scans, render] using hruns

end Expr.Scans

namespace Stmt.Scans

open Scan

variable {t name : Token} {value : Option Expr} {e : Expr}

/-- The text of a statement that starts with a word. -/
theorem of_word (ht : t.Lexed) (hk : t.kind ∈ [.letWord, .returnWord]) (more : List Char) :
    run spaced (t.text.toList ++ more) = broken := by
  have hkinds : [.letWord, .returnWord] ⊆ Kind.texts := by decide
  rw [run_append, (ht.runs (hkinds hk)).spaced, run_broken]

theorem binding {name : Ident} (ht : t.Lexed) (hk : t.kind = .letWord) :
    (Stmt.binding t name value).Scans := by
  have hruns := of_word ht (by rw [hk]; decide)
    (' ' :: (name.name.toList ++ " = ".toList ++ (renderSlot value).toList ++ [';']))
  simpa [Scans, render] using hruns

theorem ret (ht : t.Lexed) (hk : t.kind = .returnWord) : (Stmt.ret t value).Scans := by
  have hruns := of_word ht (by rw [hk]; decide) (' ' :: ((renderSlot value).toList ++ [';']))
  simpa [Scans, render] using hruns

theorem bare (he : e.Scans) : (Stmt.bare t (some e)).Scans := he.spaced

end Stmt.Scans

theorem Block.scans {t : Token} {body : List Stmt} (h : ∀ s ∈ body, s.Scans) :
    (Block.mk t body).Scans := by
  cases body with
  | nil => exact .inl rfl
  | cons s body =>
    have hs := h s List.mem_cons_self
    refine .inr ?_
    rw [render, renderBody, String.toList_append, Scan.run_append,
      show Scan.run .spaced s.render.toList = .broken from hs, Scan.run_broken]

end ScriptFront
