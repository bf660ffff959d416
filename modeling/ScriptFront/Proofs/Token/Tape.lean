import ScriptFront.Proofs.Token.Lexeme
import ScriptFront.Token.Basic

/-!
# Tapes

A tape is the text that is still to be read, closed by the character that ends the input unless that
is read. Tokens come off it lexeme by lexeme. That is what a lexer reads as well
(`Lexer.next_tape`), so what is shown of tapes holds of lexers.
-/

namespace ScriptFront

open Text

structure Tape where
  file : String
  /-- Bytes of the source read so far. -/
  offset : Nat
  /-- What is left of the source, then the character that ends the input unless it is read. -/
  pending : List Char
  deriving DecidableEq, Repr

namespace Tape

/-- The tape once `read` is taken from its text and `rest` is left. The character that ends the
input has no place in the source. -/
def past (tape : Tape) (read rest : List Char) : Tape :=
  { tape with
    offset := tape.offset + width (if rest.isEmpty then read.dropLast else read)
    pending := rest }

def skipBlank (tape : Tape) : Tape :=
  tape.past (tape.pending.takeWhile isBlank) (tape.pending.dropWhile isBlank)

/-- The token that a lexeme makes where the tape stands. -/
def token (tape : Tape) (x : Lexeme) : Token :=
  ⟨x.kind, x.shown, .between tape.offset (tape.past x.read x.rest).offset tape.file⟩

def next (tape : Tape) : Option Token × Tape :=
  let start := tape.skipBlank
  match start.pending with
  | [] => (none, start)
  | c :: rest =>
    let x := Lexeme.scan c rest
    (some (start.token x), start.past x.read x.rest)

/-- Reads up to `n` tokens. -/
def take : Nat → Tape → List Token × Tape
  | 0, tape => ([], tape)
  | n + 1, tape =>
    match tape.next with
    | (none, after) => ([], after)
    | (some t, after) => let (ts, last) := take n after; (t :: ts, last)

def tokens (tape : Tape) : List Token := (tape.take tape.pending.length).1

/-- The tape once it was asked for `n` tokens. -/
def after (tape : Tape) (n : Nat) : Tape := (tape.take n).2

/-- Where the `i`-th token is read from. -/
def startOf (tape : Tape) (i : Nat) : Nat := (tape.after i).skipBlank.offset

/-- Up to where the `i`-th token is read. -/
def stopOf (tape : Tape) (i : Nat) : Nat := (tape.after (i + 1)).offset

/-- The offset at which the source ends. -/
def limit (tape : Tape) : Nat := tape.offset + width tape.pending.dropLast

/-! ## What is read and what is left -/

@[simp] theorem past_pending (tape : Tape) (read rest : List Char) :
    (tape.past read rest).pending = rest := rfl

@[simp] theorem past_nil (tape : Tape) : tape.past [] tape.pending = tape := by
  simp [past]

@[simp] theorem past_past (tape : Tape) (read more rest : List Char) :
    (tape.past read (more ++ rest)).past more rest = tape.past (read ++ more) rest := by
  cases rest with
  | cons c rest => simp [past, Nat.add_assoc]
  | nil =>
    rcases List.eq_nil_or_concat more with rfl | ⟨init, last, rfl⟩
    · simp [past]
    · simp [past, ← List.append_assoc, Nat.add_assoc]

@[simp] theorem skipBlank_pending (tape : Tape) :
    tape.skipBlank.pending = tape.pending.dropWhile isBlank := rfl

theorem limit_past {tape : Tape} {read rest : List Char} (h : read ++ rest = tape.pending) :
    (tape.past read rest).limit = tape.limit := by
  cases rest with
  | nil => simp [limit, past, ← h]
  | cons c rest => simp [limit, past, ← h, List.dropLast_append_of_ne_nil, Nat.add_assoc]

theorem limit_skipBlank (tape : Tape) : tape.skipBlank.limit = tape.limit :=
  limit_past List.takeWhile_append_dropWhile

theorem skipBlank_of_nil {tape : Tape} (h : tape.pending = []) : tape.skipBlank = tape := by
  simpa [skipBlank, h] using tape.past_nil

theorem skipBlank_of_not_blank {tape : Tape} {c : Char} {rest : List Char}
    (h : tape.pending = c :: rest) (hc : ¬ isBlank c) : tape.skipBlank = tape := by
  simpa [skipBlank, h, hc] using tape.past_nil

theorem skipBlank_of_blank {tape : Tape} {c : Char} {rest : List Char}
    (h : tape.pending = c :: rest) (hc : isBlank c) :
    tape.skipBlank = (tape.past [c] rest).skipBlank := by
  have hpast := tape.past_past [c] (rest.takeWhile isBlank) (rest.dropWhile isBlank)
  rw [List.takeWhile_append_dropWhile] at hpast
  simpa [skipBlank, h, hc] using hpast.symm

/-- Blanks before a text only move it on. -/
theorem skipBlank_gap {gap text : List Char} (hgap : ∀ c ∈ gap, isBlank c) (htext : text ≠ [])
    (file : String) (n : Nat) : (Tape.mk file n (gap ++ text)).skipBlank =
      (Tape.mk file (n + width gap) text).skipBlank := by
  induction gap generalizing n with
  | nil => rfl
  | cons c gap ih =>
    obtain ⟨hc, hgap⟩ := List.forall_mem_cons.1 hgap
    have hpast : (Tape.mk file n (c :: gap ++ text)).past [c] (gap ++ text) =
        ⟨file, n + c.utf8Size, gap ++ text⟩ := by
      simp [past, htext]
    rw [skipBlank_of_blank (show _ = c :: (gap ++ text) from rfl) hc, hpast, ih hgap, width_cons,
      Nat.add_assoc]

theorem skipBlank_pending_length_le (tape : Tape) :
    tape.skipBlank.pending.length ≤ tape.pending.length := by
  rw [skipBlank_pending]
  exact (List.dropWhile_sublist _).length_le

theorem next_eq_none {tape : Tape} (h : tape.skipBlank.pending = []) :
    tape.next = (none, tape.skipBlank) := by
  simp only [next, h]

theorem next_eq_some {tape : Tape} {c : Char} {rest : List Char}
    (h : tape.skipBlank.pending = c :: rest) :
    tape.next = (some (tape.skipBlank.token (.scan c rest)),
      tape.skipBlank.past (Lexeme.scan c rest).read (Lexeme.scan c rest).rest) := by
  simp only [next, h]

theorem next_congr {tape tape' : Tape} (h : tape.skipBlank = tape'.skipBlank) :
    tape.next = tape'.next := by
  simp only [next, h]

/-- Without a token there were only blanks. -/
theorem next_none {tape after : Tape} (h : tape.next = (none, after)) :
    tape.skipBlank.pending = [] ∧ after = tape.skipBlank := by
  cases hp : tape.skipBlank.pending with
  | nil =>
    rw [next_eq_none hp, Prod.mk.injEq] at h
    exact ⟨rfl, h.2.symm⟩
  | cons c rest => rw [next_eq_some hp] at h; simp at h

/-- A token is made of the lexeme behind the blanks. -/
theorem next_some {tape after : Tape} {t : Token} (h : tape.next = (some t, after)) :
    ∃ c rest, tape.skipBlank.pending = c :: rest ∧ t = tape.skipBlank.token (.scan c rest) ∧
      after = tape.skipBlank.past (Lexeme.scan c rest).read (Lexeme.scan c rest).rest := by
  cases hp : tape.skipBlank.pending with
  | nil => rw [next_eq_none hp] at h; simp at h
  | cons c rest =>
    rw [next_eq_some hp, Prod.mk.injEq, Option.some.injEq] at h
    exact ⟨c, rest, rfl, h.1.symm, h.2.symm⟩

/-- Whether there is a token or not, some of the text is taken. -/
theorem next_past (tape : Tape) : ∃ read rest, read ++ rest = tape.skipBlank.pending ∧
    tape.next.2 = tape.skipBlank.past read rest := by
  match h : tape.next with
  | (none, after) =>
    obtain ⟨-, rfl⟩ := next_none h
    exact ⟨[], _, rfl, tape.skipBlank.past_nil.symm⟩
  | (some t, after) =>
    obtain ⟨c, rest, hp, -, rfl⟩ := next_some h
    exact ⟨_, _, by rw [hp, Lexeme.scan_split], rfl⟩

theorem limit_next (tape : Tape) : tape.next.2.limit = tape.limit := by
  obtain ⟨read, rest, hsplit, hnext⟩ := tape.next_past
  rw [hnext, limit_past hsplit, limit_skipBlank]

theorem next_file (tape : Tape) : tape.next.2.file = tape.file := by
  obtain ⟨read, rest, -, hnext⟩ := tape.next_past
  rw [hnext]
  rfl

theorem offset_le_past (tape : Tape) (read rest : List Char) :
    tape.offset ≤ (tape.past read rest).offset := Nat.le_add_right ..

theorem offset_le_skipBlank (tape : Tape) : tape.offset ≤ tape.skipBlank.offset :=
  offset_le_past ..

theorem skipBlank_offset_le_next (tape : Tape) : tape.skipBlank.offset ≤ tape.next.2.offset := by
  obtain ⟨read, rest, -, hnext⟩ := tape.next_past
  rw [hnext]
  exact offset_le_past ..

/-- A token spans what is read for it. -/
theorem next_span {tape after : Tape} {t : Token} (h : tape.next = (some t, after)) :
    t.span = .between tape.skipBlank.offset after.offset tape.file := by
  obtain ⟨c, rest, -, rfl, rfl⟩ := next_some h
  rfl

/-- A token takes a character or more from the text. -/
theorem next_pending_length_lt {tape after : Tape} {t : Token} (h : tape.next = (some t, after)) :
    after.pending.length < tape.pending.length := by
  obtain ⟨c, rest, hp, -, rfl⟩ := next_some h
  have hscan := Lexeme.scan_rest_length_le c rest
  have hskip := tape.skipBlank_pending_length_le
  rw [hp, List.length_cons] at hskip
  rw [past_pending]
  omega

/-- Without a token there is nothing left to read. -/
theorem next_pending_of_none {tape after : Tape} (h : tape.next = (none, after)) :
    after.pending = [] := by
  obtain ⟨hnil, rfl⟩ := next_none h
  exact hnil

theorem next_of_pending_nil {tape : Tape} (h : tape.pending = []) : tape.next = (none, tape) := by
  rw [next_eq_none (by rw [skipBlank_of_nil h, h]), skipBlank_of_nil h]

/-! ## Tokens one by one -/

theorem take_of_pending_nil {tape : Tape} (h : tape.pending = []) (n : Nat) :
    tape.take n = ([], tape) := by
  cases n with
  | zero => rfl
  | succ n => simp only [take, next_of_pending_nil h]

/-- Reading more tokens than there are characters changes nothing. -/
theorem take_congr {m n : Nat} {tape : Tape} (hm : tape.pending.length ≤ m)
    (hn : tape.pending.length ≤ n) : tape.take m = tape.take n := by
  induction m generalizing n tape with
  | zero =>
    have hnil : tape.pending = [] := List.length_eq_zero_iff.1 (by omega)
    rw [take_of_pending_nil hnil, take_of_pending_nil hnil]
  | succ m ih =>
    cases n with
    | zero =>
      have hnil : tape.pending = [] := List.length_eq_zero_iff.1 (by omega)
      rw [take_of_pending_nil hnil, take_of_pending_nil hnil]
    | succ n =>
      unfold take
      split
      · rfl
      · rename_i t after h
        have := next_pending_length_lt h
        rw [ih (show after.pending.length ≤ m by omega) (show after.pending.length ≤ n by omega)]

theorem tokens_of_none {tape after : Tape} (h : tape.next = (none, after)) : tape.tokens = [] := by
  unfold tokens
  cases tape.pending.length with
  | zero => rfl
  | succ n => simp only [take, h]

theorem tokens_of_some {tape after : Tape} {t : Token} (h : tape.next = (some t, after)) :
    tape.tokens = t :: after.tokens := by
  have hlt := next_pending_length_lt h
  obtain ⟨n, hn⟩ : ∃ n, tape.pending.length = n + 1 := ⟨tape.pending.length - 1, by omega⟩
  unfold tokens
  rw [hn]
  simp only [take, h]
  rw [take_congr (n := after.pending.length) (by omega) (Nat.le_refl _)]

theorem tokens_congr {tape tape' : Tape} (h : tape.next = tape'.next) :
    tape.tokens = tape'.tokens := by
  match hnext : tape.next with
  | (none, after) => rw [tokens_of_none hnext, tokens_of_none (h.symm.trans hnext)]
  | (some t, after) => rw [tokens_of_some hnext, tokens_of_some (h.symm.trans hnext)]

theorem tokens_length_le (tape : Tape) : tape.tokens.length ≤ tape.pending.length := by
  match h : tape.next with
  | (none, after) => rw [tokens_of_none h]; exact Nat.zero_le _
  | (some t, after) =>
    have hlt := next_pending_length_lt h
    have := after.tokens_length_le
    rw [tokens_of_some h, List.length_cons]
    omega
termination_by tape.pending.length

/-! ## Where tokens are -/

variable {tape rest : Tape} {t : Token}

theorem after_succ (h : tape.next = (some t, rest)) (n : Nat) :
    tape.after (n + 1) = rest.after n := by
  simp only [after, take, h]

theorem startOf_succ (h : tape.next = (some t, rest)) (i : Nat) :
    tape.startOf (i + 1) = rest.startOf i := by
  rw [startOf, after_succ h, startOf]

theorem stopOf_succ (h : tape.next = (some t, rest)) (i : Nat) :
    tape.stopOf (i + 1) = rest.stopOf i := by
  rw [stopOf, after_succ h, stopOf]

theorem stopOf_zero (h : tape.next = (some t, rest)) : tape.stopOf 0 = rest.offset := by
  rw [stopOf, after_succ h]
  rfl

end Tape

end ScriptFront
