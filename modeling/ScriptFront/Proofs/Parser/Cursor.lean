import ScriptFront.Parser.State
import ScriptFront.Proofs.Token.Lexer

/-!
# The tokens ahead of a state

`s.token i` is the token `i` places behind the current one: first the two that `s` holds, then those
of its lexer, then end tokens for ever. `s.Shows ts` says that these tokens start with `ts`, and
`s.Reads ts` that they are `ts` and end tokens only from there on. `left` counts the tokens from
the current one on that are no end, which is what a parser can use up, and `leftAhead` those behind
the current one.
-/

namespace ScriptFront

namespace Lexer

/-! ## Tokens one by one -/

theorem nextOrEnd_of_nil {lx : Lexer} (h : lx.tokens = []) :
    lx.nextOrEnd.1.kind = .eof ∧ lx.nextOrEnd.2.tokens = [] := by
  unfold nextOrEnd
  split
  · rename_i t after hn
    rw [tokens_of_some hn] at h
    simp at h
  · rename_i after hn
    exact ⟨rfl, tokens_of_none (next_of_exhausted (exhausted_of_none hn))⟩

theorem nextOrEnd_of_cons {lx : Lexer} {t : Token} {ts : List Token} (h : lx.tokens = t :: ts) :
    lx.nextOrEnd.1 = t ∧ lx.nextOrEnd.2.tokens = ts := by
  unfold nextOrEnd
  split
  · rename_i u after hn
    rw [tokens_of_some hn, List.cons.injEq] at h
    exact h
  · rename_i after hn
    rw [tokens_of_none hn] at h
    simp at h

/-- The tokens before the one that says that the input is over. -/
def script (lx : Lexer) : List Token := lx.tokens.takeWhile (·.kind ≠ .eof)

/-- Only the last token, if any, says that the input is over. -/
def EndsOnce (lx : Lexer) : Prop := ∀ t ∈ lx.tokens.dropLast, t.kind ≠ .eof

instance (lx : Lexer) : Decidable lx.EndsOnce :=
  inferInstanceAs (Decidable (∀ t ∈ lx.tokens.dropLast, t.kind ≠ .eof))

end Lexer

namespace State

/-! ## What a state shows -/

/-- The token `i` places behind the current one. -/
def token (s : State) : Nat → Token
  | 0 => s.current
  | i + 1 => s.advance.token i

/-- The state `n` tokens further on. -/
def skip (s : State) : Nat → State
  | 0 => s
  | n + 1 => s.advance.skip n

/-- The tokens from the current one on start like this. -/
def Shows (s : State) : List Token → Prop
  | [] => True
  | t :: ts => s.current = t ∧ s.advance.Shows ts

/-- The tokens from the current one on, up to the end that is not left any more. -/
def Reads (s : State) : List Token → Prop
  | [] => ∀ i, (s.token i).kind = .eof
  | t :: ts => s.current = t ∧ t.kind ≠ .eof ∧ s.advance.Reads ts

/-- The tokens behind the current one. -/
abbrev Ahead (s : State) (ts : List Token) : Prop := s.advance.Reads ts

@[simp] theorem current_advance (s : State) : s.advance.current = s.peek := rfl

@[simp] theorem diagnostics_advance (s : State) : s.advance.diagnostics = s.diagnostics := rfl

theorem advance_of_nil {s : State} (h : s.lexer.tokens = []) :
    s.advance.peek.kind = .eof ∧ s.advance.lexer.tokens = [] := Lexer.nextOrEnd_of_nil h

theorem advance_of_cons {s : State} {t : Token} {ts : List Token} (h : s.lexer.tokens = t :: ts) :
    s.advance.peek = t ∧ s.advance.lexer.tokens = ts := Lexer.nextOrEnd_of_cons h

theorem advance_tokens_length (s : State) :
    s.advance.lexer.tokens.length = s.lexer.tokens.length - 1 := by
  cases h : s.lexer.tokens with
  | nil => rw [(advance_of_nil h).2]; rfl
  | cons t ts => rw [(advance_of_cons h).2]; simp

/-- Behind the tokens of the lexer there are only ends. -/
theorem token_eof {s : State} {i : Nat} (h : s.lexer.tokens.length + 2 ≤ i) :
    (s.token i).kind = .eof := by
  obtain ⟨i, rfl⟩ : ∃ j, i = j + 2 := ⟨i - 2, by omega⟩
  induction i generalizing s with
  | zero => exact (advance_of_nil (List.length_eq_zero_iff.1 (by omega))).1
  | succ i ih => exact ih (s := s.advance) (by rw [advance_tokens_length]; omega)

theorem Reads.advance {s : State} (h : s.Reads []) : s.Ahead [] := fun i => h (i + 1)

theorem Reads.tail {s : State} {ts : List Token} (h : s.Reads ts) : s.Ahead ts.tail := by
  cases ts with
  | nil => exact Reads.advance h
  | cons t ts => exact h.2.2

theorem Reads.current_eof {s : State} (h : s.Reads []) : s.current.kind = .eof := h 0

theorem Reads.of_current {s : State} {ts : List Token} (h : s.Reads ts)
    (hs : s.current.kind ≠ .eof) : ∃ rest, ts = s.current :: rest ∧ s.Ahead rest := by
  cases ts with
  | nil => exact (hs h.current_eof).elim
  | cons t ts => exact ⟨ts, by rw [h.1], h.2.2⟩

theorem Reads.of_peek {s : State} {ts : List Token} {kind : Kind} (h : s.Ahead ts)
    (hk : s.peek.kind = kind) (hne : kind ≠ .eof) :
    ∃ rest, ts = s.peek :: rest ∧ s.advance.Ahead rest :=
  Reads.of_current (s := s.advance) h (by rw [current_advance, hk]; exact hne)

theorem Reads.eq_nil {s : State} {ts : List Token} (h : s.Reads ts)
    (hs : s.current.kind = .eof) : ts = [] := by
  cases ts with
  | nil => rfl
  | cons t ts => exact (h.2.1 (h.1 ▸ hs)).elim

theorem Shows.append_right {s : State} {ts us : List Token} (h : s.Shows (ts ++ us)) :
    (s.skip ts.length).Shows us := by
  induction ts generalizing s with
  | nil => exact h
  | cons t ts ih => exact ih h.2

theorem Shows.token {s : State} {ts : List Token} (h : s.Shows ts) {i : Nat} {t : Token}
    (hi : ts[i]? = some t) : s.token i = t := by
  induction ts generalizing s i with
  | nil => simp at hi
  | cons u ts ih =>
    cases i with
    | zero => exact h.1.trans (by simpa using hi)
    | succ i => exact ih h.2 (by simpa using hi)

theorem skip_add (s : State) (m n : Nat) : s.skip (m + n) = (s.skip m).skip n := by
  induction m generalizing s with
  | zero => rw [Nat.zero_add]; rfl
  | succ m ih => rw [Nat.succ_add]; exact ih s.advance

theorem skip_advance (s : State) (n : Nat) : s.advance.skip n = (s.skip n).advance := by
  induction n generalizing s with
  | zero => rfl
  | succ n ih => exact ih s.advance

theorem skip_current (s : State) (n : Nat) : (s.skip n).current = s.token n := by
  induction n generalizing s with
  | zero => rfl
  | succ n ih => exact ih s.advance

theorem skip_succ (s : State) (n : Nat) : s.skip (n + 1) = (s.skip n).advance := s.skip_advance n

theorem skip_peek (s : State) (n : Nat) : (s.skip n).peek = s.token (n + 1) := by
  rw [← current_advance, ← skip_succ, skip_current]

theorem skip_diagnostics (s : State) (n : Nat) : (s.skip n).diagnostics = s.diagnostics := by
  induction n generalizing s with
  | zero => rfl
  | succ n ih => exact ih s.advance

/-- A state that is met twice has only ends before it. -/
theorem eof_of_skip_eq {s : State} {m n : Nat} (h : s.skip m = s.skip n) (hlt : m < n) {i : Nat}
    (hi : m ≤ i) : (s.token i).kind = .eof := by
  by_cases hend : s.lexer.tokens.length + 2 ≤ i
  · exact token_eof hend
  · obtain ⟨j, rfl⟩ : ∃ j, i = m + j := ⟨i - m, by omega⟩
    -- What is `j` places behind the one is as far behind the other, which is nearer to the end.
    have hagain : s.token (m + j) = s.token (n + j) := by
      rw [← skip_current, ← skip_current, skip_add, skip_add, h]
    rw [hagain]
    exact eof_of_skip_eq h hlt (by omega)
termination_by s.lexer.tokens.length + 2 - i

/-- Two tokens into a lexer the state reads what the lexer has. -/
theorem reads_script {s : State} (h : s.lexer.EndsOnce) : s.advance.Ahead s.lexer.script := by
  unfold Lexer.script
  cases hts : s.lexer.tokens with
  | nil => exact fun i => token_eof (s := s) (i := i + 2) (by simp [hts])
  | cons t ts =>
    obtain ⟨hpeek, hrest⟩ := advance_of_cons hts
    by_cases ht : t.kind = .eof
    · have hnil : ts = [] := by
        cases ts with
        | nil => rfl
        | cons u ts => exact (h t (by simp [hts]) ht).elim
      rw [List.takeWhile_cons_of_neg (by simpa using ht)]
      intro i
      cases i with
      | zero => rw [← hpeek] at ht; exact ht
      | succ i => exact token_eof (s := s) (i := i + 3) (by simp [hts, hnil])
    · rw [List.takeWhile_cons_of_pos (by simpa using ht), ← hrest]
      refine ⟨hpeek, ht, reads_script fun u hu => h u ?_⟩
      rw [hrest] at hu
      rw [hts, List.dropLast_cons_of_ne_nil (by rintro rfl; simp at hu)]
      exact List.mem_cons_of_mem _ hu
termination_by s.lexer.tokens.length
decreasing_by rw [advance_tokens_length, hts]; simp

/-- A parser starts at the first of its lexer's tokens. -/
theorem reads_ofLexer {lx : Lexer} (h : lx.EndsOnce) : (ofLexer lx).Reads lx.script :=
  -- The first two tokens are taken as if by moving on from a state that has none.
  reads_script (s := ⟨lx, .atEnd lx.file 0, .atEnd lx.file 0, #[]⟩) h

/-! ## What can be used up -/

def leftAhead (s : State) : Nat := (s.peek :: s.lexer.tokens).countP (·.kind ≠ .eof)

def left (s : State) : Nat := (s.current :: s.peek :: s.lexer.tokens).countP (·.kind ≠ .eof)

theorem left_eq (s : State) : s.left = s.leftAhead + if s.current.kind = .eof then 0 else 1 := by
  unfold left leftAhead
  rw [List.countP_cons]
  by_cases h : s.current.kind = .eof <;> simp [h]

theorem left_of_current {s : State} (h : s.current.kind ≠ .eof) : s.left = s.leftAhead + 1 := by
  rw [left_eq, if_neg h]

theorem leftAhead_le_left (s : State) : s.leftAhead ≤ s.left := by rw [left_eq]; omega

/-- Moving on uses up the current token. -/
theorem left_advance (s : State) : s.advance.left = s.leftAhead := by
  unfold left leftAhead
  rw [current_advance, List.countP_cons, List.countP_cons (l := s.lexer.tokens)]
  congr 1
  cases h : s.lexer.tokens with
  | nil =>
    obtain ⟨hpeek, hrest⟩ := advance_of_nil h
    simp [hpeek, hrest]
  | cons t ts =>
    obtain ⟨hpeek, hrest⟩ := advance_of_cons h
    rw [hpeek, hrest]

theorem leftAhead_advance {s : State} (h : s.peek.kind ≠ .eof) :
    s.advance.leftAhead + 1 = s.leftAhead := by
  rw [← left_advance s, left_of_current (s := s.advance) h]

theorem leftAhead_advance_le (s : State) : s.advance.leftAhead ≤ s.leftAhead := by
  rw [← left_advance s]; exact leftAhead_le_left _

theorem left_le_tokens (s : State) : s.left ≤ s.lexer.tokens.length + 2 := List.countP_le_length

end State

end ScriptFront
