import Mathlib.Algebra.Group.Nat.Defs
import ScriptFront.Proofs.Token.Lexer
import ScriptFront.Proofs.Token.Shape

/-!
# Tokens tile the source

A text is blank, or it is a blank gap, a lexeme and what is left behind that (`gap_or_lexeme`), so
`tokens_lexeme` and `tokens_blank` say what the tokens of any tape are. `Tiled` says of a source
and its tokens that nothing is lost and nothing made up: the spans follow one another, there are
only blanks between them, and a token shows the text of its span. It shows more than that in two
places only. The last token shows the end character if it takes it, and a decimal with a second
point behind it shows that point, which is the next token. The offsets of the spans are in order as
long as the source has room in them (`Tiled.ordered`).
-/

namespace ScriptFront

open Text

/-! ## Widths -/

/-- Bytes are counted as the string counts them. -/
theorem Text.width_toList (s : String) : width s.toList = s.utf8ByteSize := by
  have key (cs : List Char) : width cs = (String.ofList cs).utf8ByteSize := by
    induction cs with
    | nil => rfl
    | cons c cs ih =>
      have hcons : String.ofList (c :: cs) = String.singleton c ++ String.ofList cs := by simp
      rw [width_cons, ih, hcons, String.utf8ByteSize_append, String.utf8ByteSize_singleton]
  rw [key, String.ofList_toList]

theorem Text.width_eq_zero {cs : List Char} (h : width cs = 0) : cs = [] := by
  cases cs with
  | nil => rfl
  | cons c cs =>
    have := c.utf8Size_pos
    rw [width_cons] at h
    omega

/-- As many spaces as told. -/
def Text.spaces (n : Nat) : String := String.ofList (List.replicate n ' ')

theorem Text.spaces_succ (n : Nat) : (spaces (n + 1)).toList = ' ' :: (spaces n).toList := by
  simp [spaces, List.replicate_succ]

theorem Text.spaces_utf8ByteSize (n : Nat) : (spaces n).utf8ByteSize = n := by
  rw [← width_toList, spaces, String.toList_ofList]
  induction n with
  | zero => rfl
  | succ n ih =>
    rw [List.replicate_succ, width_cons, ih, Nat.add_comm]
    rfl

theorem Text.isBlank_of_mem_spaces (n : Nat) : ∀ c ∈ (spaces n).toList, isBlank c := by
  intro c hc
  rw [spaces, String.toList_ofList] at hc
  rw [List.eq_of_mem_replicate hc]
  rfl

/-! ## Token by token -/

/-- Digits, a point, and digits or none. -/
def IsDecimal (cs : List Char) : Prop :=
  ∃ whole part : List Char, whole ≠ [] ∧ (∀ c ∈ whole, isDigit c) ∧ (∀ c ∈ part, isDigit c) ∧
    cs = whole ++ '.' :: part

theorem IsDecimal.ne_nil {cs : List Char} (h : IsDecimal cs) : cs ≠ [] := by
  obtain ⟨whole, part, -, -, -, rfl⟩ := h
  simp

/-- What a lexeme shows and does not take is the point behind a decimal. -/
theorem Lexeme.Shaped.echo {x : Lexeme} (h : x.Shaped) :
    x.echo = [] ∨ x.echo = ['.'] ∧ x.kind = .illegal ∧ IsDecimal x.read ∧
      ∃ more, x.rest = '.' :: more := by
  cases h with
  | points hwhole hpart =>
    exact .inr ⟨rfl, rfl, ⟨_ :: _, _, by simp, hwhole, hpart, rfl⟩, _, rfl⟩
  | _ => exact .inl rfl

theorem Lexeme.Shaped.echo_of_rest {x : Lexeme} (h : x.Shaped) (hrest : x.rest = []) :
    x.echo = [] := by
  rcases h.echo with hecho | ⟨-, -, -, more, hmore⟩
  · exact hecho
  · simp [hrest] at hmore

/-- A source is made of lexemes with blanks between them. The character `c` that ends it belongs to
the last lexeme, if it is not blank. -/
inductive Cuts (c : Char) : List Char → Prop where
  | blank {gap : List Char} : (∀ d ∈ gap, isBlank d) → isBlank c → Cuts c gap
  | last {gap body : List Char} {kind : Kind} : (∀ d ∈ gap, isBlank d) → ¬ isBlank c →
      Lexeme.Shaped ⟨kind, body ++ [c], [], []⟩ → Cuts c (gap ++ body)
  | lexeme {gap read echo rest : List Char} {kind : Kind} : (∀ d ∈ gap, isBlank d) → read ≠ [] →
      Lexeme.Shaped ⟨kind, read, echo, rest ++ [c]⟩ → Cuts c rest → Cuts c (gap ++ (read ++ rest))

namespace Tape

/-- A text starts with a lexeme if it is not blank. -/
theorem gap_or_lexeme (text : List Char) :
    (∀ c ∈ text, isBlank c) ∨ ∃ (gap : List Char) (x : Lexeme),
      (∀ c ∈ gap, isBlank c) ∧ x.Shaped ∧ text = gap ++ (x.read ++ x.rest) := by
  have hsplit := List.takeWhile_append_dropWhile (p := isBlank) (l := text)
  have hgap : ∀ c ∈ text.takeWhile isBlank, isBlank c := Lexeme.all_takeWhile
  cases htext : text.dropWhile isBlank with
  | nil =>
    rw [htext, List.append_nil] at hsplit
    exact .inl (hsplit ▸ hgap)
  | cons c cs =>
    have hc : ¬ isBlank c := Lexeme.head?_dropWhile c (by rw [htext]; rfl)
    refine .inr ⟨_, Lexeme.scan c cs, hgap, Lexeme.shaped_scan cs hc, ?_⟩
    rw [Lexeme.scan_split, ← htext, hsplit]

theorem cuts (c : Char) (cs : List Char) : Cuts c cs := by
  rcases gap_or_lexeme (cs ++ [c]) with hblank | ⟨gap, x, hgap, hx, htext⟩
  · exact .blank (fun d hd => hblank d (by simp [hd])) (hblank c (by simp))
  have hread : x.read ≠ [] := by
    obtain ⟨d, ds, hread, -⟩ := hx.head
    simp [hread]
  have hlast := hx.last
  have hecho := hx.echo_of_rest
  obtain ⟨kind, read, echo, rest⟩ := x
  simp only at htext hread hlast hecho
  rcases List.eq_nil_or_concat rest with rfl | ⟨rest, d, rfl⟩
  · obtain ⟨body, d, rfl⟩ := (List.eq_nil_or_concat read).resolve_left hread
    rw [List.concat_eq_append] at *
    rw [List.append_nil, ← List.append_assoc] at htext
    obtain ⟨rfl, hd⟩ := List.append_inj' htext rfl
    cases hd
    cases hecho rfl
    exact .last hgap (hlast rfl c (by simp)) hx
  · rw [List.concat_eq_append] at *
    rw [← List.append_assoc, ← List.append_assoc] at htext
    obtain ⟨hcs, hd⟩ := List.append_inj' htext rfl
    cases hd
    rw [List.append_assoc] at hcs
    have hshort : rest.length < cs.length := by
      have := List.length_pos_iff.2 hread
      simp only [hcs, List.length_append]
      omega
    rw [hcs]
    exact .lexeme hgap hread hx (cuts c rest)
termination_by cs.length

variable {file : String} {n : Nat} {gap read echo rest : List Char} {kind : Kind}

theorem tokens_blank {text : List Char} (h : ∀ c ∈ text, isBlank c) :
    (Tape.mk file n text).tokens = [] := by
  refine tokens_of_none (next_eq_none ?_)
  simpa using @Lexeme.dropWhile_append isBlank text [] h (by simp)

theorem skipBlank_lexeme (hgap : ∀ c ∈ gap, isBlank c)
    (hx : Lexeme.Shaped ⟨kind, read, echo, rest⟩) :
    (Tape.mk file n (gap ++ (read ++ rest))).skipBlank =
      ⟨file, n + width gap, read ++ rest⟩ := by
  obtain ⟨c, cs, hread, hc⟩ := hx.head
  cases hread
  rw [skipBlank_gap hgap (by simp), skipBlank_of_not_blank (show _ = c :: (cs ++ rest) from rfl) hc]

/-- The first token is made of the first lexeme. -/
theorem next_lexeme (hgap : ∀ c ∈ gap, isBlank c) (hx : Lexeme.Shaped ⟨kind, read, echo, rest⟩) :
    (Tape.mk file n (gap ++ (read ++ rest))).next =
      (some ((Tape.mk file (n + width gap) (read ++ rest)).token ⟨kind, read, echo, rest⟩),
        (Tape.mk file (n + width gap) (read ++ rest)).past read rest) := by
  have hskip := @skipBlank_lexeme file n _ _ _ _ _ hgap hx
  obtain ⟨c, cs, hread, -⟩ := hx.head
  cases hread
  have hscan : Lexeme.scan c (cs ++ rest) = ⟨kind, c :: cs, echo, rest⟩ := hx.scan_eq rfl
  rw [next_eq_some (show _ = c :: (cs ++ rest) by rw [hskip]; rfl), hskip, hscan]

theorem next_cons (hgap : ∀ d ∈ gap, isBlank d) (hx : Lexeme.Shaped ⟨kind, read, echo, rest⟩)
    (hrest : rest ≠ []) :
    (Tape.mk file n (gap ++ (read ++ rest))).next =
      (some ⟨kind, String.ofList (read ++ echo),
          .between (n + width gap) (n + width gap + width read) file⟩,
        ⟨file, n + width gap + width read, rest⟩) := by
  rw [next_lexeme hgap hx]
  simp [token, past, Lexeme.shown, hrest]

/-- The others are made of what is left. -/
theorem tokens_lexeme (hgap : ∀ c ∈ gap, isBlank c) (hx : Lexeme.Shaped ⟨kind, read, echo, rest⟩) :
    (Tape.mk file n (gap ++ (read ++ rest))).tokens =
      (Tape.mk file (n + width gap) (read ++ rest)).token ⟨kind, read, echo, rest⟩ ::
        ((Tape.mk file (n + width gap) (read ++ rest)).past read rest).tokens :=
  tokens_of_some (next_lexeme hgap hx)

/-- A token that takes the last character stops before it. -/
theorem tokens_last {c : Char} (hgap : ∀ d ∈ gap, isBlank d)
    (hx : Lexeme.Shaped ⟨kind, read ++ [c], [], []⟩) :
    (Tape.mk file n (gap ++ (read ++ [c]))).tokens =
      [⟨kind, String.ofList (read ++ [c]),
        .between (n + width gap) (n + width gap + width read) file⟩] := by
  have htokens := @tokens_lexeme file n _ _ _ _ _ hgap hx
  rw [List.append_nil] at htokens
  rw [htokens, tokens_of_none (next_of_pending_nil rfl)]
  simp [token, past, Lexeme.shown]

theorem tokens_cons (hgap : ∀ d ∈ gap, isBlank d) (hx : Lexeme.Shaped ⟨kind, read, echo, rest⟩)
    (hrest : rest ≠ []) :
    (Tape.mk file n (gap ++ (read ++ rest))).tokens =
      ⟨kind, String.ofList (read ++ echo),
          .between (n + width gap) (n + width gap + width read) file⟩ ::
        (Tape.mk file (n + width gap + width read) rest).tokens :=
  tokens_of_some (next_cons hgap hx hrest)

/-- Blanks before a text only move it on. -/
theorem tokens_gap (hgap : ∀ c ∈ gap, isBlank c) (text : List Char) :
    (Tape.mk file n (gap ++ text)).tokens = (Tape.mk file (n + width gap) text).tokens := by
  cases text with
  | nil => rw [tokens_blank (by simpa using hgap), tokens_blank (by simp)]
  | cons c text => exact tokens_congr (next_congr (skipBlank_gap hgap (by simp) file n))

theorem tokens_space (text : List Char) :
    (Tape.mk file n (' ' :: text)).tokens = (Tape.mk file (n + 1) text).tokens :=
  @tokens_gap file n [' '] (List.forall_mem_singleton.2 rfl) text

theorem tokens_spaces (k : Nat) (text : List Char) :
    (Tape.mk file n ((spaces k).toList ++ text)).tokens = (Tape.mk file (n + k) text).tokens := by
  rw [tokens_gap (isBlank_of_mem_spaces k), width_toList, spaces_utf8ByteSize]

theorem next_spaces (k : Nat) {text : List Char} (htext : text ≠ []) :
    (Tape.mk file n ((spaces k).toList ++ text)).next = (Tape.mk file (n + k) text).next := by
  rw [next_congr (skipBlank_gap (isBlank_of_mem_spaces k) htext file n), width_toList,
    spaces_utf8ByteSize]

end Tape

/-! ## Tilings -/

/-- `text`, at the offset `n` of a source that `c` ends, is made of the tokens and of blanks. -/
inductive Tiled (file : String) (c : Char) : Nat → List Char → List Token → Prop where
  /-- The end character is skipped as a blank. -/
  | blank {n : Nat} {gap : List Char} : (∀ d ∈ gap, isBlank d) → isBlank c → Tiled file c n gap []
  /-- The last token takes the end character, which is no part of the source. -/
  | last {n : Nat} {gap body : List Char} {t : Token} : (∀ d ∈ gap, isBlank d) → ¬ isBlank c →
      t.span = .between (n + width gap) (n + width gap + width body) file →
      t.text = String.ofList (body ++ [c]) → Tiled file c n (gap ++ body) [t]
  | token {n : Nat} {gap body rest : List Char} {t : Token} {ts : List Token} :
      (∀ d ∈ gap, isBlank d) → body ≠ [] →
      t.span = .between (n + width gap) (n + width gap + width body) file →
      t.text = String.ofList body → Tiled file c (n + width gap + width body) rest ts →
      Tiled file c n (gap ++ (body ++ rest)) (t :: ts)
  /-- The point behind a decimal is shown with it, and is the next token. -/
  | points {n : Nat} {gap body rest : List Char} {t point : Token} {ts : List Token} :
      (∀ d ∈ gap, isBlank d) → IsDecimal body → t.kind = .illegal →
      t.span = .between (n + width gap) (n + width gap + width body) file →
      t.text = String.ofList (body ++ ['.']) → point.text = "." →
      point.span.start = t.span.stop →
      Tiled file c (n + width gap + width body) rest (point :: ts) →
      Tiled file c n (gap ++ (body ++ rest)) (t :: point :: ts)

theorem Tape.tokens_point (file : String) (n : Nat) (rest : List Char) :
    ∃ t ts, (Tape.mk file n ('.' :: rest)).tokens = t :: ts ∧ t.text = "." ∧
      t.span.start = .ofNat n := by
  have hpoint : Lexeme.Shaped ⟨.illegal, ['.'], [], rest⟩ :=
    @Lexeme.Shaped.mark '.' rest (by decide) (by decide) (by decide) (by decide) (by decide)
  exact ⟨_, _, @tokens_lexeme file n [] _ _ _ _ (by simp) hpoint, rfl, rfl⟩

theorem Tape.tokens_tiled (file : String) (n : Nat) {cs : List Char} {c : Char} (h : Cuts c cs) :
    Tiled file c n cs (Tape.mk file n (cs ++ [c])).tokens := by
  induction h generalizing n with
  | blank hgap hc =>
    rw [tokens_blank (by simpa [or_imp, forall_and] using ⟨hgap, hc⟩)]
    exact .blank hgap hc
  | last hgap hc hx =>
    rw [List.append_assoc, tokens_last hgap hx]
    exact .last hgap hc rfl rfl
  | @lexeme gap read echo rest kind hgap hread hx _ ih =>
    have htiled := ih (n + width gap + width read)
    rw [List.append_assoc, List.append_assoc, tokens_cons hgap hx (by simp)]
    rcases hx.echo with hecho | ⟨hecho, hkind, hdecimal, more, hmore⟩
    · exact .token hgap hread rfl (by simp_all) htiled
    · simp only at hecho hkind hmore
      obtain ⟨point, ts, hpoint, htext, hstart⟩ :=
        tokens_point file (n + width gap + width read) more
      rw [hmore, hpoint] at htiled ⊢
      rw [hecho]
      exact .points hgap hdecimal hkind rfl rfl htext hstart htiled

/-! ## What a tiling says of the spans -/

theorem Span.between_start_toNat {start stop : Nat} {file : String} (h : start < 2 ^ 32) :
    (between start stop file).start.toNat = start := UInt32.toNat_ofNat_of_lt' h

theorem Span.between_stop_toNat {start stop : Nat} {file : String} (h : stop < 2 ^ 32) :
    (between start stop file).stop.toNat = stop := UInt32.toNat_ofNat_of_lt' h

/-- The starts and the stops of the tokens as they come. -/
def bounds (ts : List Token) : List Nat :=
  ts.flatMap fun t => [t.span.start.toNat, t.span.stop.toNat]

/-- The characters of `source` that the token covers. -/
def Token.Covers (t : Token) (source body : List Char) : Prop :=
  ∃ before behind, source = before ++ (body ++ behind) ∧
    t.span = .between (width before) (width (before ++ body)) t.span.file

theorem pairwise_le_cons {a b : Nat} {l : List Nat} (hab : a ≤ b)
    (h : (b :: l).Pairwise (· ≤ ·)) : (a :: b :: l).Pairwise (· ≤ ·) := by
  refine List.pairwise_cons.2 ⟨fun x hx => ?_, h⟩
  rcases List.mem_cons.1 hx with rfl | hx
  · exact hab
  · exact Nat.le_trans hab ((List.pairwise_cons.1 h).1 x hx)

namespace Tiled

variable {file : String} {c : Char} {n : Nat} {cs : List Char} {ts : List Token}

/-- In a source that is not too long for its offsets the spans are in order. -/
theorem ordered (h : Tiled file c n cs ts) (hfits : n + width cs < 2 ^ 32) :
    (n :: (bounds ts ++ [n + width cs])).Pairwise (· ≤ ·) := by
  induction h with
  | blank => simp [bounds]
  | last _ _ hspan =>
    simp only [width_append] at hfits
    simp only [bounds, List.flatMap_cons, List.flatMap_nil, hspan]
    rw [Span.between_start_toNat (by omega), Span.between_stop_toNat (by omega)]
    refine pairwise_le_cons (by omega) (pairwise_le_cons (by omega) ?_)
    simp [Nat.add_assoc]
  | token _ _ hspan _ _ ih | points _ _ _ hspan _ _ _ _ ih =>
    simp only [width_append] at hfits
    specialize ih (by omega)
    simp only [bounds, List.flatMap_cons, hspan] at ih ⊢
    rw [Span.between_start_toNat (by omega), Span.between_stop_toNat (by omega)]
    refine pairwise_le_cons (by omega) (pairwise_le_cons (by omega) ?_)
    simpa [Nat.add_assoc] using ih

theorem le_start (h : Tiled file c n cs ts) (hfits : n + width cs < 2 ^ 32) :
    ∀ t ∈ ts, n ≤ t.span.start.toNat := fun t ht =>
  (List.pairwise_cons.1 (h.ordered hfits)).1 _ (List.mem_append_left _
    (List.mem_flatMap.2 ⟨t, ht, List.mem_cons_self⟩))

/-- A token starts before what stands behind a part of the source that it covers. -/
theorem start_lt {t : Token} {m stop : Nat} {body : List Char} (hbody : body ≠ [])
    (hspan : t.span = .between m (m + width body) file) (hfits : m < 2 ^ 32)
    (hstop : m + width body ≤ stop) : t.span.start.toNat < stop := by
  have hwidth : 0 < width body := Nat.pos_of_ne_zero (mt width_eq_zero hbody)
  rw [hspan, Span.between_start_toNat hfits]
  omega

/-- No two tokens start at the same place, since only the last one can take no room. -/
theorem starts (h : Tiled file c n cs ts) (hfits : n + width cs < 2 ^ 32) :
    ts.Pairwise (·.span.start < ·.span.start) := by
  induction h with
  | blank => exact .nil
  | last => exact List.pairwise_singleton _ _
  | token _ hbody hspan _ hrest ih =>
    simp only [width_append] at hfits
    refine List.pairwise_cons.2 ⟨fun u hu => ?_, ih (by omega)⟩
    exact start_lt hbody hspan (by omega) (hrest.le_start (by omega) u hu)
  | points _ hdecimal _ hspan _ _ _ hrest ih =>
    simp only [width_append] at hfits
    refine List.pairwise_cons.2 ⟨fun u hu => ?_, ih (by omega)⟩
    exact start_lt hdecimal.ne_nil hspan (by omega) (hrest.le_start (by omega) u hu)

/-- A token covers a part of the source behind `before`, and shows it. -/
theorem covers (h : Tiled file c n cs ts) {before : List Char} (hn : n = width before) :
    ∀ t ∈ ts, ∃ body suffix, t.Covers (before ++ cs) body ∧
      t.text = String.ofList (body ++ suffix) ∧
      (suffix = [] ∧ body ≠ [] ∨ suffix = [c] ∧ ts.getLast? = some t ∨
        suffix = ['.'] ∧ t.kind = .illegal ∧ IsDecimal body) := by
  induction h generalizing before with
  | blank => simp
  | @last n gap body t _ _ hspan htext =>
    intro u hu
    cases List.mem_singleton.1 hu
    refine ⟨body, [c], ⟨before ++ gap, [], ?_, ?_⟩, htext, .inr (.inl ⟨rfl, rfl⟩)⟩
    all_goals simp [hspan, hn, Nat.add_assoc, Span.between]
  | @token n gap body rest t ts _ hbody hspan htext _ ih =>
    intro u hu
    rcases List.mem_cons.1 hu with rfl | hu
    · refine ⟨body, [], ⟨before ++ gap, rest, ?_, ?_⟩, by simpa using htext, .inl ⟨rfl, hbody⟩⟩
      all_goals simp [hspan, hn, Nat.add_assoc, Span.between]
    · obtain ⟨body', suffix, hcovers, htext', hsuffix⟩ :=
        @ih (before ++ gap ++ body) (by simp [hn, Nat.add_assoc]) u hu
      refine ⟨body', suffix, by simpa using hcovers, htext', ?_⟩
      rwa [List.getLast?_cons_of_ne_nil (List.ne_nil_of_mem hu)]
  | @points n gap body rest t point ts _ hdecimal hkind hspan htext _ _ _ ih =>
    intro u hu
    rcases List.mem_cons.1 hu with rfl | hu
    · refine ⟨body, ['.'], ⟨before ++ gap, rest, ?_, ?_⟩, htext, .inr (.inr ⟨rfl, hkind, hdecimal⟩)⟩
      all_goals simp [hspan, hn, Nat.add_assoc, Span.between]
    · obtain ⟨body', suffix, hcovers, htext', hsuffix⟩ :=
        @ih (before ++ gap ++ body) (by simp [hn, Nat.add_assoc]) u hu
      exact ⟨body', suffix, by simpa using hcovers, htext', by simpa using hsuffix⟩

end Tiled

/-- A token that covers nothing stops where it starts. -/
theorem Token.Covers.eq_nil {t : Token} {source body : List Char} (h : t.Covers source body)
    (hfits : width source < 2 ^ 32) (hempty : t.span.start = t.span.stop) : body = [] := by
  obtain ⟨before, behind, rfl, hspan⟩ := h
  simp only [width_append] at hfits
  rw [hspan] at hempty
  have hsame := congrArg UInt32.toNat hempty
  rw [width_append, Span.between_start_toNat (by omega),
    Span.between_stop_toNat (by omega)] at hsame
  exact width_eq_zero (by omega)

/-- The tokens of a source tile it, whatever character ends it: their spans are in order and within
the source, each covers whole characters, and a token shows the characters that it covers. It shows
one more if it is the last and takes the end character, and if it is a decimal before a point. Only
the end character alone takes no room. -/
theorem Lexer.tokens_tile (file : String) {source : String} (c : Char)
    (hfits : source.utf8ByteSize < 2 ^ 32) :
    ∃ ts, ((ofString file source).endingWith c).tokens = ts ∧
      Tiled file c 0 source.toList ts ∧
      (0 :: (bounds ts ++ [source.utf8ByteSize])).Pairwise (· ≤ ·) ∧
      (∀ t ∈ ts, ∃ body suffix, t.Covers source.toList body ∧
        t.text = String.ofList (body ++ suffix) ∧
        (suffix = [] ∧ body ≠ [] ∨ suffix = [c] ∧ ts.getLast? = some t ∨
          suffix = ['.'] ∧ t.kind = .illegal ∧ IsDecimal body)) ∧
      ∀ t ∈ ts, t.span.start = t.span.stop → t.text = String.ofList [c] := by
  rw [tokens_tape, tape_endingWith]
  rw [← width_toList] at hfits ⊢
  have htiled := Tape.tokens_tiled file 0 (Tape.cuts c source.toList)
  have hcovers := @Tiled.covers file c 0 source.toList _ htiled [] rfl
  refine ⟨_, rfl, htiled, ?_, hcovers, fun t ht hempty => ?_⟩
  · simpa using htiled.ordered (by simpa using hfits)
  · obtain ⟨body, suffix, hbody, htext, hsuffix⟩ := hcovers t ht
    cases hbody.eq_nil hfits hempty
    rcases hsuffix with ⟨-, hne⟩ | ⟨rfl, -⟩ | ⟨-, -, whole, part, -, -, -, hdecimal⟩
    · exact (hne rfl).elim
    · exact htext
    · simp at hdecimal

/-- A number with a second point behind it, which is also the next token, and a word that the end
character completes. -/
theorem tokens_tile_points :
    let source := "'é' 1.2.tru"
    source.utf8ByteSize < 2 ^ 32 ∧
      ∃ ts, ((Lexer.ofString "shell" source).endingWith 'e').tokens = ts ∧
        Tiled "shell" 'e' 0 source.toList ts ∧
        (0 :: (bounds ts ++ [source.utf8ByteSize])).Pairwise (· ≤ ·) ∧
        (∀ t ∈ ts, ∃ body suffix, t.Covers source.toList body ∧
          t.text = String.ofList (body ++ suffix) ∧
          (suffix = [] ∧ body ≠ [] ∨ suffix = ['e'] ∧ ts.getLast? = some t ∨
            suffix = ['.'] ∧ t.kind = .illegal ∧ IsDecimal body)) ∧
        ∀ t ∈ ts, t.span.start = t.span.stop → t.text = String.ofList ['e'] := by
  intro source
  have hfits : source.utf8ByteSize < 2 ^ 32 := by decide
  exact ⟨hfits, Lexer.tokens_tile "shell" 'e' hfits⟩

end ScriptFront
