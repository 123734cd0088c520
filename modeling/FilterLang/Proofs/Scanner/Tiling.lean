import FilterLang.Proofs.Location
import FilterLang.Proofs.Scanner.Machine

/-!
# The scanner tiles its text

Every character of a text belongs to exactly one piece: a token, a comment, or a character that
starts nothing.

* `Segment` — a piece of a text with the characters it spans; `Segment.WellFormed` says what each
  kind of piece looks like and `Segment.Sound` which pieces a text without fault has.
* `Placed` — every token stands at the place where its span starts.
* `Stable` — a property of scanners that is kept where characters are read, a fault is noted, and
  what has been read becomes a piece.  `Stable.step` says that every step of the machine keeps it,
  and `Stable.finish` that it holds at the end of a text.  So tokens that have been found stay
  (`stable_tokens`), and so does a fault (`stable_faulty`).
* `Cut` — a scanner has cut the characters behind it into pieces, which is stable (`stable_tiled`).
* `scan_tiles` — the tiling of a whole text.
-/

namespace FilterLang

/-! ### Pieces of a text -/

/-- A piece of a text. -/
inductive Segment where
  /-- a token and the characters it was made of -/
  | token (token : Token) (span : List Char)
  | comment (span : List Char)
  /-- a character that starts nothing -/
  | stray (c : Char)

namespace Segment

/-- The characters of a piece. -/
def span : Segment → List Char
  | .token _ span => span
  | .comment span => span
  | .stray c => [c]

/-- The token of a piece. -/
def token? : Segment → Option Token
  | .token t _ => some t
  | _ => none

/-- Two slashes and characters of the same line. -/
def IsLineComment (span : List Char) : Prop :=
  ∃ body, span = '/' :: '/' :: body ∧ '\n' ∉ body

/-- A block comment up to the first place where it is closed. -/
def IsClosedComment (span : List Char) : Prop :=
  ∃ body, span = '/' :: '*' :: (body ++ ['*', '/']) ∧ ¬ ['*', '/'] <:+: body ++ ['*']

/-- A block comment that nothing closes. -/
def IsOpenComment (span : List Char) : Prop :=
  ∃ body, span = '/' :: '*' :: body ∧ ¬ ['*', '/'] <:+: body

/-- The shape of a piece.  A token is no end token and is as wide as its span, which is not empty,
and it shows its span as it is unless it is a string. -/
def WellFormed : Segment → Prop
  | .token t span =>
    span ≠ [] ∧ t.kind ≠ .eof ∧ t.width = span.length
      ∧ (t.kind ≠ .string → t.value = String.ofList span)
  | .comment span => IsLineComment span ∨ IsClosedComment span ∨ IsOpenComment span
  | .stray c => Scanner.isStray c

/-- The pieces that a text without fault may have. -/
def Sound : Segment → Prop
  | .token _ _ => True
  | .comment span => IsLineComment span ∨ IsClosedComment span
  | .stray _ => False

/-- A token stands at this place. -/
def StandsAt (here : Location) : Segment → Prop
  | .token t _ => t.location = here
  | _ => True

end Segment

/-- Every token of the pieces, which start at a place, stands where its span starts. -/
def Placed : Location → List Segment → Prop
  | _, [] => True
  | here, segment :: segments =>
    segment.StandsAt here ∧ Placed (here.advance segment.span) segments

/-- The characters of pieces. -/
def spans (segments : List Segment) : List Char := segments.flatMap Segment.span

theorem spans_append_singleton (segments : List Segment) (segment : Segment) :
    spans (segments ++ [segment]) = spans segments ++ segment.span := by
  simp [spans]

theorem placed_append_singleton {here : Location} {segments : List Segment} {segment : Segment}
    (h : Placed here segments) (hs : segment.StandsAt (here.advance (spans segments))) :
    Placed here (segments ++ [segment]) := by
  induction segments generalizing here with
  | nil => exact ⟨hs, trivial⟩
  | cons first segments ih =>
    refine ⟨h.1, ih h.2 ?_⟩
    rwa [← Location.advance_append]

/-- The end token of a text. -/
def Token.endOf (source : List Char) : Token :=
  { kind := .eof, value := "", location := Location.origin.advance source, width := 0 }

/-- A text is cut into pieces, and its tokens are those of the pieces and the end token. -/
structure Tiling (source : List Char) (result : Scan) (segments : List Segment) : Prop where
  text : spans segments = source
  tokens : result.tokens = segments.filterMap Segment.token? ++ [Token.endOf source]
  placed : Placed .origin segments
  wellFormed : ∀ segment ∈ segments, segment.WellFormed
  increasing : result.tokens.Pairwise fun a b => a.location.Before b.location
  sound : result.fault = none → ∀ segment ∈ segments, segment.Sound

namespace Scanner

variable {source : List Char} {segments : List Segment} {s : Scanner} {phase : Phase}

/-! ### What every step keeps -/

/-- What has been read since the last token is a piece without a token: a comment, or a character
that starts nothing. -/
structure Drops (segment : Segment) (s : Scanner) : Prop where
  span : segment.span = s.lexeme
  token : segment.token? = none
  wellFormed : segment.WellFormed
  sound : s.fault = none → segment.Sound

/-- A property of scanners that is kept by whatever the machine does. -/
structure Stable (I : Scanner → Prop) : Prop where
  read : ∀ {s : Scanner}, I s → ∀ n, I (s.read n)
  noteAt : ∀ {s : Scanner}, I s → ∀ location fault, I (s.noteAt location fault)
  emitValue : ∀ {s : Scanner} {kind : TokenKind} {value : List Char}, I s → s.lexeme ≠ [] →
    kind ≠ .eof ∧ kind ≠ .caret → (kind ≠ .string → value = s.lexeme) → I (s.emitValue kind value)
  skip : ∀ {s : Scanner} (segment : Segment), I s → Drops segment s → I s.skip

theorem lexeme_read_ne_nil (h : s.lexeme ≠ []) (n : Nat) : (s.read n).lexeme ≠ [] := by
  rw [read_lexeme]
  exact List.append_ne_nil_of_left_ne_nil h _

theorem lexeme_readOne_ne_nil (h : s.lexeme ≠ []) (p : Char → Bool) :
    (s.readOne p).lexeme ≠ [] := by
  obtain ⟨n, hn⟩ := s.readOne_eq_read p
  exact hn ▸ lexeme_read_ne_nil h n

theorem lexeme_read_one_ne_nil {c : Char} {cs : List Char} (hr : s.rest = c :: cs) :
    (s.read 1).lexeme ≠ [] := by
  rw [read_lexeme, hr]
  simp

theorem lexeme_readWhile_ne_nil {c : Char} {cs : List Char} {p : Char → Bool}
    (hr : s.rest = c :: cs) (hc : p c) : (s.readWhile p).lexeme ≠ [] := by
  rw [readWhile_lexeme, hr, List.takeWhile_cons_of_pos hc]
  simp

theorem fault_note_ne_none (s : Scanner) (fault : ScanFault) : (s.note fault).fault ≠ none := by
  simp [note, noteAt]

/-- A list with a given first character, if a prefix of it has that first character. -/
theorem exists_cons_of_take {c : Char} {cs ds : List Char} {n : Nat} (h : cs.take n = c :: ds) :
    ∃ tail, cs = c :: tail := by
  refine ⟨ds ++ cs.drop n, ?_⟩
  rw [← List.cons_append, ← h, List.take_append_drop]

/-- What is read of a block comment goes up to the first place where it is closed, or to the end of
the text. -/
theorem blockComment_spec (cs : List Char) :
    if (blockComment cs).2 then
      ∃ body, cs.take (blockComment cs).1 = body ++ ['*', '/'] ∧ ¬ ['*', '/'] <:+: body ++ ['*']
    else cs.take (blockComment cs).1 = cs ∧ ¬ ['*', '/'] <:+: cs := by
  fun_induction blockComment cs with
  | case1 => simp
  | case2 cs => exact ⟨[], rfl, by decide⟩
  | case3 c cs hne ih =>
    split_ifs with hclosed
    · rw [if_pos hclosed] at ih
      obtain ⟨body, hbody, hinfix⟩ := ih
      refine ⟨c :: body, by rw [List.take_succ_cons, hbody, List.cons_append], ?_⟩
      rw [List.cons_append, List.infix_cons_iff]
      rintro (hpre | hinf)
      · obtain ⟨hc, hslash⟩ := List.cons_prefix_cons.1 hpre
        cases body with
        | nil => exact absurd (List.cons_prefix_cons.1 hslash).1 (by decide)
        | cons d body =>
          obtain ⟨tail, htail⟩ := exists_cons_of_take hbody
          exact hne tail hc.symm ((List.cons_prefix_cons.1 hslash).1 ▸ htail)
      · exact hinfix hinf
    · rw [if_neg hclosed] at ih
      refine ⟨by rw [List.take_succ_cons, ih.1], ?_⟩
      rw [List.infix_cons_iff]
      rintro (hpre | hinf)
      · obtain ⟨hc, tail, htail⟩ := List.cons_prefix_cons.1 hpre
        exact hne tail hc.symm htail.symm
      · exact ih.2 hinf

theorem stepRoot_ne_done (s : Scanner) (c : Char) : (s.stepRoot c).1 ≠ .done := by
  have hmove := s.stepRoot_move c
  generalize s.stepRoot c = next at hmove ⊢
  cases hmove <;> simp

/-- What the machine has made of a text: at the end there is an end token behind everything else. -/
def Kept (I : Scanner → Prop) : Phase → Scanner → Prop
  | .done, s => ∃ t, I t ∧ t.lexeme = [] ∧ t.rest = [] ∧ s = t.emit .eof
  | _, s => I s

variable {I : Scanner → Prop}

theorem kept_of_ne_done (hp : phase ≠ .done) : Kept I phase s ↔ I s := by
  cases phase <;> first | exact Iff.rfl | exact absurd rfl hp

/-- What the end token leaves as it is holds in all phases. -/
theorem Kept.of_emit (h : Kept I phase s) (hemit : ∀ t, I t → I (t.emit .eof)) : I s := by
  cases phase with
  | done =>
    obtain ⟨t, ht, -, -, rfl⟩ := h
    exact hemit t ht
  | _ => exact h

namespace Stable

theorem note (hI : Stable I) (h : I s) (fault : ScanFault) : I (s.note fault) :=
  hI.noteAt h _ fault

theorem readWhile (hI : Stable I) (h : I s) (p : Char → Bool) : I (s.readWhile p) :=
  hI.read h _

theorem readOne (hI : Stable I) (h : I s) (p : Char → Bool) : I (s.readOne p) := by
  obtain ⟨n, hn⟩ := s.readOne_eq_read p
  exact hn ▸ hI.read h n

theorem emit {kind : TokenKind} (hI : Stable I) (h : I s) (hne : s.lexeme ≠ [])
    (hk : kind ≠ .eof ∧ kind ≠ .caret) : I (s.emit kind) :=
  hI.emitValue h hne hk fun _ => rfl

theorem readQuoted {quote c : Char} {cs : List Char} (hI : Stable I) (h : I s)
    (hr : s.rest = c :: cs) : I (s.readQuoted quote) := by
  have hne := lexeme_read_one_ne_nil hr
  unfold Scanner.readQuoted
  dsimp only
  generalize Text.Quoted.read quote (s.read 1).here (s.read 1).rest = quoted
  have hne := lexeme_read_ne_nil hne quoted.length
  have h := hI.read (hI.read h 1) quoted.length
  cases quoted.fault with
  | none =>
    split_ifs
    · exact hI.emitValue h hne (by simp) (by simp)
    · exact hI.emitValue (hI.note h _) hne (by simp) (by simp)
  | some location =>
    split_ifs
    · exact hI.emitValue (hI.noteAt h _ _) hne (by simp) (by simp)
    · exact hI.emitValue (hI.note (hI.noteAt h _ _) _) hne (by simp) (by simp)

theorem readRaw {c : Char} {cs : List Char} (hI : Stable I) (h : I s) (hr : s.rest = c :: cs) :
    I s.readRaw := by
  have hne := lexeme_read_one_ne_nil hr
  have h := hI.read h 1
  unfold Scanner.readRaw
  dsimp only
  split_ifs
  · exact hI.emitValue (hI.read h _) (lexeme_read_ne_nil hne _) (by simp) (by simp)
  · exact hI.emitValue (hI.note (hI.read h _) _) (lexeme_read_ne_nil hne _) (by simp) (by simp)

theorem stepRoot {c : Char} {cs : List Char} (hI : Stable I) (hl : s.lexeme = [])
    (hr : s.rest = c :: cs) (h : I s) : I (s.stepRoot c).2 := by
  have hne := lexeme_read_one_ne_nil hr
  have hmove := s.stepRoot_move c
  generalize s.stepRoot c = next at hmove ⊢
  cases hmove with
  | blank hc => exact hI.emit (hI.readWhile h _) (lexeme_readWhile_ne_nil hr hc) (by simp)
  | quoted => exact hI.readQuoted h hr
  | raw => exact hI.readRaw h hr
  | number => exact h
  | questionMark => exact hI.read h 1
  | slash => exact hI.read h 1
  | pointer => exact hI.read h 1
  | pair => exact hI.emit (hI.readOne (hI.read h 1) _) (lexeme_readOne_ne_nil hne _) (by simp)
  | bracket => exact hI.emit (hI.read h 1) hne (by simp)
  | single => exact hI.emit (hI.read h 1) hne (by simp)
  | double => exact hI.emit (hI.readOne (hI.read h 1) _) (lexeme_readOne_ne_nil hne _) (by simp)
  | dot => exact h
  | word => exact h
  | stray hc =>
    have hlex : ((s.read 1).note (.unrecognizedCharacter c)).lexeme = [c] := by
      rw [note_lexeme, read_lexeme, hl, hr]
      rfl
    refine hI.skip (.stray c) (hI.note (hI.read h 1) _) ⟨hlex.symm, rfl, hc, ?_⟩
    exact fun hf => absurd hf (fault_note_ne_none _ _)

theorem readNumber {c : Char} {cs : List Char} (hI : Stable I) (h : I s) (hr : s.rest = c :: cs)
    (hc : c.isDigit) : I s.readNumber.1 ∧ s.readNumber.1.lexeme ≠ [] := by
  have hlen := length_readNumber_rest hr hc
  obtain ⟨n, hn⟩ := s.readNumber_eq_read
  rw [hn] at hlen ⊢
  refine ⟨hI.read h n, ?_⟩
  cases n with
  | zero =>
    rw [read_zero, hr, List.length_cons] at hlen
    omega
  | succ n =>
    rw [read_lexeme, hr, List.take_succ_cons]
    simp

theorem emitBlanks (hI : Stable I) (h : I s) : I s.emitBlanks := by
  unfold Scanner.emitBlanks
  dsimp only
  split_ifs with hempty
  · exact hI.readWhile h _
  · exact hI.emit (hI.readWhile h _) (fun hnil => hempty (List.isEmpty_iff.2 hnil)) (by simp)

theorem emitNegatable (hI : Stable I) (h : I s) : I s.emitNegatable := by
  unfold Scanner.emitNegatable
  split_ifs with hneg
  · refine hI.emit (hI.readWhile h _) ?_ (by simp)
    intro hnil
    rw [readWhile_lexeme] at hnil
    rw [(List.append_eq_nil_iff.1 hnil).2] at hneg
    exact absurd hneg (by decide)
  · exact h

/-- A comment up to the end of its line. -/
theorem lineComment (hI : Stable I) (hr : Ready .lineComment s) (h : I s) :
    I (s.step .lineComment).2 := by
  have hlex : s.lexeme = ['/', '/'] := hr
  have hline : Segment.IsLineComment (s.readWhile (· != '\n')).lexeme := by
    refine ⟨s.rest.takeWhile (· != '\n'), ?_, ?_⟩
    · rw [readWhile_lexeme, hlex]
      rfl
    · intro hmem
      have hne := List.all_eq_true.1 (List.all_takeWhile (l := s.rest)) _ hmem
      simp at hne
  exact hI.skip (.comment _) (hI.readWhile h _)
    ⟨rfl, rfl, .inl hline, fun _ => .inl hline⟩

/-- A comment up to the place where it is closed, or to the end with a fault. -/
theorem blockComment (hI : Stable I) (hr : Ready .blockComment s) (h : I s) :
    I (s.step .blockComment).2 := by
  have hopen : s.lexeme = ['/', '*'] := hr
  have hlex : (s.read (Scanner.blockComment s.rest).1).lexeme
      = '/' :: '*' :: s.rest.take (Scanner.blockComment s.rest).1 := by
    rw [read_lexeme, hopen]
    rfl
  have hspec := blockComment_spec s.rest
  simp only [Scanner.step]
  split_ifs with hclosed
  · rw [if_pos hclosed] at hspec
    obtain ⟨body, hbody, hinfix⟩ := hspec
    rw [hbody] at hlex
    have hshape : Segment.IsClosedComment (s.read (Scanner.blockComment s.rest).1).lexeme :=
      ⟨body, hlex, hinfix⟩
    exact hI.skip (.comment _) (hI.read h _)
      ⟨rfl, rfl, .inr (.inl hshape), fun _ => .inr hshape⟩
  · rw [if_neg hclosed] at hspec
    rw [hspec.1] at hlex
    refine hI.skip (.comment _) (hI.note (hI.read h _) _)
      ⟨rfl, rfl, .inr (.inr ⟨s.rest, hlex, hspec.2⟩), fun hf => ?_⟩
    exact absurd hf (fault_note_ne_none _ _)

/-- **The step lemma.**  A step of the machine keeps what is stable. -/
theorem step (hI : Stable I) (hr : Ready phase s) (hp : phase ≠ .done) (h : Kept I phase s) :
    Kept I (s.step phase).1 (s.step phase).2 := by
  replace h := (kept_of_ne_done hp).1 h
  cases phase with
  | root =>
    cases hrest : s.rest with
    | nil =>
      simp only [Scanner.step, hrest]
      exact ⟨s, h, hr, hrest, rfl⟩
    | cons c cs =>
      simp only [Scanner.step, hrest]
      exact (kept_of_ne_done (stepRoot_ne_done s c)).2 (hI.stepRoot hr hrest h)
  | number =>
    obtain ⟨-, c, cs, hrest, hc⟩ := hr
    obtain ⟨hnumber, hne⟩ := hI.readNumber h hrest hc
    simp only [Scanner.step]
    split_ifs
    · exact hI.emit hnumber hne (by simp)
    · exact hI.emit (hI.note hnumber _) hne (by simp)
  | dot =>
    obtain ⟨-, cs, hrest⟩ := hr
    have hne := lexeme_read_one_ne_nil hrest
    simp only [Scanner.step]
    split_ifs
    · exact hI.read h 1
    · exact hI.emit (hI.readOne (hI.read h 1) _) (lexeme_readOne_ne_nil hne _) (by simp)
  | identifier =>
    obtain ⟨-, c, cs, hrest, hc⟩ := hr
    have hne := lexeme_readWhile_ne_nil hrest hc
    simp only [Scanner.step]
    split_ifs
    · exact hI.readWhile h _
    · exact hI.emit (hI.readWhile h _) hne (by simp)
    · exact hI.emit (hI.readWhile h _) hne (by simp)
  | not =>
    have hne : s.lexeme ≠ [] := by
      rw [show s.lexeme = _ from hr]
      decide
    exact hI.emitNegatable (hI.emitBlanks (hI.emit h hne (by simp)))
  | questionMark =>
    have hne : s.lexeme ≠ [] := by
      rw [show s.lexeme = _ from hr]
      simp
    exact hI.emit (hI.readOne h _) (lexeme_readOne_ne_nil hne _) (by simp)
  | slash =>
    have hne : s.lexeme ≠ [] := by
      rw [show s.lexeme = _ from hr]
      simp
    simp only [Scanner.step]
    split
    · exact hI.read h 1
    · exact hI.read h 1
    · exact hI.emit h hne (by simp)
  | lineComment => exact hI.lineComment hr h
  | blockComment => exact hI.blockComment hr h
  | pointer =>
    have hne : s.lexeme ≠ [] := by
      rw [show s.lexeme = _ from hr]
      simp
    have hop : I ((s.readOne (· == '#')).emit .operator) :=
      hI.emit (hI.readOne h _) (lexeme_readOne_ne_nil hne _) (by simp)
    simp only [Scanner.step]
    split_ifs with hempty
    · exact hI.readWhile hop _
    · exact hI.emit (hI.readWhile hop _) (fun hnil => hempty (List.isEmpty_iff.2 hnil)) (by simp)
  | done => exact absurd rfl hp

/-- **What is stable holds at the end**, in front of the end token. -/
theorem finish (hI : Stable I) (hr : Ready phase s) (hp : phase ≠ .done) (h : I s) :
    ∃ t, I t ∧ t.lexeme = [] ∧ t.rest = [] ∧ Scanner.finish phase s = t.emit .eof :=
  (finish_induct (fun _ _ => hI.step) hr ((kept_of_ne_done hp).2 h)).2

/-- What is stable and holds in front of a text holds behind it. -/
theorem whole (hI : Stable I) (h : I { rest := source }) :
    ∃ t, I t ∧ t.lexeme = [] ∧ t.rest = [] ∧
      Scanner.finish .root { rest := source } = t.emit .eof :=
  hI.finish rfl nofun h

end Stable

/-- The tokens that have been found stay. -/
theorem stable_tokens (tokens : List Token) : Stable fun s => tokens <:+ s.tokens where
  read h _ := h
  noteAt h _ _ := h
  emitValue h _ _ _ := h.trans (List.suffix_cons _ _)
  skip _ h _ := h

/-- A fault that has been found stays. -/
theorem stable_faulty : Stable fun s => s.fault ≠ none where
  read h _ := h
  noteAt h _ _ := fun hnone => h (Option.or_eq_none_iff.mp hnone).1
  emitValue h _ _ _ := h
  skip _ h _ := h

/-- A step notes a fault at most. -/
theorem fault_step (hr : Ready phase s) (hp : phase ≠ .done) (h : s.fault ≠ none) :
    (s.step phase).2.fault ≠ none :=
  (stable_faulty.step hr hp ((kept_of_ne_done hp).2 h)).of_emit fun _ ht => ht

/-! ### Cut texts -/

/-- A scanner has cut the characters behind it into pieces, up to those it is reading. -/
structure Cut (source : List Char) (segments : List Segment) (s : Scanner) : Prop where
  text : spans segments ++ s.lexeme ++ s.rest = source
  start : s.start = Location.origin.advance (spans segments)
  here : s.here = s.start.advance s.lexeme
  tokens : s.tokens.reverse = segments.filterMap Segment.token?
  placed : Placed .origin segments
  wellFormed : ∀ segment ∈ segments, segment.WellFormed
  sound : s.fault = none → ∀ segment ∈ segments, segment.Sound

theorem cut_init (source : List Char) : Cut source [] { rest := source } where
  text := rfl
  start := rfl
  here := rfl
  tokens := rfl
  placed := trivial
  wellFormed := by simp
  sound := by simp

theorem Cut.read (h : Cut source segments s) (n : Nat) : Cut source segments (s.read n) where
  text := by
    rw [← h.text]
    simp
  start := h.start
  here := by rw [read_here, read_start, read_lexeme, h.here, Location.advance_append]
  tokens := h.tokens
  placed := h.placed
  wellFormed := h.wellFormed
  sound := h.sound

theorem Cut.noteAt (h : Cut source segments s) (location : Location) (fault : ScanFault) :
    Cut source segments (s.noteAt location fault) where
  text := h.text
  start := h.start
  here := h.here
  tokens := h.tokens
  placed := h.placed
  wellFormed := h.wellFormed
  sound hf := by simp [Scanner.noteAt] at hf

/-- At the end of a text all of it is in pieces. -/
theorem Cut.spans_eq (h : Cut source segments s) (hl : s.lexeme = []) (hr : s.rest = []) :
    spans segments = source := by
  have htext := h.text
  rwa [hl, hr, List.append_nil, List.append_nil] at htext

/-- What is read becomes a piece: the scanner forgets it, and its tokens are those of the pieces. -/
theorem Cut.close {t : Scanner} {segment : Segment} (h : Cut source segments s)
    (hspan : segment.span = s.lexeme) (hplace : segment.StandsAt s.start)
    (hwell : segment.WellFormed) (hsound : s.fault = none → segment.Sound)
    (ht : t.skip = t) (hrest : t.rest = s.rest) (hhere : t.here = s.here)
    (hfault : t.fault = s.fault) (htokens : t.tokens = segment.token?.toList ++ s.tokens) :
    Cut source (segments ++ [segment]) t where
  text := by
    rw [spans_append_singleton, hspan, ← ht, skip_lexeme, skip_rest, hrest, List.append_nil, h.text]
  start := by
    rw [spans_append_singleton, hspan, Location.advance_append, ← h.start, ← h.here, ← hhere, ← ht]
    rfl
  here := by
    rw [← ht]
    rfl
  tokens := by
    rw [htokens, List.reverse_append, h.tokens, List.filterMap_append]
    cases segment <;> rfl
  placed := placed_append_singleton h.placed (h.start ▸ hplace)
  wellFormed := by
    intro g hg
    rcases List.mem_append.1 hg with hg | hg
    · exact h.wellFormed g hg
    · rwa [List.mem_singleton.1 hg]
  sound hf := by
    rw [hfault] at hf
    intro g hg
    rcases List.mem_append.1 hg with hg | hg
    · exact h.sound hf g hg
    · rw [List.mem_singleton.1 hg]
      exact hsound hf

/-- A scanner has cut the characters behind it into some pieces. -/
def Tiled (source : List Char) (s : Scanner) : Prop := ∃ segments, Cut source segments s

/-- **Texts stay cut into pieces.** -/
theorem stable_tiled (source : List Char) : Stable (Tiled source) where
  read h n := h.imp fun _ h => h.read n
  noteAt h location fault := h.imp fun _ h => h.noteAt location fault
  emitValue := by
    rintro s kind value ⟨segments, h⟩ hne hk hv
    let token : Token :=
      { kind, value := String.ofList value, location := s.start, width := s.lexeme.length }
    refine ⟨segments ++ [.token token s.lexeme], ?_⟩
    have hvalue : kind ≠ .string → String.ofList value = String.ofList s.lexeme := by
      intro h
      rw [hv h]
    exact h.close rfl rfl ⟨hne, hk.1, rfl, hvalue⟩ (fun _ => trivial) rfl rfl rfl rfl rfl
  skip := by
    rintro s segment ⟨segments, h⟩ hdrops
    have hplace : segment.StandsAt s.start := by
      cases segment with
      | token => cases hdrops.token
      | comment => trivial
      | stray => trivial
    have htokens : s.skip.tokens = segment.token?.toList ++ s.tokens := by
      rw [hdrops.token]
      rfl
    exact ⟨_, h.close hdrops.span hplace hdrops.wellFormed hdrops.sound rfl rfl rfl rfl htokens⟩

/-! ### The tiling of a text -/

/-- The last token of a text is an end token. -/
theorem scan_ends (source : String) :
    ∃ front last, (scan source).tokens = front ++ [last] ∧ last.kind = .eof := by
  obtain ⟨t, -, -, -, hfinish⟩ :=
    (stable_tiled source.toList).whole ⟨[], cut_init _⟩
  let last : Token :=
    { kind := .eof, value := String.ofList t.lexeme, location := t.start, width := t.lexeme.length }
  refine ⟨t.tokens.reverse, last, ?_, rfl⟩
  rw [scan, scanChars_eq, hfinish]
  exact List.reverse_cons

/-- The tokens of placed pieces stand in the order of the text, and before everything behind. -/
theorem pairwise_before {here : Location} {segments : List Segment} {last : Token}
    (hp : Placed here segments) (hw : ∀ segment ∈ segments, segment.WellFormed)
    (hl : last.location = here.advance (spans segments)) :
    (segments.filterMap Segment.token? ++ [last]).Pairwise
        (fun a b => a.location.Before b.location) ∧
      ∀ t ∈ segments.filterMap Segment.token? ++ [last],
        here = t.location ∨ here.Before t.location := by
  induction segments generalizing here with
  | nil => simp [show last.location = here from hl]
  | cons segment segments ih =>
    obtain ⟨hstand, hplaced⟩ := hp
    have hlast : last.location = (here.advance segment.span).advance (spans segments) := by
      rw [hl, ← Location.advance_append]
      rfl
    obtain ⟨hpair, hbefore⟩ := ih hplaced (fun g hg => hw g (List.mem_cons_of_mem _ hg)) hlast
    have hlater : ∀ t ∈ segments.filterMap Segment.token? ++ [last],
        here = t.location ∨ here.Before t.location := by
      intro t ht
      rcases Location.eq_or_before_advance here segment.span with h | h
      · rw [← h] at hbefore
        exact hbefore t ht
      · rcases hbefore t ht with ht | ht
        · exact .inr (ht ▸ h)
        · exact .inr (h.trans ht)
    cases segment with
    | token token span =>
      have hspan : here.Before (here.advance span) :=
        Location.before_advance here (hw _ List.mem_cons_self).1
      have hhere : token.location = here := hstand
      refine ⟨List.pairwise_cons.2 ⟨fun t ht => ?_, hpair⟩, fun t ht => ?_⟩
      · rw [hhere]
        rcases hbefore t ht with h | h
        · exact h ▸ hspan
        · exact hspan.trans h
      · rcases List.mem_cons.1 ht with rfl | ht
        · exact .inl hhere.symm
        · exact hlater t ht
    | comment span => exact ⟨hpair, hlater⟩
    | stray c => exact ⟨hpair, hlater⟩

/-- **The scanner tiles its text.**  The characters of a source are cut into pieces, each the span
of one token, one comment or one character that starts nothing.  The tokens are those of the pieces,
each at the place where its span starts, and the end token behind them; they stand in increasing
order.  Where no fault is noted there are no stray characters and all comments are closed. -/
theorem scan_tiles (source : String) :
    ∃ segments, Tiling source.toList (scan source) segments := by
  obtain ⟨t, ⟨segments, hcut⟩, hl, hrest, hfinish⟩ :=
    (stable_tiled source.toList).whole ⟨[], cut_init _⟩
  have hspans : spans segments = source.toList := hcut.spans_eq hl hrest
  have hstart : t.start = Location.origin.advance source.toList := by rw [hcut.start, hspans]
  have htokens : (scan source).tokens
      = segments.filterMap Segment.token? ++ [Token.endOf source.toList] := by
    rw [scan, scanChars_eq, hfinish, ← hcut.tokens]
    simp [emit, emitValue, hl, Scanner.skip, hstart, Token.endOf]
  refine ⟨segments, hspans, htokens, hcut.placed, hcut.wellFormed, ?_, ?_⟩
  · rw [htokens]
    refine (pairwise_before hcut.placed hcut.wellFormed ?_).1
    rw [hspans]
    rfl
  · rw [scan, scanChars_eq, hfinish]
    exact hcut.sound

end Scanner

end FilterLang
