import FilterLang.Proofs.Scanner.Below
import FilterLang.Proofs.Scanner.Numbers

/-!
# Texts joined by a line break

Two texts with a line break between them are scanned one after the other, if the first one has no
fault and neither has a blank at the break: no token and no comment reaches across, and all that is
looked at behind the break is left as it is.

* `Firm` — a text that does not end with a blank.
* `followed` — a scanner with a line break and more text behind.  Whatever does not take line feeds
  reads the same (`followed_readWhile`, `followed_readNumber`, ...), and a quoted text does if it is
  closed.
* `splits_step` — the step lemma: a step without a fault is the same with the break behind.
* `exists_finish_followed` — the run lemma, by induction on the measure of the machine: the run
  comes to the break where the run over the first text ends.
* `finish_break` — from the break on, the run is the one over the second text further down.
* `scan_append_feed` — the tokens and the fault of the joined text.
-/

namespace FilterLang

namespace Scanner

open Text

variable {text : List Char} {s u : Scanner} {phase : Phase}

/-- A text that does not end with a blank. -/
def Firm (cs : List Char) : Prop := ∀ c ∈ cs.getLast?, ¬ isBlank c

/-- The same scanner with a line break and more text behind. -/
def followed (text : List Char) (s : Scanner) : Scanner := s.extend ('\n' :: text)

@[simp] theorem followed_rest : (s.followed text).rest = s.rest ++ '\n' :: text := rfl

@[simp] theorem followed_lexeme : (s.followed text).lexeme = s.lexeme := rfl

/-- What is left of a firm text is firm. -/
theorem stable_firm : Stable fun s => Firm s.rest where
  read h n := by
    intro c hc
    rw [read_rest, List.getLast?_drop] at hc
    split_ifs at hc
    · cases hc
    · exact h c hc
  noteAt h _ _ := h
  emitValue h _ _ _ := h
  skip _ h _ := h

/-! ### Reading in front of a line break -/

theorem followed_read {n : Nat} (hn : n ≤ s.rest.length) :
    (s.followed text).read n = (s.read n).followed text :=
  extend_read _ hn

theorem followed_read_one {c : Char} {cs : List Char} (hrest : s.rest = c :: cs) :
    (s.followed text).read 1 = (s.read 1).followed text :=
  followed_read (by simp [hrest])

section Characters

variable {p : Char → Bool} (hp : p '\n' = false)
include hp

theorem followed_readWhile : (s.followed text).readWhile p = (s.readWhile p).followed text := by
  have hsame : (s.rest ++ '\n' :: text).takeWhile p = s.rest.takeWhile p := by
    rw [List.takeWhile_append, List.takeWhile_cons_of_neg (by simp [hp]), List.append_nil]
    split_ifs with hall
    · exact ((List.takeWhile_prefix p).eq_of_length hall).symm
    · rfl
  rw [readWhile, followed_rest, hsame]
  exact followed_read (List.takeWhile_prefix p).length_le

theorem followed_readOne : (s.followed text).readOne p = (s.readOne p).followed text := by
  cases hrest : s.rest with
  | nil =>
    have hrest' : (s.followed text).rest = '\n' :: text := by rw [followed_rest, hrest]; rfl
    rw [readOne_nil hrest, readOne_cons hrest', if_neg (by simp [hp])]
  | cons c cs => exact extend_readOne _ hrest

theorem any_head?_followed : (s.followed text).rest.head?.any p = s.rest.head?.any p := by
  rw [followed_rest]
  cases s.rest with
  | nil => exact hp
  | cons c cs => rfl

end Characters

/-! ### Numbers in front of a line break -/

/-- A line break ends a number. -/
theorem followed_readNumber :
    (s.followed text).readNumber = s.readNumber.map (followed text) id := by
  have hrest : (s.followed text).rest = s.rest ++ '\n' :: text := followed_rest
  obtain ⟨⟨n, hn, -, hread, hread'⟩, hsound⟩ :=
    agree_readNumber hrest (endsNumber_feed text) fun hfeed => absurd hfeed (by simp)
  refine Prod.ext ?_ hsound.symm
  rw [hread', Prod.map_fst, hread]
  exact followed_read hn

/-- Blanks that are not all of a firm text end within it. -/
theorem followed_readBlanks {c : Char} {cs : List Char} (hrest : s.rest = c :: cs)
    (hfirm : Firm s.rest) :
    (s.followed text).readWhile isBlank = (s.readWhile isBlank).followed text := by
  have hsame : (s.rest ++ '\n' :: text).takeWhile isBlank = s.rest.takeWhile isBlank := by
    rw [List.takeWhile_append, if_neg]
    intro hall
    have hblank : s.rest.takeWhile isBlank = s.rest :=
      (List.takeWhile_prefix isBlank).eq_of_length hall
    have hne : s.rest ≠ [] := by simp [hrest]
    have hlast : s.rest.getLast hne ∈ s.rest.takeWhile isBlank := by
      rw [hblank]
      exact List.getLast_mem hne
    exact hfirm _ (List.getLast?_eq_some_getLast hne) (List.mem_takeWhile_imp hlast)
  rw [readWhile, followed_rest, hsame]
  exact followed_read (List.takeWhile_prefix _).length_le

/-! ### Steps in front of a line break -/

/-- A step without a fault is the same with a line break and more text behind. -/
def Splits (text : List Char) (next next' : Phase × Scanner) : Prop :=
  next.2.fault = none → next' = next.map id (followed text)

theorem splits_of_eq {next next' : Phase × Scanner} (h : next' = next.map id (followed text)) :
    Splits text next next' :=
  fun _ => h

theorem splits_quoted {c : Char} {cs : List Char} (hrest : s.rest = c :: cs) (quote : Char) :
    Splits text (.root, s.readQuoted quote) (.root, (s.followed text).readQuoted quote) := by
  intro hfault
  obtain ⟨-, -, -, hspoiled⟩ := s.readQuoted_spec quote
  rcases Quoted.readFrom_append quote (s.read 1).here 0 (s.read 1).rest ('\n' :: text) with
    hends | ⟨hopen, -, -⟩
  · exact congrArg (Phase.root, ·) (extend_readQuoted hrest quote hends)
  · exact absurd hfault (hspoiled hopen)

theorem splits_raw {c : Char} {cs : List Char} (hrest : s.rest = c :: cs) :
    Splits text (.root, s.readRaw) (.root, (s.followed text).readRaw) := by
  intro hfault
  rcases Nat.lt_or_ge ((s.read 1).rest.takeWhile (· != '\x60')).length (s.read 1).rest.length with
    hlt | hge
  · exact congrArg (Phase.root, ·) (extend_readRaw hrest hlt)
  · rw [readRaw, if_neg (by omega)] at hfault
    exact absurd hfault (fault_note_ne_none _ _)

theorem splits_root {c : Char} {cs : List Char} (hrest : s.rest = c :: cs) (hfirm : Firm s.rest) :
    Splits text (s.stepRoot c) ((s.followed text).stepRoot c) := by
  have hone : (s.followed text).read 1 = (s.read 1).followed text := followed_read_one hrest
  have htwo : ∀ p : Char → Bool, p '\n' = false →
      ((s.read 1).followed text).readOne p = ((s.read 1).readOne p).followed text :=
    fun p hp => followed_readOne hp
  -- both runs stand at the same character, so they make the same choices
  unfold stepRoot
  rw [hone, followed_readBlanks hrest hfirm, htwo isOperatorTail (by decide)]
  refine rel_ite (fun _ => splits_of_eq rfl) fun _ => ?_
  refine rel_ite (fun _ => splits_quoted hrest c) fun _ => ?_
  refine rel_ite (fun _ => splits_raw hrest) fun _ => ?_
  refine rel_ite (fun _ => splits_of_eq rfl) fun _ => ?_
  refine rel_ite (fun _ => splits_of_eq rfl) fun _ => ?_
  refine rel_ite (fun _ => splits_of_eq rfl) fun _ => ?_
  refine rel_ite (fun _ => splits_of_eq rfl) fun _ => ?_
  refine rel_ite (fun hpair => splits_of_eq ?_) fun _ => ?_
  · have hfeed : ('\n' == c) = false := by
      refine beq_false_of_ne ?_
      rintro rfl
      exact absurd hpair (by decide)
    rw [htwo _ hfeed]
    rfl
  refine rel_ite (fun _ => splits_of_eq rfl) fun _ => ?_
  refine rel_ite (fun _ => splits_of_eq rfl) fun _ => ?_
  refine rel_ite (fun _ => splits_of_eq rfl) fun _ => ?_
  refine rel_ite (fun _ => splits_of_eq rfl) fun _ => ?_
  exact rel_ite (fun _ => splits_of_eq rfl) fun _ => splits_of_eq rfl

theorem splits_slash : Splits text (s.step .slash) ((s.followed text).step .slash) := by
  refine splits_of_eq ?_
  cases hrest : s.rest with
  | nil => simp only [step, followed_rest, hrest]; rfl
  | cons c cs => exact extend_slash hrest _

theorem splits_blockComment :
    Splits text (s.step .blockComment) ((s.followed text).step .blockComment) := by
  intro hfault
  rcases blockComment_append s.rest ('\n' :: text) with ⟨heq, hle⟩ | ⟨hopen, -, -⟩
  · exact extend_blockComment heq hle
  · simp only [step, hopen] at hfault
    exact absurd hfault (fault_note_ne_none _ _)

/-- **The step lemma.**  A step without a fault is the same with a line break and more text behind. -/
theorem splits_step (hr : Ready phase s) (hp : phase ≠ .done) (hnot : phase ≠ .not)
    (hrest : phase = .root → s.rest ≠ []) (hfirm : Firm s.rest) :
    Splits text (s.step phase) ((s.followed text).step phase) := by
  cases phase with
  | done => exact absurd rfl hp
  | not => exact absurd rfl hnot
  | root =>
    obtain ⟨c, cs, hcons⟩ := List.exists_cons_of_ne_nil (hrest rfl)
    simp only [step, followed_rest, hcons, List.cons_append]
    exact splits_root hcons hfirm
  | number =>
    refine splits_of_eq ?_
    simp only [step, followed_readNumber, Prod.map, id, followed_lexeme]
    split_ifs
    · rfl
    · rfl
  | dot =>
    obtain ⟨-, cs, hcons⟩ := hr
    refine splits_of_eq ?_
    simp only [step, followed_read_one hcons]
    rw [any_head?_followed (by decide), followed_readOne (by decide)]
    split_ifs
    · rfl
    · rfl
  | identifier =>
    refine splits_of_eq ?_
    rw [step_identifier, step_identifier, followed_readWhile (by decide)]
    exact extend_closeWord _ _
  | questionMark =>
    refine splits_of_eq ?_
    simp only [step]
    rw [followed_readOne (by decide)]
    rfl
  | slash => exact splits_slash
  | lineComment =>
    refine splits_of_eq ?_
    simp only [step]
    rw [followed_readWhile (by decide)]
    rfl
  | blockComment => exact splits_blockComment
  | pointer =>
    have hname : ((s.readOne (· == '#')).followed text).emit .operator =
        ((s.readOne (· == '#')).emit .operator).followed text := rfl
    refine splits_of_eq ?_
    rw [step_pointer, step_pointer, followed_readOne (by decide), hname,
      followed_readWhile (by decide)]
    exact congrArg (Phase.root, ·) (extend_closeName _ _)

/-! ### Runs up to a line break -/

/-- A run without a fault has none on its way. -/
theorem fault_of_finish (hr : Ready phase s) (hp : phase ≠ .done)
    (hfault : (finish phase s).fault = none) : s.fault = none := by
  by_contra hfaulty
  obtain ⟨u, hu, -, -, hfinish⟩ := stable_faulty.finish hr hp hfaulty
  rw [hfinish] at hfault
  exact hu hfault

/-- **The run lemma.**  The run without a fault over a firm text comes to the end of the text in the
same state with a line break and more text behind. -/
theorem exists_finish_followed {I : Scanner → Prop} (hI : Stable I) (hs : I s)
    (hfirm : Firm s.rest) (hr : Ready phase s) (hp : phase ≠ .done)
    (hfault : (finish phase s).fault = none) (text : List Char) :
    ∃ u, I u ∧ u.lexeme = [] ∧ u.rest = [] ∧ finish phase s = u.emit .eof ∧
      finish phase (s.followed text) = finish .root (u.followed text) := by
  induction hm : measure phase s using Nat.strongRecOn generalizing phase s with
  | ind m ih =>
    have hr' : Ready phase (s.followed text) := Ready.extend hr hp _
    by_cases hnot : phase = .not
    · -- the word `not` is an operator, and what is behind it is read as it always is
      subst hnot
      have hne : s.lexeme ≠ [] := by
        rw [show s.lexeme = _ from hr]
        decide
      rw [finish_not hr] at hfault ⊢
      rw [finish_not (s := s.followed text) hr]
      exact ih _ (by rw [← hm]; exact Nat.lt_succ_self _) (hI.emit hs hne (by decide)) hfirm rfl
        nofun hfault rfl
    by_cases hend : phase = .root ∧ s.rest = []
    · obtain ⟨rfl, hrest⟩ := hend
      exact ⟨s, hs, hr, hrest, finish_end hr hrest, rfl⟩
    · obtain ⟨hready, hnear⟩ := step_nearer hr hp
      have hne := step_ne_done hp fun hroot hrest => hend ⟨hroot, hrest⟩
      rw [finish_step hr hp] at hfault ⊢
      have hsplits : (s.followed text).step phase = (s.step phase).map id (followed text) :=
        splits_step hr hp hnot (fun hroot hrest => hend ⟨hroot, hrest⟩) hfirm
          (fault_of_finish hready hne hfault)
      rw [finish_step hr' hp, hsplits]
      refine ih _ (hm ▸ hnear) ?_ ?_ hready hne hfault rfl
      · exact (kept_of_ne_done hne).1 (hI.step hr hp ((kept_of_ne_done hp).2 hs))
      · exact (kept_of_ne_done hne).1 (stable_firm.step hr hp ((kept_of_ne_done hp).2 hfirm))

/-- At the end of a text the next token would stand behind all of it. -/
theorem start_of_tiled {source : List Char} (h : Tiled source u) (hlexeme : u.lexeme = [])
    (hrest : u.rest = []) : u.start = Location.origin.advance source ∧ u.here = u.start := by
  obtain ⟨segments, hcut⟩ := h
  refine ⟨?_, ?_⟩
  · rw [hcut.start, hcut.spans_eq hlexeme hrest]
  · rw [hcut.here, hlexeme, Location.advance_nil]

/-- **At the break** the line feed becomes a token, and the run goes on as the one over the second
text does, further down. -/
theorem finish_break {source : List Char} (htiled : Tiled source u) (hlexeme : u.lexeme = [])
    (hrest : u.rest = []) (hfault : u.fault = none) (hstarts : ∀ c ∈ text.head?, ¬ isBlank c) :
    finish .root (u.followed text) = (finish .root { rest := text }).below (1 + source.count '\n')
      (Token.ofText .whitespace "\n" u.start :: u.tokens) := by
  obtain ⟨hstart, hhere⟩ := start_of_tiled htiled hlexeme hrest
  have hafter : u.start.after '\n' = Location.origin.down (1 + source.count '\n') := by
    rw [Location.after, if_pos rfl, hstart, Location.line_advance, Nat.add_assoc,
      Nat.add_comm (source.count '\n')]
    rfl
  have htake : ('\n' :: text).takeWhile isBlank = ['\n'] := by
    rw [List.takeWhile_cons_of_pos (by decide)]
    cases text with
    | nil => rfl
    | cons c cs => rw [List.takeWhile_cons_of_neg (hstarts c rfl)]
  have hblanks : (u.followed text).emitBlanks = ({ rest := text } : Scanner).below
      (1 + source.count '\n') (Token.ofText .whitespace "\n" u.start :: u.tokens) := by
    obtain ⟨rest, lexeme, start, here, tokens, fault⟩ := u
    subst hlexeme hrest hfault
    obtain rfl : here = start := hhere
    rw [emitBlanks, readWhile, followed_rest, List.nil_append, htake]
    simp only [below, ← hafter]
    rfl
  rw [finish_emitBlanks (s := u.followed text) hlexeme, hblanks, below_finish]

end Scanner

/-- **Scanning is a homomorphism at line breaks.**  The first text has no fault, and neither text
has a blank at the break.  Then the joined text has the tokens of the first one up to its end token,
a token for the line feed in the place of that, and the tokens and the fault of the second text,
moved down by one line and by each line feed of the first text. -/
theorem scan_append_feed {first second : String} (hfault : (scan first).fault = none)
    (hends : ∀ c ∈ first.toList.getLast?, ¬ Text.isBlank c)
    (hstarts : ∀ c ∈ second.toList.head?, ¬ Text.isBlank c) :
    ∃ front, (scan first).tokens = front ++ [Token.endOf first.toList] ∧
      scan (first ++ "\n" ++ second) =
        ⟨front ++ Token.ofText .whitespace "\n" (Token.endOf first.toList).location ::
            (scan second).tokens.map (Token.down (1 + first.toList.count '\n')),
          (scan second).fault.map (Located.down (1 + first.toList.count '\n'))⟩ := by
  have hready : Scanner.Ready .root { rest := first.toList } := rfl
  rw [scan, Scanner.scanChars_eq] at hfault
  obtain ⟨u, htiled, hlexeme, hrest, hfirst, hjoined⟩ :=
    Scanner.exists_finish_followed (Scanner.stable_tiled first.toList) ⟨[], Scanner.cut_init _⟩
      hends hready (by decide) hfault second.toList
  have hsound : u.fault = none := by
    rw [hfirst] at hfault
    exact hfault
  have hstart := (Scanner.start_of_tiled htiled hlexeme hrest).1
  have htext : (first ++ "\n" ++ second).toList = first.toList ++ '\n' :: second.toList := by
    simp
  have hbreak : Scanner.finish .root { rest := first.toList ++ '\n' :: second.toList } = _ :=
    hjoined.trans (Scanner.finish_break htiled hlexeme hrest hsound hstarts)
  refine ⟨u.tokens.reverse, ?_, ?_⟩
  · rw [scan, Scanner.scanChars_eq, hfirst]
    simp [Scanner.emit, Scanner.emitValue, Scanner.skip, hlexeme, hstart, Token.endOf]
  · rw [scan, Scanner.scanChars_eq, htext, hbreak, scan, Scanner.scanChars_eq, hstart]
    simp [Scanner.below, Token.endOf]

/-- A negation across the break, and a fault behind it. -/
theorem scan_append_feed_negation :
    let first := "a\nnot"
    let second := "in 'b"
    (scan first).fault = none ∧ (∀ c ∈ first.toList.getLast?, ¬ Text.isBlank c) ∧
      (∀ c ∈ second.toList.head?, ¬ Text.isBlank c) ∧
      scan (first ++ "\n" ++ second) =
        ⟨[.ofText .identifier "a" ⟨1, 0⟩, .ofText .whitespace "\n" ⟨1, 1⟩,
            .ofText .operator "not" ⟨2, 0⟩, .ofText .whitespace "\n" ⟨2, 3⟩,
            .ofText .operator "in" ⟨3, 0⟩, .ofText .whitespace " " ⟨3, 2⟩,
            { kind := .string, value := "b", location := ⟨3, 3⟩, width := 2 },
            .ofText .eof "" ⟨3, 5⟩],
          some ⟨.unterminatedLiteral, ⟨3, 3⟩⟩⟩ := by
  intro first second
  have hfault : (scan first).fault = none := by decide +kernel
  have hends : ∀ c ∈ first.toList.getLast?, ¬ Text.isBlank c := by
    have hlast : first.toList.getLast? = some 't' := by decide
    rw [hlast]
    rintro c ⟨⟩
    decide
  have hstarts : ∀ c ∈ second.toList.head?, ¬ Text.isBlank c := by
    have hhead : second.toList.head? = some 'i' := by decide
    rw [hhead]
    rintro c ⟨⟩
    decide
  have htokens : (scan first).tokens =
      [.ofText .identifier "a" ⟨1, 0⟩, .ofText .whitespace "\n" ⟨1, 1⟩,
        .ofText .operator "not" ⟨2, 0⟩] ++ [Token.endOf first.toList] := by decide +kernel
  obtain ⟨front, hfront, hjoined⟩ := scan_append_feed hfault hends hstarts
  rw [htokens] at hfront
  refine ⟨hfault, hends, hstarts, ?_⟩
  rw [hjoined, ← List.append_cancel_right hfront]
  decide +kernel

end FilterLang
