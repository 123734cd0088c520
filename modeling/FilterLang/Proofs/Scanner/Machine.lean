import FilterLang.Proofs.Text.Classes
import FilterLang.Token.Scanner
import Mathlib.Tactic.NthRewrite
import Mathlib.Tactic.SplitIfs

/-!
# The scanner runs to its end

The scanner is a machine with a bounded number of steps.  This file says when a phase is entered,
shows that every step brings the end nearer, and frees the result of a run from its number of steps.

* `read_read` and the lemmas before it — what the reading operations leave of a scanner.
* `Ready` — the condition under which each phase is entered.
* `step_nearer` — a step leads from a ready phase to a ready phase with a smaller `measure`.
* `finish` and `finish_step` — the scanner at the end of a run, without a number of steps: it is
  the same from a phase as from the step behind it.
* `finish_induct` — what every step keeps holds at the end.
* `scanChars_eq` — a scan is the run from the start of the text to its end.
-/

namespace FilterLang.Scanner

variable {s : Scanner} {phase : Phase}

/-! ### What the operations leave -/

@[simp] theorem read_rest (n : Nat) : (s.read n).rest = s.rest.drop n := rfl

@[simp] theorem read_lexeme (n : Nat) : (s.read n).lexeme = s.lexeme ++ s.rest.take n := rfl

@[simp] theorem read_start (n : Nat) : (s.read n).start = s.start := rfl

@[simp] theorem read_here (n : Nat) : (s.read n).here = s.here.advance (s.rest.take n) := rfl

@[simp] theorem read_tokens (n : Nat) : (s.read n).tokens = s.tokens := rfl

@[simp] theorem read_fault (n : Nat) : (s.read n).fault = s.fault := rfl

theorem read_zero : s.read 0 = s := by
  simp [read]

/-- Reading twice is reading at once. -/
theorem read_read (m n : Nat) : (s.read m).read n = s.read (m + n) := by
  simp [read, List.take_add, ← Location.advance_append]

theorem readWhile_lexeme (p : Char → Bool) :
    (s.readWhile p).lexeme = s.lexeme ++ s.rest.takeWhile p := by
  rw [readWhile, read_lexeme, List.prefix_iff_eq_take.1 (List.takeWhile_prefix p)]
  simp

theorem readWhile_rest (p : Char → Bool) : (s.readWhile p).rest = s.rest.dropWhile p := by
  have htake := List.prefix_iff_eq_take.1 (List.takeWhile_prefix p (l := s.rest))
  have h : s.rest.takeWhile p ++ s.rest.dropWhile p
      = s.rest.take (s.rest.takeWhile p).length ++ (s.readWhile p).rest := by
    rw [List.takeWhile_append_dropWhile, readWhile, read_rest, List.take_append_drop]
  rw [← htake] at h
  exact (List.append_cancel_left h).symm

theorem length_readWhile_rest (p : Char → Bool) :
    (s.rest.takeWhile p).length + (s.readWhile p).rest.length = s.rest.length := by
  rw [readWhile_rest, ← List.length_append, List.takeWhile_append_dropWhile]

theorem readOne_cons {p : Char → Bool} {c : Char} {cs : List Char} (h : s.rest = c :: cs) :
    s.readOne p = if p c then s.read 1 else s := by
  simp only [readOne, h]

theorem readOne_nil {p : Char → Bool} (h : s.rest = []) : s.readOne p = s := by
  simp only [readOne, h]

/-- Reading one character, or none, is reading. -/
theorem readOne_eq_read (p : Char → Bool) : ∃ n, s.readOne p = s.read n := by
  cases h : s.rest with
  | nil => exact ⟨0, by rw [readOne_nil h, read_zero]⟩
  | cons c cs =>
    rw [readOne_cons h]
    by_cases hc : p c
    · exact ⟨1, if_pos hc⟩
    · exact ⟨0, by rw [if_neg hc, read_zero]⟩

@[simp] theorem skip_rest : s.skip.rest = s.rest := rfl

@[simp] theorem skip_lexeme : s.skip.lexeme = [] := rfl

@[simp] theorem skip_fault : s.skip.fault = s.fault := rfl

@[simp] theorem emitValue_rest (kind : TokenKind) (value : List Char) :
    (s.emitValue kind value).rest = s.rest := rfl

@[simp] theorem emit_rest (kind : TokenKind) : (s.emit kind).rest = s.rest := rfl

@[simp] theorem emit_fault (kind : TokenKind) : (s.emit kind).fault = s.fault := rfl

@[simp] theorem note_lexeme (fault : ScanFault) : (s.note fault).lexeme = s.lexeme := rfl

/-! ### Numbers -/

/-- A base mark takes two characters; without one the base is ten. -/
theorem readBase_cases : (∃ base, s.readBase = (s.read 2, base)) ∨ s.readBase = (s, 10) := by
  unfold readBase
  split
  · split
    · exact .inl ⟨_, rfl⟩
    · exact .inr rfl
  · exact .inr rfl

theorem readBase_eq_read : ∃ n, s.readBase.1 = s.read n := by
  rcases s.readBase_cases with ⟨base, h⟩ | h
  · exact ⟨2, by rw [h]⟩
  · exact ⟨0, by rw [h, read_zero]⟩

theorem readExponent_eq_read (base : Nat) : ∃ n, s.readExponent base = s.read n := by
  unfold readExponent
  split
  · split_ifs with h
    · obtain ⟨n, hn⟩ := (s.read 1).readOne_eq_read fun c => c == '+' || c == '-'
      exact ⟨_, by rw [hn, read_read, readWhile, read_read]⟩
    · exact ⟨0, read_zero.symm⟩
  · exact ⟨0, read_zero.symm⟩

/-- Reads what follows the first digits of a number: a fraction and an exponent. -/
def readFraction (base : Nat) (s : Scanner) : Scanner × Bool :=
  match s.rest with
  | '.' :: '.' :: _ => (s, true)
  | rest =>
    let s := if rest.head? == some '.' then (s.read 1).readWhile (isNumeralChar base) else s
    let s := s.readExponent base
    if s.rest.head?.any Text.isWordChar then (s.read 1, false) else (s, true)

/-- A number is a base mark, digits, and a fraction. -/
theorem readNumber_eq : s.readNumber
    = (s.readBase.1.readWhile (isNumeralChar s.readBase.2)).readFraction s.readBase.2 := rfl

theorem readFraction_eq_read (base : Nat) : ∃ n, (s.readFraction base).1 = s.read n := by
  unfold readFraction
  split
  · exact ⟨0, read_zero.symm⟩
  · obtain ⟨m, hm⟩ : ∃ m, (if s.rest.head? == some '.' then
        (s.read 1).readWhile (isNumeralChar base) else s) = s.read m := by
      split_ifs
      · exact ⟨_, by rw [readWhile, read_read]⟩
      · exact ⟨0, read_zero.symm⟩
    obtain ⟨n, hn⟩ := (s.read m).readExponent_eq_read base
    dsimp only
    rw [hm, hn, read_read]
    split_ifs
    · exact ⟨_, by rw [read_read]⟩
    · exact ⟨_, rfl⟩

theorem readNumber_eq_read : ∃ n, s.readNumber.1 = s.read n := by
  obtain ⟨m, hm⟩ := s.readBase_eq_read
  obtain ⟨n, hn⟩ :=
    (s.readBase.1.readWhile (isNumeralChar s.readBase.2)).readFraction_eq_read s.readBase.2
  exact ⟨_, by rw [readNumber_eq, hn, hm, readWhile, read_read, read_read]⟩

/-- A number that starts with a digit takes it along: in the mark of its base or as its first
digit. -/
theorem length_readNumber_rest {c : Char} {cs : List Char} (h : s.rest = c :: cs)
    (hc : c.isDigit) : s.readNumber.1.rest.length ≤ cs.length := by
  obtain ⟨n, hn⟩ :=
    (s.readBase.1.readWhile (isNumeralChar s.readBase.2)).readFraction_eq_read s.readBase.2
  have hbase : (s.readBase.1.readWhile (isNumeralChar s.readBase.2)).rest.length ≤ cs.length := by
    rw [readWhile_rest]
    rcases s.readBase_cases with ⟨base, hb⟩ | hb
    · rw [hb]
      refine Nat.le_trans (List.dropWhile_suffix _).length_le ?_
      simp [h]
    · have hten : isNumeralChar 10 c := by
        simp [isNumeralChar, Text.isDigitOf_ten, hc]
      rw [hb, h, List.dropWhile_cons_of_pos hten]
      exact (List.dropWhile_suffix _).length_le
  rw [readNumber_eq, hn, read_rest, List.length_drop]
  omega

/-! ### Quoted text and comments -/

theorem length_readQuoted_rest {quote c : Char} {cs : List Char} (h : s.rest = c :: cs) :
    (s.readQuoted quote).rest.length ≤ cs.length := by
  have hrest : ∃ n, (s.readQuoted quote).rest = (s.read 1).rest.drop n := by
    unfold readQuoted
    dsimp only
    simp only [emitValue_rest]
    split_ifs <;> split <;> exact ⟨_, rfl⟩
  obtain ⟨n, hn⟩ := hrest
  rw [hn, read_rest, h, List.length_drop, List.drop_one, List.tail_cons]
  omega

theorem readRaw_lexeme : s.readRaw.lexeme = [] := by
  unfold readRaw
  dsimp only
  split_ifs
  · rfl
  · rfl

theorem length_readRaw_rest {c : Char} {cs : List Char} (h : s.rest = c :: cs) :
    s.readRaw.rest.length ≤ cs.length := by
  have hrest : ∃ n, s.readRaw.rest = (s.read 1).rest.drop n := by
    unfold readRaw
    dsimp only
    split_ifs
    · exact ⟨_, rfl⟩
    · exact ⟨_, rfl⟩
  obtain ⟨n, hn⟩ := hrest
  rw [hn, read_rest, h, List.length_drop, List.drop_one, List.tail_cons]
  omega

/-! ### The word `not` -/

/-- Makes a token of the blanks ahead, if there are any. -/
def emitBlanks (s : Scanner) : Scanner :=
  let s := s.readWhile Text.isBlank
  if s.lexeme.isEmpty then s else s.emit .whitespace

/-- Makes a token of the word ahead, if it is a relation that can be negated. -/
def emitNegatable (s : Scanner) : Scanner :=
  if Operator.isNegatable (String.ofList (s.rest.takeWhile Text.isWordChar)) then
    (s.readWhile Text.isWordChar).emit .operator
  else s

theorem stepNot_eq (s : Scanner) : s.stepNot = (s.emit .operator).emitBlanks.emitNegatable := rfl

theorem emitBlanks_rest (s : Scanner) :
    s.emitBlanks.lexeme = [] ∧ s.emitBlanks.rest = s.rest.dropWhile Text.isBlank := by
  unfold emitBlanks
  dsimp only
  split_ifs with hempty
  · exact ⟨List.isEmpty_iff.1 hempty, readWhile_rest _⟩
  · exact ⟨rfl, readWhile_rest _⟩

/-! ### The moves at a character -/

/-- A character that starts no token and no comment. -/
def isStray (c : Char) : Bool :=
  !(Text.isBlank c || Text.isWordChar c || "'\"\x60?/#|:.".toList.contains c || isBracket c
    || isSingleOperator c || isDoubleOperator c)

/-- The ways to go on at a character `c`. -/
inductive RootMove (s : Scanner) (c : Char) : Phase × Scanner → Prop where
  | blank : Text.isBlank c →
      RootMove s c (.root, (s.readWhile Text.isBlank).emit .whitespace)
  | quoted : c = '\'' ∨ c = '"' → RootMove s c (.root, s.readQuoted c)
  | raw : c = '\x60' → RootMove s c (.root, s.readRaw)
  | number : c.isDigit → RootMove s c (.number, s)
  | questionMark : c = '?' → RootMove s c (.questionMark, s.read 1)
  | slash : c = '/' → RootMove s c (.slash, s.read 1)
  | pointer : c = '#' → RootMove s c (.pointer, s.read 1)
  | pair : c = '|' ∨ c = ':' → RootMove s c (.root, ((s.read 1).readOne (· == c)).emit .operator)
  | bracket : isBracket c → RootMove s c (.root, (s.read 1).emit .bracket)
  | single : isSingleOperator c → RootMove s c (.root, (s.read 1).emit .operator)
  | double : isDoubleOperator c →
      RootMove s c (.root, ((s.read 1).readOne isOperatorTail).emit .operator)
  | dot : c = '.' → RootMove s c (.dot, s)
  | word : Text.isWordChar c → RootMove s c (.identifier, s)
  | stray : isStray c →
      RootMove s c (.root, ((s.read 1).note (.unrecognizedCharacter c)).skip)

theorem stepRoot_move (s : Scanner) (c : Char) : RootMove s c (s.stepRoot c) := by
  unfold stepRoot
  refine iteInduction .blank fun hblank => ?_
  refine iteInduction (fun h => .quoted (by simpa using h)) fun hquote => ?_
  refine iteInduction (fun h => .raw (eq_of_beq h)) fun hraw => ?_
  refine iteInduction .number fun _ => ?_
  refine iteInduction (fun h => .questionMark (eq_of_beq h)) fun hmark => ?_
  refine iteInduction (fun h => .slash (eq_of_beq h)) fun hslash => ?_
  refine iteInduction (fun h => .pointer (eq_of_beq h)) fun hpointer => ?_
  refine iteInduction (fun h => .pair (by simpa using h)) fun hpair => ?_
  refine iteInduction .bracket fun hbracket => ?_
  refine iteInduction .single fun hsingle => ?_
  refine iteInduction .double fun hdouble => ?_
  refine iteInduction (fun h => .dot (eq_of_beq h)) fun hdot => ?_
  refine iteInduction .word fun hword => .stray ?_
  simp_all [isStray]

/-! ### Every step brings the end nearer -/

/-- The condition under which a phase is entered: what has been read of the next token, and for
the phases that go on with unread characters, which of them comes first. -/
def Ready : Phase → Scanner → Prop
  | .root, s => s.lexeme = []
  | .number, s => (s.lexeme = [] ∨ s.lexeme = ['.']) ∧ ∃ c cs, s.rest = c :: cs ∧ c.isDigit
  | .dot, s => s.lexeme = [] ∧ ∃ cs, s.rest = '.' :: cs
  | .identifier, s => s.lexeme = [] ∧ ∃ c cs, s.rest = c :: cs ∧ Text.isWordChar c
  | .not, s => s.lexeme = "not".toList
  | .questionMark, s => s.lexeme = ['?']
  | .slash, s => s.lexeme = ['/']
  | .lineComment, s => s.lexeme = ['/', '/']
  | .blockComment, s => s.lexeme = ['/', '*']
  | .pointer, s => s.lexeme = ['#']
  | .done, s => s.lexeme = [] ∧ s.rest = []

/-- How many steps a phase may take without reading. -/
def Phase.weight : Phase → Nat
  | .number | .dot | .identifier | .done => 0
  | .root => 1
  | .not | .questionMark | .slash | .lineComment | .blockComment | .pointer => 2

/-- A bound for the number of steps to the end. -/
def measure (phase : Phase) (s : Scanner) : Nat := 2 * s.rest.length + phase.weight

theorem measure_root (s : Scanner) : measure .root s = 2 * s.rest.length + 1 := rfl

/-- What a step has to leave: a ready phase that is nearer to the end. -/
def Nearer (bound : Nat) (next : Phase × Scanner) : Prop :=
  Ready next.1 next.2 ∧ measure next.1 next.2 < bound

theorem nearer_of_root {bound : Nat} {t : Scanner} (hl : t.lexeme = [])
    (hr : 2 * t.rest.length + 1 < bound) : Nearer bound (.root, t) :=
  ⟨hl, hr⟩

/-- A token or a comment that takes the character `c` leaves the machine nearer to its end. -/
theorem nearer_root {c : Char} {cs : List Char} {t : Scanner} (hr : s.rest = c :: cs)
    (hl : t.lexeme = []) (ht : t.rest.length ≤ cs.length) :
    Nearer (measure .root s) (.root, t) := by
  refine nearer_of_root hl ?_
  rw [measure_root, hr, List.length_cons]
  omega

theorem stepRoot_nearer {c : Char} {cs : List Char} (hl : s.lexeme = []) (hr : s.rest = c :: cs) :
    Nearer (measure .root s) (s.stepRoot c) := by
  have h1 : (s.read 1).rest = cs := by rw [read_rest, hr, List.drop_one, List.tail_cons]
  have hlex : (s.read 1).lexeme = [c] := by simp [hl, hr]
  have hopen : ∀ phase : Phase, phase.weight ≤ 2 → measure phase (s.read 1) < measure .root s := by
    intro phase hw
    rw [measure_root, measure, h1, hr, List.length_cons]
    omega
  have hturn : ∀ phase : Phase, phase.weight = 0 → measure phase s < measure .root s := by
    intro phase hw
    rw [measure_root, measure, hw]
    omega
  have hone : ∀ p, ((s.read 1).readOne p).rest.length ≤ cs.length := by
    intro p
    obtain ⟨n, hn⟩ := (s.read 1).readOne_eq_read p
    rw [hn, read_rest, h1, List.length_drop]
    omega
  have hmove := s.stepRoot_move c
  generalize s.stepRoot c = next at hmove ⊢
  cases hmove with
  | blank h =>
    refine nearer_root hr rfl ?_
    rw [emit_rest, readWhile_rest, hr, List.dropWhile_cons_of_pos h]
    exact (List.dropWhile_suffix _).length_le
  | quoted h => exact nearer_root hr rfl (length_readQuoted_rest hr)
  | raw h => exact nearer_root hr (readRaw_lexeme) (length_readRaw_rest hr)
  | number h => exact ⟨⟨.inl hl, c, cs, hr, h⟩, hturn .number rfl⟩
  | questionMark h => exact ⟨hlex.trans (by rw [h]), hopen .questionMark (Nat.le_refl _)⟩
  | slash h => exact ⟨hlex.trans (by rw [h]), hopen .slash (Nat.le_refl _)⟩
  | pointer h => exact ⟨hlex.trans (by rw [h]), hopen .pointer (Nat.le_refl _)⟩
  | pair h => exact nearer_root hr rfl (hone _)
  | bracket h => exact nearer_root hr rfl (Nat.le_of_eq (congrArg _ h1))
  | single h => exact nearer_root hr rfl (Nat.le_of_eq (congrArg _ h1))
  | double h => exact nearer_root hr rfl (hone _)
  | dot h => exact ⟨⟨hl, cs, by rw [hr, h]⟩, hturn .dot rfl⟩
  | word h => exact ⟨⟨hl, c, cs, hr, h⟩, hturn .identifier rfl⟩
  | stray h => exact nearer_root hr rfl (Nat.le_of_eq (congrArg _ h1))

theorem stepNot_rest (s : Scanner) :
    s.stepNot.lexeme = [] ∧ s.stepNot.rest.length ≤ s.rest.length := by
  obtain ⟨hl, hrest⟩ := (s.emit .operator).emitBlanks_rest
  have hlen : (s.emit .operator).emitBlanks.rest.length ≤ s.rest.length := by
    rw [hrest]
    exact (List.dropWhile_suffix _).length_le
  rw [stepNot_eq, emitNegatable]
  split_ifs
  · refine ⟨rfl, ?_⟩
    rw [emit_rest, readWhile_rest]
    exact Nat.le_trans (List.dropWhile_suffix _).length_le hlen
  · exact ⟨hl, hlen⟩

theorem dot_nearer (h : Ready .dot s) : Nearer (measure .dot s) (s.step .dot) := by
  obtain ⟨hl, cs, hr⟩ := h
  have h1 : (s.read 1).rest = cs := by rw [read_rest, hr, List.drop_one, List.tail_cons]
  have hm : measure .dot s = 2 * cs.length + 2 := by
    simp only [measure, Phase.weight, hr, List.length_cons]
    omega
  simp only [step, h1, hm]
  split_ifs with hd
  · refine ⟨⟨.inr (by simp [hl, hr]), ?_⟩, ?_⟩
    · cases cs with
      | nil => simp at hd
      | cons d ds => exact ⟨d, ds, h1, by simpa using hd⟩
    · show 2 * (s.read 1).rest.length + 0 < _
      rw [h1]
      omega
  · refine ⟨rfl, ?_⟩
    obtain ⟨n, hn⟩ := (s.read 1).readOne_eq_read (· == '.')
    rw [measure_root, emit_rest, hn, read_rest, h1, List.length_drop]
    omega

theorem identifier_nearer (h : Ready .identifier s) :
    Nearer (measure .identifier s) (s.step .identifier) := by
  obtain ⟨hl, c, cs, hr, hc⟩ := h
  have hlen := s.length_readWhile_rest Text.isWordChar
  have hword : 0 < (s.rest.takeWhile Text.isWordChar).length := by
    rw [hr, List.takeWhile_cons_of_pos hc]
    exact Nat.succ_pos _
  have hm : measure .identifier s = 2 * s.rest.length := rfl
  simp only [step, hm]
  split_ifs with hnot hop
  · have hlex : (s.readWhile Text.isWordChar).lexeme = "not".toList := by
      rw [← eq_of_beq hnot, String.toList_ofList]
    refine ⟨hlex, ?_⟩
    -- the phase of `not` weighs two, and three characters have been read
    rw [readWhile_lexeme, hl, List.nil_append] at hlex
    rw [hlex] at hlen
    have hthree : "not".toList.length = 3 := rfl
    show 2 * (s.readWhile Text.isWordChar).rest.length + 2 < _
    omega
  · exact ⟨rfl, by rw [measure_root, emit_rest]; omega⟩
  · exact ⟨rfl, by rw [measure_root, emit_rest]; omega⟩

/-- A comment is entered with the second of its two characters. -/
theorem comment_nearer {c : Char} {cs : List Char} (h : Ready .slash s) (hr : s.rest = c :: cs)
    (hphase : phase.weight = 2) (hready : ∀ t : Scanner, t.lexeme = ['/', c] → Ready phase t) :
    Nearer (measure .slash s) (phase, s.read 1) := by
  have hlex : s.lexeme = ['/'] := h
  refine ⟨hready _ (by rw [read_lexeme, hlex, hr]; rfl), ?_⟩
  have hm : measure .slash s = 2 * s.rest.length + 2 := rfl
  rw [hm, measure, hphase, read_rest, hr, List.length_drop, List.length_cons]
  omega

theorem slash_nearer (h : Ready .slash s) : Nearer (measure .slash s) (s.step .slash) := by
  simp only [step]
  split
  · next cs hr => exact comment_nearer h hr rfl fun _ ht => ht
  · next cs hr => exact comment_nearer h hr rfl fun _ ht => ht
  · exact ⟨rfl, Nat.lt_succ_self _⟩

theorem pointer_nearer (s : Scanner) : Nearer (measure .pointer s) (s.step .pointer) := by
  obtain ⟨n, hn⟩ := s.readOne_eq_read (· == '#')
  have hlen : (((s.readOne (· == '#')).emit .operator).readWhile Text.isWordChar).rest.length
      ≤ s.rest.length := by
    rw [readWhile_rest, emit_rest, hn, read_rest]
    exact Nat.le_trans (List.dropWhile_suffix _).length_le (List.drop_suffix _ _).length_le
  have hm : measure .pointer s = 2 * s.rest.length + 2 := rfl
  simp only [step]
  split_ifs with hempty
  · exact nearer_of_root (List.isEmpty_iff.1 hempty) (by rw [hm]; omega)
  · exact nearer_of_root rfl (by rw [emit_rest, hm]; omega)

/-- **The step lemma.**  From a ready phase, a step leads to a ready phase with a smaller measure. -/
theorem step_nearer (h : Ready phase s) (hp : phase ≠ .done) :
    Nearer (measure phase s) (s.step phase) := by
  cases phase with
  | root =>
    cases hr : s.rest with
    | nil =>
      simp only [step, hr]
      exact ⟨⟨rfl, hr⟩, by simp [measure, Phase.weight, hr]⟩
    | cons c cs =>
      simp only [step, hr]
      exact stepRoot_nearer h hr
  | number =>
    obtain ⟨-, c, cs, hr, hc⟩ := h
    refine ⟨rfl, ?_⟩
    have hlen := length_readNumber_rest hr hc
    have hrest : ((s.step .number).2).rest = s.readNumber.1.rest := by
      simp only [step]
      split_ifs
      · rfl
      · rfl
    show 2 * (s.step .number).2.rest.length + 1 < 2 * s.rest.length + 0
    rw [hrest, hr, List.length_cons]
    omega
  | dot => exact dot_nearer h
  | identifier => exact identifier_nearer h
  | not =>
    obtain ⟨hl, hlen⟩ := s.stepNot_rest
    refine ⟨hl, ?_⟩
    show 2 * s.stepNot.rest.length + 1 < 2 * s.rest.length + 2
    omega
  | questionMark =>
    refine ⟨rfl, ?_⟩
    obtain ⟨n, hn⟩ := s.readOne_eq_read fun c => c == '.' || c == '?'
    show 2 * (s.readOne _).rest.length + 1 < 2 * s.rest.length + 2
    rw [hn, read_rest, List.length_drop]
    omega
  | slash => exact slash_nearer h
  | lineComment =>
    refine ⟨rfl, ?_⟩
    have hlen := (List.dropWhile_suffix (· != '\n') (l := s.rest)).length_le
    show 2 * (s.readWhile (· != '\n')).rest.length + 1 < 2 * s.rest.length + 2
    rw [readWhile_rest]
    omega
  | blockComment =>
    refine ⟨rfl, ?_⟩
    have hrest : (s.step .blockComment).2.rest = s.rest.drop (blockComment s.rest).1 := by
      simp only [step]
      split_ifs
      · rfl
      · rfl
    show 2 * (s.step .blockComment).2.rest.length + 1 < 2 * s.rest.length + 2
    rw [hrest, List.length_drop]
    omega
  | pointer => exact pointer_nearer s
  | done => exact absurd rfl hp

/-! ### Runs -/

theorem run_done (n : Nat) (s : Scanner) : run n .done s = (.done, s) := by
  cases n with
  | zero => rfl
  | succ n => exact if_pos rfl

theorem run_succ (n : Nat) (s : Scanner) (hp : phase ≠ .done) :
    run (n + 1) phase s = run n (s.step phase).1 (s.step phase).2 :=
  if_neg hp

theorem measure_pos (h : Ready phase s) (hp : phase ≠ .done) : 0 < measure phase s :=
  Nat.zero_lt_of_lt (step_nearer h hp).2

/-- **What every step keeps holds at the end**, and the end is reached within the measure. -/
theorem run_induct {motive : Phase → Scanner → Prop}
    (hstep : ∀ phase s, Ready phase s → phase ≠ .done → motive phase s →
      motive (s.step phase).1 (s.step phase).2) :
    ∀ (n : Nat) (phase : Phase) (s : Scanner), measure phase s ≤ n → Ready phase s →
      motive phase s → ∃ t, run n phase s = (.done, t) ∧ Ready .done t ∧ motive .done t := by
  intro n
  induction n with
  | zero =>
    intro phase s hn hr hm
    by_cases hp : phase = .done
    · subst hp
      exact ⟨s, rfl, hr, hm⟩
    · have := measure_pos hr hp
      omega
  | succ n ih =>
    intro phase s hn hr hm
    by_cases hp : phase = .done
    · subst hp
      exact ⟨s, run_done _ _, hr, hm⟩
    · rw [run_succ n s hp]
      have hnear := step_nearer hr hp
      exact ih _ _ (by have := hnear.2; omega) hnear.1 (hstep phase s hr hp hm)

/-- Steps behind the end change nothing. -/
theorem run_eq_run (h : Ready phase s) {m n : Nat} (hm : measure phase s ≤ m)
    (hn : measure phase s ≤ n) : run m phase s = run n phase s := by
  induction m generalizing n phase s with
  | zero =>
    by_cases hp : phase = .done
    · subst hp
      rw [run_done, run_done]
    · have := measure_pos h hp
      omega
  | succ m ih =>
    by_cases hp : phase = .done
    · subst hp
      rw [run_done, run_done]
    · have hnear := step_nearer h hp
      have hpos := measure_pos h hp
      obtain ⟨k, rfl⟩ : ∃ k, n = k + 1 := ⟨n - 1, by omega⟩
      rw [run_succ m s hp, run_succ k s hp]
      exact ih hnear.1 (by have := hnear.2; omega) (by have := hnear.2; omega)

/-- The scanner at the end of a run. -/
def finish (phase : Phase) (s : Scanner) : Scanner := (run (measure phase s) phase s).2

theorem run_eq_finish {n : Nat} (h : Ready phase s) (hn : measure phase s ≤ n) :
    run n phase s = (.done, finish phase s) := by
  obtain ⟨t, ht, -⟩ := run_induct (motive := fun _ _ => True) (fun _ _ _ _ _ => trivial)
    (measure phase s) phase s (Nat.le_refl _) h trivial
  rw [finish, run_eq_run h hn (Nat.le_refl _), ht]

/-- What every step keeps holds at the end of a run. -/
theorem finish_induct {motive : Phase → Scanner → Prop}
    (hstep : ∀ phase s, Ready phase s → phase ≠ .done → motive phase s →
      motive (s.step phase).1 (s.step phase).2)
    (h : Ready phase s) (hm : motive phase s) :
    Ready .done (finish phase s) ∧ motive .done (finish phase s) := by
  obtain ⟨t, ht, hdone⟩ := run_induct hstep _ phase s (Nat.le_refl _) h hm
  rwa [finish, ht]

/-- **A run goes on from its first step.** -/
theorem finish_step (h : Ready phase s) (hp : phase ≠ .done) :
    finish phase s = finish (s.step phase).1 (s.step phase).2 := by
  have hnear := step_nearer h hp
  have hrun := run_eq_finish h (Nat.le_succ (measure phase s))
  rw [run_succ _ s hp, run_eq_finish hnear.1 (Nat.le_of_lt hnear.2)] at hrun
  exact (congrArg Prod.snd hrun).symm

theorem scanChars_eq (cs : List Char) : scanChars cs
    = ⟨(finish .root { rest := cs }).tokens.reverse, (finish .root { rest := cs }).fault⟩ := by
  have h : Ready .root { rest := cs } := rfl
  have hrun : run (2 * cs.length + 1) .root { rest := cs } = (.done, finish .root { rest := cs }) :=
    run_eq_finish h (Nat.le_refl _)
  rw [scanChars, hrun]

end FilterLang.Scanner
