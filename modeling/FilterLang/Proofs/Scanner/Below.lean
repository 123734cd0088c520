import FilterLang.Proofs.Scanner.Prefix

/-!
# Scanning further down

What is read does not depend on the line where it stands.  A scanner that starts some lines further
down, behind tokens that have been found there, does the same as one that starts with nothing, and
all of its places are that many lines further down.

* `Location.down`, `Token.down`, `Located.down` — places, tokens and faults further down.
* `Quoted.readFrom_down` — a quoted text is the same one further down.
* `below` — the scanner further down, behind tokens that have been found.
* `below_step` — the step lemma: a step further down is the same step, further down.
* `below_finish` — the run lemma, by induction on the number of steps.
-/

namespace FilterLang

/-! ### Places further down -/

/-- The place `k` lines further down in the same column. -/
def Location.down (k : Nat) (here : Location) : Location := ⟨here.line + k, here.column⟩

/-- The same token `k` lines further down. -/
def Token.down (k : Nat) (token : Token) : Token :=
  { token with location := token.location.down k }

/-- The same value `k` lines further down. -/
def Located.down {α : Type} (k : Nat) (x : Located α) : Located α := ⟨x.value, x.location.down k⟩

namespace Location

theorem down_after (k : Nat) (here : Location) (c : Char) :
    (here.down k).after c = (here.after c).down k := by
  unfold after down
  split_ifs
  · rw [Nat.add_right_comm]
  · rfl

/-- Reading on further down leads further down. -/
theorem down_advance (k : Nat) (here : Location) (cs : List Char) :
    (here.down k).advance cs = (here.advance cs).down k := by
  induction cs generalizing here with
  | nil => rfl
  | cons c cs ih => rw [advance_cons, advance_cons, down_after, ih]

end Location

namespace Text

/-- The same quoted text `k` lines further down. -/
def Quoted.down (k : Nat) (quoted : Quoted) : Quoted :=
  { quoted with fault := quoted.fault.map (Location.down k) }

theorem Quoted.readFrom_down (k : Nat) (quote : Char) (here : Location) (skip : Nat)
    (cs : List Char) :
    readFrom quote (here.down k) skip cs = (readFrom quote here skip cs).down k := by
  induction cs generalizing here skip with
  | nil => rfl
  | cons c cs ih =>
    cases skip with
    | succ skip =>
      rw [readFrom, readFrom, Location.down_after, ih]
      rfl
    | zero =>
      simp only [readFrom, Location.down_after, ih]
      split_ifs
      · rfl
      · -- the fault of the escape stands further down, and so does that of the tail
        cases (Escape.read quote cs).fault with
        | none => rfl
        | some n =>
          simp only [down, Option.map_some, Option.some_or, Location.down_advance]
      · rfl
      · rfl

end Text

namespace Scanner

/-- A scanner `k` lines further down, behind the tokens `found`. -/
def below (k : Nat) (found : List Token) (s : Scanner) : Scanner where
  rest := s.rest
  lexeme := s.lexeme
  start := s.start.down k
  here := s.here.down k
  tokens := s.tokens.map (Token.down k) ++ found
  fault := s.fault.map (Located.down k)

variable {k : Nat} {found : List Token} {s : Scanner} {phase : Phase}

/-! ### Reading and emitting further down -/

@[simp] theorem below_rest : (s.below k found).rest = s.rest := rfl

@[simp] theorem below_lexeme : (s.below k found).lexeme = s.lexeme := rfl

theorem below_read (n : Nat) : (s.below k found).read n = (s.read n).below k found := by
  simp only [read, below, Location.down_advance]

theorem below_readWhile (p : Char → Bool) :
    (s.below k found).readWhile p = (s.readWhile p).below k found :=
  below_read _

theorem below_readOne (p : Char → Bool) :
    (s.below k found).readOne p = (s.readOne p).below k found := by
  cases h : s.rest with
  | nil => rw [readOne_nil h, readOne_nil (s := s.below k found) h]
  | cons c cs =>
    rw [readOne_cons h, readOne_cons (s := s.below k found) h, below_read]
    split_ifs
    · rfl
    · rfl

theorem below_emit (kind : TokenKind) :
    (s.below k found).emit kind = (s.emit kind).below k found := rfl

theorem below_noteAt (location : Location) (fault : ScanFault) :
    (s.below k found).noteAt (location.down k) fault = (s.noteAt location fault).below k found := by
  obtain ⟨rest, lexeme, start, here, tokens, noted⟩ := s
  cases noted with
  | none => rfl
  | some first => rfl

theorem below_note (fault : ScanFault) :
    (s.below k found).note fault = (s.note fault).below k found :=
  below_noteAt s.start fault

/-! ### Numbers and quoted texts further down -/

theorem below_readBase : (s.below k found).readBase = s.readBase.map (below k found) id := by
  unfold readBase
  rw [below_rest]
  split
  · split
    · exact Prod.ext (below_read 2) rfl
    · rfl
  · rfl

theorem below_readPoint (base : Nat) :
    (s.below k found).readPoint base = (s.readPoint base).below k found := by
  rw [readPoint, readPoint, below_rest, below_read, below_readWhile]
  split_ifs
  · rfl
  · rfl

theorem below_readExponent (base : Nat) :
    (s.below k found).readExponent base = (s.readExponent base).below k found := by
  unfold readExponent
  rw [below_rest]
  split
  · rw [below_read, below_readOne, below_readWhile]
    split_ifs
    · rfl
    · rfl
  · rfl

theorem below_readClash : (s.below k found).readClash = s.readClash.map (below k found) id := by
  rw [readClash, readClash, below_rest, below_read]
  split_ifs
  · rfl
  · rfl

theorem below_readFraction (base : Nat) :
    (s.below k found).readFraction base = (s.readFraction base).map (below k found) id := by
  by_cases hdots : ∃ ds, s.rest = '.' :: '.' :: ds
  · obtain ⟨ds, hds⟩ := hdots
    have hds' : (s.below k found).rest = '.' :: '.' :: ds := hds
    rw [readFraction_of_dots hds, readFraction_of_dots hds']
    rfl
  · have hdots' : ∀ ds, (s.below k found).rest ≠ '.' :: '.' :: ds := not_exists.mp hdots
    rw [readFraction_of_not_dots (not_exists.mp hdots), readFraction_of_not_dots hdots',
      below_readPoint, below_readExponent, below_readClash]

theorem below_readNumber : (s.below k found).readNumber = s.readNumber.map (below k found) id := by
  rw [readNumber_eq, readNumber_eq, below_readBase]
  exact (congrArg _ (below_readWhile _)).trans (below_readFraction _)

theorem below_noteQuoted (quoted : Text.Quoted) :
    (s.below k found).noteQuoted (quoted.down k) = (s.noteQuoted quoted).below k found := by
  obtain ⟨value, length, closed, fault⟩ := quoted
  cases fault with
  | none =>
    cases closed with
    | false => exact below_note _
    | true => rfl
  | some location =>
    have hnote : (s.below k found).noteAt (location.down k) .invalidEscape =
        (s.noteAt location .invalidEscape).below k found := below_noteAt _ _
    cases closed with
    | false => exact (congrArg (note .unterminatedLiteral) hnote).trans (below_note _)
    | true => exact hnote

theorem below_readQuoted (quote : Char) :
    (s.below k found).readQuoted quote = (s.readQuoted quote).below k found := by
  have hhere : ((s.read 1).below k found).here = (s.read 1).here.down k := rfl
  rw [readQuoted_eq, readQuoted_eq, below_read, hhere, below_rest, Text.Quoted.readFrom_down]
  generalize Text.Quoted.readFrom quote (s.read 1).here 0 (s.read 1).rest = quoted
  have hlength : (quoted.down k).length = quoted.length := rfl
  rw [hlength, below_read, below_noteQuoted]
  rfl

theorem below_readRaw : (s.below k found).readRaw = s.readRaw.below k found := by
  rw [readRaw, readRaw, below_read, below_rest, below_read, below_read, below_note]
  split_ifs
  · rfl
  · rfl

/-! ### Steps further down -/

theorem below_emitBlanks : (s.below k found).emitBlanks = s.emitBlanks.below k found := by
  rw [emitBlanks, emitBlanks, below_readWhile, below_lexeme]
  split_ifs
  · rfl
  · rfl

theorem below_emitNegatable :
    (s.below k found).emitNegatable = s.emitNegatable.below k found := by
  rw [emitNegatable, emitNegatable, below_readWhile, below_rest]
  split_ifs
  · rfl
  · rfl

theorem below_ite {p : Prop} [Decidable p] {a a' b b' : Phase × Scanner}
    (h : a' = a.map id (below k found)) (h' : b' = b.map id (below k found)) :
    (if p then a' else b') = (if p then a else b).map id (below k found) :=
  rel_ite (R := fun next next' : Phase × Scanner => next' = next.map id (below k found))
    (fun _ => h) fun _ => h'

theorem below_stepRoot (c : Char) :
    (s.below k found).stepRoot c = (s.stepRoot c).map id (below k found) := by
  unfold stepRoot
  rw [below_read, below_readWhile, below_readQuoted, below_readRaw, below_readOne, below_readOne,
    below_note]
  repeat' refine below_ite rfl ?_
  rfl

/-- **The step lemma.**  A step further down is the same step, further down. -/
theorem below_step (phase : Phase) :
    (s.below k found).step phase = (s.step phase).map id (below k found) := by
  cases phase with
  | root =>
    simp only [step, below_rest]
    cases s.rest with
    | nil => rfl
    | cons c cs => exact below_stepRoot c
  | number =>
    simp only [step, below_readNumber, Prod.map, id, below_lexeme, below_note]
    split_ifs
    · rfl
    · rfl
  | dot =>
    simp only [step, below_read, below_readOne, below_rest]
    exact below_ite rfl rfl
  | identifier =>
    simp only [step, below_readWhile, below_lexeme]
    exact below_ite rfl (below_ite rfl rfl)
  | not =>
    simp only [step, stepNot_eq, below_emit, below_emitBlanks, below_emitNegatable]
    rfl
  | questionMark =>
    simp only [step, below_readOne]
    rfl
  | slash =>
    simp only [step, below_read, below_rest]
    split
    · rfl
    · rfl
    · rfl
  | lineComment =>
    simp only [step, below_readWhile]
    rfl
  | blockComment =>
    simp only [step, below_read, below_note, below_rest]
    split_ifs
    · rfl
    · rfl
  | pointer =>
    simp only [step, below_readOne, below_emit, below_readWhile, below_lexeme]
    split_ifs
    · rfl
    · rfl
  | done => rfl

theorem below_run (n : Nat) :
    run n phase (s.below k found) = (run n phase s).map id (below k found) := by
  induction n generalizing phase s with
  | zero => rfl
  | succ n ih =>
    by_cases hp : phase = .done
    · rw [hp, run_done, run_done]
      rfl
    · rw [run_succ n _ hp, run_succ n s hp, below_step]
      exact ih

/-- **The run lemma.**  A run further down ends as the run does, further down. -/
theorem below_finish : finish phase (s.below k found) = (finish phase s).below k found :=
  congrArg Prod.snd (below_run (measure phase s))

end Scanner

end FilterLang
