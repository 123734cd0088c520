import FilterLang.Proofs.Scanner.Machine

/-!
# Which phase makes which tokens

* `Phase.kinds` — the kinds of the tokens that a phase may make.
* `Makes` — from one scanner to another only tokens of some kinds have been made.
* `kinds_step` — every step makes tokens of the kinds of its phase.
-/

namespace FilterLang.Scanner

/-- The kinds of the tokens that a phase makes. -/
def Phase.kinds : Phase → List TokenKind
  | .root => [.whitespace, .string, .operator, .bracket, .eof]
  | .number => [.number]
  | .identifier | .pointer => [.operator, .identifier]
  | .not => [.operator, .whitespace]
  | .dot | .questionMark | .slash => [.operator]
  | .lineComment | .blockComment | .done => []

variable {kinds : List TokenKind} {s t : Scanner} {phase : Phase}

/-- Between two scanners only tokens of these kinds have been made. -/
def Makes (kinds : List TokenKind) (s t : Scanner) : Prop :=
  ∃ made, t.tokens = made ++ s.tokens ∧ ∀ token ∈ made, token.kind ∈ kinds

theorem makes_of_eq (h : t.tokens = s.tokens) : Makes kinds s t :=
  ⟨[], h, nofun⟩

theorem Makes.emitValue {kind : TokenKind} (h : Makes kinds s t) (hkind : kind ∈ kinds)
    (value : List Char) : Makes kinds s (t.emitValue kind value) := by
  obtain ⟨made, htokens, hmade⟩ := h
  refine ⟨_ :: made, congrArg (_ :: ·) htokens, ?_⟩
  exact List.forall_mem_cons.mpr ⟨hkind, hmade⟩

theorem Makes.emit {kind : TokenKind} (h : Makes kinds s t) (hkind : kind ∈ kinds) :
    Makes kinds s (t.emit kind) :=
  h.emitValue hkind _

theorem Makes.readOne (h : Makes kinds s t) (p : Char → Bool) : Makes kinds s (t.readOne p) := by
  obtain ⟨n, hn⟩ := t.readOne_eq_read p
  rw [hn]
  exact h

theorem Makes.emitBlanks (h : Makes kinds s t) (hkind : .whitespace ∈ kinds) :
    Makes kinds s t.emitBlanks := by
  unfold Scanner.emitBlanks
  dsimp only
  split_ifs
  · exact h
  · exact Makes.emit (t := t.readWhile _) h hkind

theorem Makes.emitNegatable (h : Makes kinds s t) (hkind : .operator ∈ kinds) :
    Makes kinds s t.emitNegatable := by
  unfold Scanner.emitNegatable
  split_ifs
  · exact Makes.emit (t := t.readWhile _) h hkind
  · exact h

theorem makes_readQuoted (quote : Char) : Makes Phase.root.kinds s (s.readQuoted quote) := by
  unfold readQuoted
  dsimp only
  refine Makes.emitValue (makes_of_eq ?_) (by decide) _
  split_ifs <;> split <;> rfl

theorem makes_readRaw : Makes Phase.root.kinds s s.readRaw := by
  unfold readRaw
  dsimp only
  split_ifs
  · exact Makes.emitValue (makes_of_eq rfl) (by decide) _
  · exact Makes.emitValue (makes_of_eq rfl) (by decide) _

theorem kinds_stepRoot (s : Scanner) (c : Char) :
    Makes Phase.root.kinds s (s.stepRoot c).2 := by
  have hread : Makes Phase.root.kinds s (s.read 1) := makes_of_eq rfl
  have hmove := s.stepRoot_move c
  generalize s.stepRoot c = next at hmove ⊢
  cases hmove with
  | blank => exact Makes.emit (t := s.readWhile _) (makes_of_eq rfl) (by decide)
  | quoted => exact makes_readQuoted c
  | raw => exact makes_readRaw
  | pair | double => exact (hread.readOne _).emit (by decide)
  | bracket | single => exact hread.emit (by decide)
  | _ => exact makes_of_eq rfl

/-- **The step lemma.**  A step makes only tokens of the kinds of its phase. -/
theorem kinds_step (phase : Phase) (s : Scanner) : Makes phase.kinds s (s.step phase).2 := by
  have hself : ∀ kinds, Makes kinds s s := fun _ => makes_of_eq rfl
  cases phase with
  | root =>
    cases hrest : s.rest with
    | nil =>
      simp only [step, hrest]
      exact (hself _).emit (by decide)
    | cons c cs =>
      simp only [step, hrest]
      exact kinds_stepRoot s c
  | number =>
    obtain ⟨n, hn⟩ := s.readNumber_eq_read
    have hread : Makes Phase.number.kinds s s.readNumber.1 := makes_of_eq (by rw [hn, read_tokens])
    simp only [step]
    split_ifs
    · exact hread.emit (by decide)
    · exact Makes.emit (t := s.readNumber.1.note _) hread (by decide)
  | dot =>
    have hread : Makes Phase.dot.kinds s (s.read 1) := hself _
    simp only [step]
    split_ifs
    · exact hread
    · exact (hread.readOne _).emit (by decide)
  | identifier =>
    have hread : Makes Phase.identifier.kinds s (s.readWhile Text.isWordChar) := hself _
    simp only [step]
    split_ifs
    · exact hread
    · exact hread.emit (by decide)
    · exact hread.emit (by decide)
  | not =>
    rw [step, stepNot_eq]
    exact (((hself _).emit (by decide)).emitBlanks (by decide)).emitNegatable (by decide)
  | questionMark => exact ((hself _).readOne _).emit (by decide)
  | slash =>
    simp only [step]
    split
    · exact hself _
    · exact hself _
    · exact (hself _).emit (by decide)
  | lineComment => exact hself _
  | blockComment =>
    simp only [step]
    split_ifs
    · exact hself _
    · exact hself _
  | pointer =>
    have hsign : Makes Phase.pointer.kinds s ((s.readOne (· == '#')).emit .operator) :=
      ((hself _).readOne _).emit (by decide)
    simp only [step]
    split_ifs
    · exact hsign
    · exact Makes.emit (t := Scanner.readWhile _ _) hsign (by decide)
  | done => exact hself _

/-- A phase that makes no tokens of a kind leaves those that have been found. -/
theorem filter_step {kind : TokenKind} (h : kind ∉ phase.kinds) (s : Scanner) :
    (s.step phase).2.tokens.filter (·.kind == kind) = s.tokens.filter (·.kind == kind) := by
  obtain ⟨made, htokens, hmade⟩ := kinds_step phase s
  have hnone : made.filter (·.kind == kind) = [] := by
    refine List.filter_eq_nil_iff.mpr fun token htoken hkind => h ?_
    rw [← eq_of_beq hkind]
    exact hmade token htoken
  rw [htokens, List.filter_append, hnone, List.nil_append]

end FilterLang.Scanner
