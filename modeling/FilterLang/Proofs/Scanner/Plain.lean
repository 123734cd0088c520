import FilterLang.Proofs.Scanner.Words

/-!
# The scanner without a phase for `not`

Behind the word `not` the scanner looks ahead: it takes the blanks, and a relation that can be
negated, before it goes on as always.  This file sets the plain scanner beside it, for which `not`
is an operator like any other, and compares the two.

* `plainStep`, `plainRun`, `plainScan` — the plain scanner; it has no use for the phase `not`
  (`plainRun_ne_not`).
* `plainStep_cases` — the two machines take the same step, except at the end of the word `not`.
* `finish_plainStep` — there, too, both come to the same end.
* `scan_eq_plainScan` — the look ahead loses nothing and changes nothing.
-/

namespace FilterLang

namespace Scanner

variable {phase : Phase} {s : Scanner}

/-- One step of the plain scanner: the word `not` is an operator, and what is behind it is left to
the next steps. -/
def plainStep (phase : Phase) (s : Scanner) : Phase × Scanner :=
  match phase with
  | .identifier =>
    let s := s.readWhile Text.isWordChar
    (.root, s.emit (kindOfWord (String.ofList s.lexeme)))
  | phase => s.step phase

/-- At most `fuel` steps of the plain scanner. -/
def plainRun : Nat → Phase → Scanner → Phase × Scanner
  | 0, phase, s => (phase, s)
  | fuel + 1, phase, s =>
    if phase = .done then (phase, s) else
      plainRun fuel (s.plainStep phase).1 (s.plainStep phase).2

/-! ### Steps -/

/-- **The machines part only at the word `not`.**  One enters the phase of its own for it, the other
emits it. -/
theorem plainStep_cases (phase : Phase) (s : Scanner) :
    s.plainStep phase = s.step phase ∨
      ∃ t : Scanner, t.lexeme = "not".toList ∧ s.step phase = (.not, t) ∧
        s.plainStep phase = (.root, t.emit .operator) := by
  cases phase with
  | identifier =>
    simp only [plainStep, step, kindOfWord, beq_iff_eq]
    by_cases hnot : String.ofList (s.readWhile Text.isWordChar).lexeme = "not"
    · have hlexeme : (s.readWhile Text.isWordChar).lexeme = "not".toList := by
        rw [← hnot, String.toList_ofList]
      rw [if_pos hnot, if_pos (.inl hnot)]
      exact .inr ⟨_, hlexeme, rfl, rfl⟩
    · left
      rw [if_neg hnot]
      by_cases hoperator :
          Operator.isOperatorWord (String.ofList (s.readWhile Text.isWordChar).lexeme)
      · rw [if_pos hoperator, if_pos (.inr hoperator)]
      · rw [if_neg hoperator, if_neg (not_or.mpr ⟨hnot, hoperator⟩)]
  | _ => exact .inl rfl

/-- A plain step leads nearer to the end, as a step does. -/
theorem plainStep_nearer (h : Ready phase s) (hp : phase ≠ .done) :
    Nearer (measure phase s) (s.plainStep phase) := by
  have hnear := step_nearer h hp
  rcases plainStep_cases phase s with heq | ⟨t, -, hstep, hplain⟩
  · rw [heq]
    exact hnear
  · rw [hplain]
    rw [hstep] at hnear
    refine nearer_of_root rfl ?_
    -- the phase of `not` weighs more than the one in which the plain scanner goes on
    have hlt : 2 * t.rest.length + 2 < measure phase s := hnear.2
    rw [emit_rest]
    omega

/-- **The simulation of one step**: wherever the plain scanner goes, the other one comes to the same
end from there. -/
theorem finish_plainStep (h : Ready phase s) (hp : phase ≠ .done) :
    finish phase s = finish (s.plainStep phase).1 (s.plainStep phase).2 := by
  rw [finish_step h hp]
  rcases plainStep_cases phase s with heq | ⟨t, hlexeme, hstep, hplain⟩
  · rw [heq]
  · rw [hstep, hplain]
    exact finish_not hlexeme

/-- Only the word `not` leads to the phase of its own. -/
theorem step_ne_not (hp : phase ≠ .not) (hword : phase ≠ .identifier) :
    (s.step phase).1 ≠ .not := by
  cases phase with
  | root =>
    cases hrest : s.rest with
    | nil =>
      simp [step, hrest]
    | cons c cs =>
      simp only [step, hrest]
      have hmove := s.stepRoot_move c
      generalize s.stepRoot c = next at hmove ⊢
      cases hmove with
      | _ => simp
  | dot =>
    simp only [step]
    split_ifs
    · simp
    · simp
  | slash =>
    simp only [step]
    split
    · simp
    · simp
    · simp
  | identifier => exact absurd rfl hword
  | not => exact absurd rfl hp
  | _ => simp [step]

theorem plainStep_ne_not (hp : phase ≠ .not) : (s.plainStep phase).1 ≠ .not := by
  by_cases hword : phase = .identifier
  · subst hword
    nofun
  · rcases plainStep_cases phase s with heq | ⟨t, -, -, hplain⟩
    · rw [heq]
      exact step_ne_not hp hword
    · rw [hplain]
      nofun

/-! ### Runs -/

/-- The plain scanner never enters the phase for `not`. -/
theorem plainRun_ne_not (hp : phase ≠ .not) (n : Nat) : (plainRun n phase s).1 ≠ .not := by
  induction n generalizing phase s with
  | zero => exact hp
  | succ n ih =>
    rw [plainRun]
    split
    · exact hp
    · exact ih (plainStep_ne_not hp)

/-- **The simulation of a run**: within the measure the plain scanner is where the other one
ends. -/
theorem plainRun_eq_finish {n : Nat} (h : Ready phase s) (hn : measure phase s ≤ n) :
    plainRun n phase s = (.done, finish phase s) := by
  induction n generalizing phase s with
  | zero =>
    by_cases hp : phase = .done
    · subst hp
      exact run_eq_finish h hn
    · have hpos := measure_pos h hp
      omega
  | succ n ih =>
    rw [plainRun]
    by_cases hp : phase = .done
    · subst hp
      rw [if_pos rfl, finish, run_done]
    · obtain ⟨hready, hlt⟩ := plainStep_nearer h hp
      rw [if_neg hp, finish_plainStep h hp]
      exact ih hready (by omega)

end Scanner

/-- What the plain scanner makes of a text. -/
def plainScan (source : String) : Scan :=
  let (_, s) := Scanner.plainRun (2 * source.toList.length + 1) .root { rest := source.toList }
  ⟨s.tokens.reverse, s.fault⟩

/-- **The look ahead behind `not` loses nothing and changes nothing.**  The plain scanner is at the
end of every text within the same number of steps, without ever entering the phase for `not`, and
has found the same tokens and the same fault. -/
theorem scan_eq_plainScan (source : String) :
    scan source = plainScan source ∧
      (Scanner.plainRun (2 * source.toList.length + 1) .root { rest := source.toList }).1 = .done ∧
      ∀ n, (Scanner.plainRun n .root { rest := source.toList }).1 ≠ .not := by
  have hready : Scanner.Ready .root { rest := source.toList } := rfl
  have hrun := Scanner.plainRun_eq_finish (n := 2 * source.toList.length + 1) hready (Nat.le_refl _)
  have hroot : Scanner.Phase.root ≠ .not := nofun
  refine ⟨?_, ?_, Scanner.plainRun_ne_not hroot⟩
  · rw [plainScan, hrun]
    exact Scanner.scanChars_eq source.toList
  · rw [hrun]

end FilterLang
