import FilterLang.Proofs.Grammar.Scopes

/-!
# The open productions

A production that gives a value has closed every production that it opened.  A chain of comparisons
is read inside the production of its operator and makes that production wait for one comparison after
the other.

* `Retargeted` — the innermost production waits for the right side of another operator.
* `Goal.Restores` — what a production does to the open productions.
* `restores_of_run` — every production that gives a value does that, under both policies and also
  past a fault.
* `Round` — the rounds of a chain, from the operators that start it on.
* `Round.frames_eq` — in each of them the innermost production is the one that was opened for the
  chain, and it waits for the comparison at hand.
* `frames_balanced` — what productions do to the open ones, where a list is read and where reading
  stops.
-/

namespace FilterLang

namespace Grammar

/-- The open productions are the same, but the innermost one may wait for the right side of another
operator with another left side. -/
inductive Retargeted : List Frame → List Frame → Prop where
  | same (frames : List Frame) : Retargeted frames frames
  | top (left left' : Expr) (operator operator' : String) (negate : Bool) (frames : List Frame) :
      Retargeted (.binary left operator negate :: frames) (.binary left' operator' negate :: frames)

theorem Retargeted.trans {fs gs hs : List Frame} (h : Retargeted fs gs) (h' : Retargeted gs hs) :
    Retargeted fs hs := by
  cases h with
  | same => exact h'
  | top left _ operator _ negate frames =>
    cases h' with
    | same => exact .top ..
    | top => exact .top ..

theorem Retargeted.tail_eq {fs gs : List Frame} (h : Retargeted fs gs) : gs.tail = fs.tail := by
  cases h <;> rfl

/-- What a production does to the open productions. -/
def Goal.Restores (g : Goal) (fs gs : List Frame) : Prop :=
  match g with
  | .chain _ _ _ _ => Retargeted fs gs
  | _ => gs = fs

variable {policy : Policy} {r s : Reader}

theorem frames_advance (h : advance policy r = .done () s) : s.frames = r.frames :=
  (flat_advance policy).mirrors.frames_eq h

theorem frames_operatorAhead {least : Nat} {ahead : Option Ahead}
    (h : operatorAhead policy least r = .done ahead s) : s.frames = r.frames :=
  (flat_operatorAhead policy least).mirrors.frames_eq h

theorem retargeted_of_retarget {left : Expr} {operator : String}
    (h : retarget left operator r = .done () s) : Retargeted r.frames s.frames := by
  rw [retarget] at h
  split at h
  · rename_i hframes
    cases h
    rw [hframes]
    exact .top ..
  · cases h
    exact .same _

/-! ### Productions -/

/-- With this fuel, the productions restore the open productions. -/
def RestoresWith (policy : Policy) (fuel : Nat) : Prop :=
  ∀ {g : Goal} {e : Expr} {r s : Reader}, g.run policy fuel r = .done e s →
    g.Restores r.frames s.frames

variable {fuel : Nat} {e : Expr}

/-- A chain makes the innermost production wait for its comparisons, and leaves the ones around that
alone. -/
theorem retargeted_chain {power : Nat} {left : Expr} {token : Token} {before : Option Expr}
    (h : chain policy fuel power left token before r = .done e s) :
    Retargeted r.frames s.frames := by
  induction fuel generalizing left token before r with
  | zero =>
    rw [chain] at h
    cases h
  | succ fuel ih =>
    rw [chain_eq] at h
    obtain ⟨right, t, ht, h⟩ := bind_eq_done h
    have hright : t.frames = r.frames :=
      ((mirrors_productions policy fuel).1 (power + 1)).frames_eq ht
    rw [← hright]
    rw [current_bind, sound_bind] at h
    split at h
    · obtain ⟨_, u, hu, h⟩ := bind_eq_done h
      obtain ⟨_, v, hv, h⟩ := bind_eq_done h
      have hchain := ih h
      rw [frames_advance hv] at hchain
      exact (retargeted_of_retarget hu).trans hchain
    · cases h
      exact .same _

/-- **The productions restore the open productions** once they give a value. -/
theorem restores_of_run (policy : Policy) (fuel : Nat) : RestoresWith policy fuel := by
  obtain ⟨hexpression, hoperators, hoperand, -⟩ := mirrors_productions policy fuel
  intro g e r s h
  cases g with
  | expression least => exact (hexpression least).frames_eq h
  | operators least left => exact (hoperators least left).frames_eq h
  | operand => exact hoperand.frames_eq h
  | chain power left token before => exact retargeted_chain h
  | fields value => exact (mirrors_fields policy fuel value).frames_eq h

/-! ### The rounds of a chain -/

/-- **The rounds of a chain.**  The operators behind `left`, which are called at the reader `r` with
one more than `fuel`, start a chain; each of its rounds has the fuel, the arguments and the reader
that follow.  It reads the right side of a comparison and comes to the next round if a comparison
follows. -/
inductive Round (policy : Policy) (fuel least : Nat) (left : Expr) (r : Reader) :
    Nat → Nat → Expr → Token → Option Expr → Reader → Prop where
  | first {ahead : Ahead} {s t : Reader} (hsound : r.fault = none)
      (hahead : operatorAhead policy least r = .done (some ahead) s)
      (hcomparison : Operator.isComparison ahead.token.value)
      (hopen : (enter (.binary left ahead.token.value ahead.negation.isSome) >>= fun _ =>
        advance policy) s = .done () t) :
      Round policy fuel least left r fuel ahead.power left ahead.token none t
  | next {n power : Nat} {operand right : Expr} {token : Token} {before : Option Expr}
      {s t u : Reader} (h : Round policy fuel least left r (n + 1) power operand token before s)
      (hright : expression policy n (power + 1) s = .done right t)
      (hnext : isComparison t.current && t.fault.isNone)
      (hagain : (retarget right t.current.value >>= fun _ => advance policy) t = .done () u) :
      Round policy fuel least left r n power right t.current (some (conjoin before token operand right))
        u

namespace Round

variable {least n power : Nat} {left operand : Expr} {token : Token} {before : Option Expr}

/-- **In every round** the innermost production is the one that was opened for the chain, on top of
those that were open where the operators were called.  It waits for the right side of the comparison
of this round. -/
theorem frames_eq (h : Round policy fuel least left r n power operand token before s) :
    s.frames = .binary operand token.value false :: r.frames := by
  induction h with
  | first _ hahead hcomparison hopen =>
    rw [frames_advance hopen, negation_of_operatorAhead hahead hcomparison]
    exact congrArg (_ :: ·) (frames_operatorAhead hahead)
  | next _ hright _ hagain ih =>
    obtain ⟨_, v, hv, hu⟩ := bind_eq_done hagain
    -- the right side is read, and the production of the chain is on top again
    have hopen := (restores_of_run policy _ (g := .expression _) hright).trans ih
    rw [retarget, hopen] at hv
    cases hv
    exact frames_advance hu

/-- What the operators come to is what every round comes to, once the production of the chain is
closed behind it. -/
theorem operators_eq (h : Round policy fuel least left r n power operand token before s) :
    operators policy (fuel + 1) least left r =
      (chain policy n power operand token before >>= fun joined => leave >>= fun _ =>
        operators policy fuel least joined) s := by
  induction h with
  | first hsound hahead hcomparison hopen =>
    rw [enter_bind] at hopen
    rw [operators_of_some fuel left hsound hahead, bind_done hopen, if_pos hcomparison]
  | next _ hright hnext hagain ih =>
    obtain ⟨_, v, hv, hu⟩ := bind_eq_done hagain
    rw [ih, bind_apply, bind_apply, chain_eq, bind_done hright, current_bind, sound_bind,
      if_pos hnext, bind_done hv, bind_done hu]

end Round

end Grammar

open Grammar

/-- **The open productions are balanced.**  What is open where a production is called is open where
it gives its value, but that a chain of comparisons may leave the innermost one waiting for the
right side of another comparison.  In each round of the chain this is the production that the
operators opened for it, on top of the ones that were open where they were called.  So nothing is
open behind a text, and a strict reading stops with those productions open that are around that
place, the outermost first. -/
theorem frames_balanced (policy : Policy) (tokens : List Token) :
    (∀ fuel (r s : Reader) (e : Expr),
      (∀ least, expression policy fuel least r = .done e s → s.frames = r.frames) ∧
      (operand policy fuel r = .done e s → s.frames = r.frames) ∧
      (secondary policy fuel r = .done e s → s.frames = r.frames) ∧
      (∀ value, fields policy fuel value r = .done e s → s.frames = r.frames) ∧
      ∀ power left token before, chain policy fuel power left token before r = .done e s →
        Retargeted r.frames s.frames) ∧
    (∀ fuel least left (r : Reader) n power operand (token : Token) before (s : Reader),
      Round policy fuel least left r n power operand token before s →
        s.frames = .binary operand token.value false :: r.frames ∧
        operators policy (fuel + 1) least left r =
          (chain policy n power operand token before >>= fun joined => leave >>= fun _ =>
            operators policy fuel least joined) s) ∧
    (∀ e s, runParser policy tokens = .done e s → s.frames = []) ∧
    ∀ stop, parseStrict tokens = .error stop ↔
      ∃ s, readScoped .abort tokens = .stopped s stop.frames.reverse ∧
        s.fault = some stop.fault := by
  refine ⟨fun fuel r s e => ?_, fun _ _ _ _ _ _ _ _ _ _ h => ⟨h.frames_eq, h.operators_eq⟩,
    fun e s h => frames_of_runParser h, fun stop => parseStrict_eq_error_iff_stopped⟩
  have hrestores : RestoresWith policy fuel := restores_of_run policy fuel
  exact ⟨fun least h => hrestores (g := .expression least) h, fun h => hrestores (g := .operand) h,
    fun h => (mirrors_secondary policy fuel).frames_eq h, fun value h => hrestores (g := .fields value) h,
    fun power left token before h => hrestores (g := .chain power left token before) h⟩

/-- Behind `a < b < (` the second comparison is open, with the operand that it shares with the first
one, and the bracket inside of it.  Behind `a < b )` nothing is, in spite of the fault. -/
theorem frames_balanced_comparisons :
    let a : Token := .ofText .identifier "a" ⟨1, 0⟩
    let less (column : Nat) : Token := .ofText .operator "<" ⟨1, column⟩
    let b : Token := .ofText .identifier "b" ⟨1, 4⟩
    let opening : Token := .ofText .bracket "(" ⟨1, 8⟩
    let closing : Token := .ofText .bracket ")" ⟨1, 6⟩
    let caret : Token := .ofText .caret "" ⟨1, 9⟩
    let name (token : Token) : Expr := .identifier (.at token.location) token.value
    let waiting : Frame := .binary (name b) "<" false
    let r : Reader := { current := less 2, rest := [b, less 6, opening, caret] }
    let s : Reader := { current := opening, rest := [caret], frames := [waiting] }
    let first : Expr := conjoin none (less 2) (name a) (name b)
    (Round .abort 9 0 (name a) r 8 20 (name b) (less 6) (some first) s ∧
      s.frames = waiting :: r.frames) ∧
    (∃ stop, parseStrict [a, less 2, b, less 6, opening, caret] = .error stop ∧
      stop.frames.reverse = [waiting, .brackets] ∧
      ∃ t, readScoped .abort [a, less 2, b, less 6, opening, caret] =
        .stopped t [waiting, .brackets] ∧ t.fault = some stop.fault) ∧
    ∃ e t, runParser .collect [a, less 2, b, closing] = .done e t ∧ t.fault ≠ none ∧
      t.frames = [] := by
  intro a less b opening closing caret name waiting r s first
  -- the reader in front of the first round, and the one behind its right side
  let opened : Reader :=
    { current := b, rest := [less 6, opening, caret], frames := [.binary (name a) "<" false] }
  let read : Reader := { opened with current := less 6, rest := [opening, caret] }
  have hahead : operatorAhead .abort 0 r = .done (some ⟨less 2, 20, none⟩) r := rfl
  have hfirst : Round .abort 9 0 (name a) r 9 20 (name a) (less 2) none opened :=
    .first rfl hahead rfl rfl
  have hright : expression .abort 8 21 opened = .done (name b) read := rfl
  have hround : Round .abort 9 0 (name a) r 8 20 (name b) (less 6) (some first) s :=
    .next hfirst hright rfl rfl
  let stop : Interruption :=
    ⟨⟨.unexpectedToken caret.describe, caret.location⟩, [.brackets, waiting]⟩
  have hscoped : ∃ t, readScoped .abort [a, less 2, b, less 6, opening, caret] =
      .stopped t [waiting, .brackets] ∧ t.fault = some stop.fault := ⟨_, rfl, rfl⟩
  let fault : Located ParseFault := ⟨.unexpectedToken closing.describe, closing.location⟩
  let t : Reader := { current := closing, rest := [], fault := some fault }
  have hdone : runParser .collect [a, less 2, b, closing] = .done first t := rfl
  obtain ⟨-, hrounds, -, hstops⟩ :=
    frames_balanced .abort [a, less 2, b, less 6, opening, caret]
  refine ⟨⟨hround, (hrounds _ _ _ _ _ _ _ _ _ _ hround).1⟩,
    ⟨stop, (hstops stop).mpr hscoped, rfl, hscoped⟩, first, t, hdone, nofun, ?_⟩
  exact (frames_balanced .collect [a, less 2, b, closing]).2.2.1 first t hdone

end FilterLang
