import FilterLang.Proofs.Grammar.Fuel
import Mathlib.Data.List.TakeWhile

/-!
# Reading by index

A reader carries the tokens that are left, so it cannot look where there is none.  Here the tokens
stay in one list and reading moves an index over it: forward to the next token that is not blank,
and back to a `not` that is left at hand.

* `Position` — an index, the first fault and the open productions.
* `Visit` — what an action at a position comes to.  It goes `astray` where a token is asked for that
  the list does not have.
* `Indexed` — the actions at a position, and with them the whole grammar once more.
* `Sees` — a position and a reader stand at the same token, with the same tokens behind it.
* `Tracks` — an action at a position does what an action on a reader does; each basic action does,
  and so do the productions (`tracks_productions`).
* `visitText_spec` — the same for whole lists, under both policies and with any amount of fuel: no
  index ever leaves the list.
-/

namespace FilterLang

/-- Where reading stands in a list of tokens. -/
structure Position where
  index : Nat
  /-- the first fault -/
  fault : Option (Located ParseFault) := none
  /-- the open productions, the innermost first -/
  frames : List Frame := []

/-- What an action at a position comes to. -/
inductive Visit (α : Type) where
  /-- a value -/
  | done (value : α) (position : Position)
  /-- no value; the fault is in the position -/
  | broken (position : Position)
  /-- the fuel did not suffice -/
  | spent
  /-- there is no token at the index -/
  | astray

/-- An action at a position. -/
def Indexed (α : Type) := Position → Visit α

namespace Indexed

open Grammar (Ahead isNegatable)

variable {α β : Type}

/-- Runs `first` and then, if it gave a value, what follows from the value. -/
def andThen (first : Indexed α) (next : α → Indexed β) : Indexed β := fun p =>
  match first p with
  | .done value p => next value p
  | .broken p => .broken p
  | .spent => .spent
  | .astray => .astray

instance : Monad Indexed where
  pure value := fun p => .done value p
  bind := andThen

/-! ### The position -/

/-- The index. -/
def index : Indexed Nat := fun p => .done p.index p

/-- Goes back to an index. -/
def rewind (index : Nat) : Indexed Unit := fun p => .done () { p with index }

/-- Whether no fault has been noted. -/
def sound : Indexed Bool := fun p => .done p.fault.isNone p

/-- Out of fuel. -/
def outOfFuel : Indexed α := fun _ => .spent

/-- Notes a fault, unless there is an earlier one. -/
def note (fault : ParseFault) (location : Location) (p : Position) : Position :=
  { p with fault := p.fault.or (some ⟨fault, location⟩) }

/-- Notes a fault that reading may survive. -/
def complain (policy : Policy) (fault : ParseFault) (location : Location) : Indexed Unit := fun p =>
  match policy with
  | .collect => .done () (note fault location p)
  | .abort => .broken (note fault location p)

/-- Notes a fault that leaves nothing to build. -/
def fail (fault : ParseFault) (location : Location) : Indexed α := fun p =>
  .broken (note fault location p)

/-- Complains that a token cannot stand where it does. -/
def complainOf (policy : Policy) (token : Token) : Indexed Unit :=
  complain policy (.unexpectedToken token.describe) token.location

/-- Opens a production. -/
def enter (frame : Frame) : Indexed Unit := fun p =>
  .done () { p with frames := frame :: p.frames }

/-- Closes the innermost production. -/
def leave : Indexed Unit := fun p =>
  .done () { p with frames := p.frames.tail }

/-- Makes the innermost production, if it is binary, wait for the right side of another operator
with another left side. -/
def retarget (left : Expr) (operator : String) : Indexed Unit := fun p =>
  match p.frames with
  | .binary _ _ negate :: frames =>
    .done () { p with frames := .binary left operator negate :: frames }
  | _ => .done () p

variable (tokens : List Token)

/-- The token at the index. -/
def current : Indexed Token := fun p =>
  match tokens[p.index]? with
  | some token => .done token p
  | none => .astray

/-- Moves on to the next token that is not blank, in at most `steps` steps.  Behind the last token
the index stays where it is. -/
def advanceBy (policy : Policy) : Nat → Indexed Unit
  | 0 => outOfFuel
  | steps + 1 => do
    let here ← index
    if tokens.length ≤ here + 1 then
      let last ← current tokens
      complain policy .unexpectedEnd last.location
    else
      rewind (here + 1)
      let token ← current tokens
      if token.kind = .whitespace then advanceBy policy steps

/-- Moves on to the next token that is not blank. -/
def advance (policy : Policy) : Indexed Unit := advanceBy tokens policy tokens.length

/-! ### The productions -/

/-- The binary operator at hand, if it binds with at least the power `least`. -/
def operatorAhead (policy : Policy) (least : Nat) : Indexed (Option Ahead) := do
  let token ← current tokens
  if token.kind ≠ .operator then
    return none
  else if token.value ≠ "not" then
    return Ahead.ofToken? least token none
  else
    let before ← index
    advance tokens policy
    let relation ← current tokens
    if isNegatable relation then
      match Ahead.ofToken? least relation (some token.location) with
      | some ahead => return some ahead
      | none =>
        rewind before
        return none
    else
      complainOf policy relation
      return none

/-- The fields behind a value. -/
def fields (policy : Policy) : Nat → Expr → Indexed Expr
  | 0, _ => outOfFuel
  | fuel + 1, value => do
    let token ← current tokens
    if (← sound) && token.is .operator "." then
      enter (.binary value "." false)
      advance tokens policy
      let property ← current tokens
      advance tokens policy
      if property.kind ≠ .identifier ∧ property.kind ≠ .operator then
        complain policy .expectedName property.location
      leave
      let name := Expr.identifier (.at property.location) property.value
      fields policy fuel (.member (.at property.location) value name false)
    else
      return value

/-- The fields behind a name or a string. -/
def withFields (policy : Policy) (fuel : Nat) (value : Expr) : Indexed Expr := do
  enter .secondary
  let value ← fields tokens policy fuel value
  leave
  return value

/-- A name or a string with the fields behind it, or a number, a truth value or `nil`. -/
def secondary (policy : Policy) (fuel : Nat) : Indexed Expr := do
  let token ← current tokens
  let note := Note.at token.location
  match token.kind with
  | .identifier =>
    advance tokens policy
    if token.value = "true" then
      return .bool note true
    else if token.value = "false" then
      return .bool note false
    else if token.value = "nil" then
      return .nil note
    else
      withFields tokens policy fuel (.identifier note token.value)
  | .number =>
    advance tokens policy
    match Numeral.readInteger? token.value with
    | some value => return .integer note value
    | none =>
      complain policy (.invalidInteger token.value) token.location
      return .integer note 0
  | .string =>
    advance tokens policy
    withFields tokens policy fuel (.string note token.value)
  | _ => fail (.unexpectedToken token.describe) token.location

/-- A closing bracket. -/
def closeBracket (policy : Policy) : Indexed Unit := do
  let token ← current tokens
  if token.is .bracket ")" then advance tokens policy else complainOf policy token

mutual

/-- An expression whose operators bind with at least the power `least`. -/
def expression (policy : Policy) : Nat → Nat → Indexed Expr
  | 0, _ => outOfFuel
  | fuel + 1, least => do
    let left ← operand policy fuel
    operators policy fuel least left

/-- The operators behind a left side. -/
def operators (policy : Policy) : Nat → Nat → Expr → Indexed Expr
  | 0, _, _ => outOfFuel
  | fuel + 1, least, left => do
    if ← sound then
      match ← operatorAhead tokens policy least with
      | some ahead =>
        enter (.binary left ahead.token.value ahead.negation.isSome)
        advance tokens policy
        if Operator.isComparison ahead.token.value then
          let joined ← chain policy fuel ahead.power left ahead.token none
          leave
          operators policy fuel least joined
        else
          let right ← expression policy fuel (ahead.power + 1)
          leave
          operators policy fuel least (ahead.join left right)
      | none => return left
    else
      return left

/-- An operand. -/
def operand (policy : Policy) : Nat → Indexed Expr
  | 0 => outOfFuel
  | fuel + 1 => do
    let token ← current tokens
    match if token.kind = .operator then Operator.prefixPower token.value else none with
    | some power =>
      enter (.unary token.value)
      advance tokens policy
      let inner ← expression policy fuel power
      let value ← fields tokens policy fuel (.unary (.at token.location) token.value inner)
      leave
      return value
    | none =>
      if token.is .bracket "(" then
        enter .brackets
        advance tokens policy
        let inner ← expression policy fuel 0
        closeBracket tokens policy
        leave
        fields tokens policy fuel inner
      else
        secondary tokens policy fuel

/-- The right side of a comparison, and the comparisons that follow it. -/
def chain (policy : Policy) : Nat → Nat → Expr → Token → Option Expr → Indexed Expr
  | 0, _, _, _, _ => outOfFuel
  | fuel + 1, power, left, token, before => do
    let right ← expression policy fuel (power + 1)
    let note := Note.at token.location
    let comparison := Expr.binary note token.value left right
    let joined := match before with
      | some before => .binary note "&&" before comparison
      | none => comparison
    let next ← current tokens
    if next.kind == .operator && Operator.isComparison next.value && (← sound) then
      retarget right next.value
      advance tokens policy
      chain policy fuel power right next (some joined)
    else
      return joined

end

/-- A whole text: an expression, and then the end or the caret. -/
def text (policy : Policy) (fuel : Nat) : Indexed Expr := do
  let value ← expression tokens policy fuel 0
  let token ← current tokens
  if token.kind ≠ .eof ∧ token.kind ≠ .caret then
    complainOf policy token
  return value

end Indexed

/-- Reads a list of tokens as a whole text, from the first token that is not blank. -/
def visitText (policy : Policy) (fuel : Nat) (tokens : List Token) : Visit Expr :=
  match tokens.findIdx? fun token => token.kind ≠ .whitespace with
  | none => .broken { index := 0, fault := some missingExpression }
  | some first => Indexed.text tokens policy fuel { index := first }

namespace Indexed

open Grammar (Ahead)

/-! ### Standing at the same token -/

/-- A position and a reader stand at the same token, and the tokens behind it are left. -/
structure Sees (tokens : List Token) (p : Position) (r : Reader) : Prop where
  drop : tokens.drop p.index = r.current :: r.rest
  fault : p.fault = r.fault
  frames : p.frames = r.frames

/-- An action at a position came to what an action on a reader came to. -/
inductive Matches {α : Type} (tokens : List Token) : Visit α → Outcome α → Prop where
  | done {p : Position} {r : Reader} (value : α) (h : Sees tokens p r) :
      Matches tokens (.done value p) (.done value r)
  | broken {p : Position} {r : Reader} (h : Sees tokens p r) :
      Matches tokens (.broken p) (.broken r)
  | spent : Matches tokens .spent .spent

/-- An action at a position does what an action on a reader does, wherever they stand at the same
token. -/
def Tracks {α : Type} (tokens : List Token) (a : Indexed α) (b : Grammar α) : Prop :=
  ∀ p r, Sees tokens p r → Matches tokens (a p) (b r)

variable {α β : Type} {tokens : List Token} {policy : Policy}

theorem Matches.ne_astray {x : Visit α} {y : Outcome α} (h : Matches tokens x y) : x ≠ .astray := by
  cases h <;> nofun

theorem getElem?_of_drop {index : Nat} {token : Token} {rest : List Token}
    (h : tokens.drop index = token :: rest) : tokens[index]? = some token := by
  rw [← List.head?_drop, h, List.head?_cons]

theorem tracks_bind {a : Indexed α} {b : Grammar α} {f : α → Indexed β} {g : α → Grammar β}
    (hab : Tracks tokens a b) (hfg : ∀ value, Tracks tokens (f value) (g value)) :
    Tracks tokens (a >>= f) (b >>= g) := by
  intro p r h
  show Matches tokens (andThen a f p) (Grammar.andThen b g r)
  rw [andThen, Grammar.andThen]
  have hmatches := hab p r h
  generalize a p = x, b r = y at hmatches
  cases hmatches with
  | done value h => exact hfg value _ _ h
  | broken h => exact .broken h
  | spent => exact .spent

theorem tracks_pure (value : α) : Tracks tokens (pure value) (pure value) := fun _ _ h =>
  .done value h

theorem tracks_outOfFuel : Tracks tokens (outOfFuel : Indexed α) Grammar.outOfFuel := fun _ _ _ =>
  .spent

theorem tracks_current : Tracks tokens (current tokens) Grammar.current := by
  intro p r h
  rw [current, getElem?_of_drop h.drop]
  exact .done _ h

theorem tracks_sound : Tracks tokens sound Grammar.sound := by
  intro p r h
  rw [sound, Grammar.sound, h.fault]
  exact .done _ h

theorem sees_note {p : Position} {r : Reader} (h : Sees tokens p r) (fault : ParseFault)
    (location : Location) : Sees tokens (note fault location p) (Grammar.note fault location r) where
  drop := h.drop
  fault := congrArg (·.or (some ⟨fault, location⟩)) h.fault
  frames := h.frames

theorem tracks_complain (fault : ParseFault) (location : Location) :
    Tracks tokens (complain policy fault location) (Grammar.complain policy fault location) := by
  intro p r h
  cases policy with
  | collect => exact .done () (sees_note h fault location)
  | abort => exact .broken (sees_note h fault location)

theorem tracks_fail (fault : ParseFault) (location : Location) :
    Tracks tokens (fail fault location : Indexed α) (Grammar.fail fault location) := fun _ _ h =>
  .broken (sees_note h fault location)

theorem tracks_enter (frame : Frame) : Tracks tokens (enter frame) (Grammar.enter frame) :=
  fun _ _ h => .done () ⟨h.drop, h.fault, congrArg (frame :: ·) h.frames⟩

theorem tracks_leave : Tracks tokens leave Grammar.leave :=
  fun _ _ h => .done () ⟨h.drop, h.fault, congrArg List.tail h.frames⟩

theorem tracks_retarget (left : Expr) (operator : String) :
    Tracks tokens (retarget left operator) (Grammar.retarget left operator) := by
  rintro ⟨index, fault, frames⟩ ⟨current, rest, _, _⟩ ⟨hdrop, rfl, rfl⟩
  cases frames with
  | nil => exact .done () ⟨hdrop, rfl, rfl⟩
  | cons frame frames => cases frame <;> exact .done () ⟨hdrop, rfl, rfl⟩

/-- **Moving on stays in the list.**  The induction is on the tokens that are left: behind the last
one the index is not raised, and there is still a token at it. -/
theorem matches_advanceBy {steps : Nat} {p : Position} {last : Token} {rest : List Token}
    {r : Reader} (hdrop : tokens.drop p.index = last :: rest) (hfault : p.fault = r.fault)
    (hframes : p.frames = r.frames) (hsteps : tokens.length ≤ p.index + steps) :
    Matches tokens (advanceBy tokens policy steps p) (Grammar.advance.go policy rest last r) := by
  have hlength := congrArg List.length hdrop
  rw [List.length_drop, List.length_cons] at hlength
  induction rest generalizing steps p last with
  | nil =>
    obtain ⟨steps, rfl⟩ : ∃ n, steps = n + 1 := Nat.exists_eq_add_of_le' (by omega)
    have hbehind : tokens.length ≤ p.index + 1 := by
      rw [List.length_nil] at hlength
      omega
    have hsees : Sees tokens p { r with current := last, rest := [] } := ⟨hdrop, hfault, hframes⟩
    rw [advanceBy, Grammar.advance.go]
    show Matches tokens ((if tokens.length ≤ p.index + 1 then _ else _ : Indexed Unit) p) _
    rw [if_pos hbehind]
    exact tracks_bind tracks_current (fun last => tracks_complain _ _) p _ hsees
  | cons token rest ih =>
    obtain ⟨steps, rfl⟩ : ∃ n, steps = n + 1 := Nat.exists_eq_add_of_le' (by omega)
    rw [List.length_cons] at hlength
    have hbehind : ¬ tokens.length ≤ p.index + 1 := by omega
    have hnext : tokens.drop (p.index + 1) = token :: rest := by rw [← List.tail_drop, hdrop]; rfl
    have hcurrent : current tokens { p with index := p.index + 1 } =
        .done token { p with index := p.index + 1 } := by
      rw [current, getElem?_of_drop hnext]
    have hstep : advanceBy tokens policy (steps + 1) p =
        (if token.kind = .whitespace then advanceBy tokens policy steps else pure ())
          { p with index := p.index + 1 } := by
      rw [advanceBy]
      show (if tokens.length ≤ p.index + 1 then _ else _ : Indexed Unit) p = _
      rw [if_neg hbehind]
      show andThen (current tokens) _ { p with index := p.index + 1 } = _
      rw [andThen, hcurrent]
    rw [hstep, Grammar.advance.go]
    by_cases hblank : token.kind = .whitespace
    · rw [if_pos hblank, if_pos hblank]
      have hmore : tokens.length ≤ p.index + 1 + steps := by omega
      have hleft : tokens.length - (p.index + 1) = rest.length + 1 := by omega
      exact ih (p := { p with index := p.index + 1 }) hnext hfault hframes hmore hleft
    · rw [if_neg hblank, if_neg hblank]
      exact .done () ⟨hnext, hfault, hframes⟩

theorem tracks_advance : Tracks tokens (advance tokens policy) (Grammar.advance policy) := by
  intro p r h
  exact matches_advanceBy h.drop h.fault h.frames (Nat.le_add_left _ _)

/-- **Going back stays in the list**: a `not` that is left at hand has been at hand before. -/
theorem tracks_operatorAhead (least : Nat) :
    Tracks tokens (operatorAhead tokens policy least) (Grammar.operatorAhead policy least) := by
  intro p r h
  have hcurrent : current tokens p = .done r.current p := by
    rw [current, getElem?_of_drop h.drop]
  have hrewind : Tracks tokens (rewind p.index) (Grammar.resume r.current r.rest) :=
    fun _ _ h' => .done () ⟨h.drop, h'.fault, h'.frames⟩
  rw [operatorAhead, Grammar.operatorAhead, Grammar.current_bind]
  show Matches tokens (andThen (current tokens) _ p) _
  rw [andThen, hcurrent]
  dsimp only
  split
  · exact tracks_pure none p r h
  split
  · exact tracks_pure _ p r h
  show Matches tokens ((advance tokens policy >>= _ : Indexed (Option Ahead)) p)
    ((Grammar.advance policy >>= _ : Grammar (Option Ahead)) r)
  refine tracks_bind tracks_advance (fun _ => tracks_bind tracks_current fun relation => ?_) p r h
  split
  · cases Ahead.ofToken? least relation (some r.current.location) with
    | some ahead => exact tracks_pure _
    | none => exact tracks_bind hrewind fun _ => tracks_pure none
  · exact tracks_bind (tracks_complain _ _) fun _ => tracks_pure none

/-! ### The productions -/

theorem tracks_fields (fuel : Nat) (value : Expr) :
    Tracks tokens (fields tokens policy fuel value) (Grammar.fields policy fuel value) := by
  induction fuel generalizing value with
  | zero =>
    rw [fields, Grammar.fields]
    exact tracks_outOfFuel
  | succ fuel ih =>
    rw [fields, Grammar.fields]
    refine tracks_bind tracks_current fun token => tracks_bind tracks_sound fun _ => ?_
    split
    · refine tracks_bind (tracks_enter _) fun _ => tracks_bind tracks_advance fun _ =>
        tracks_bind tracks_current fun property => tracks_bind tracks_advance fun _ => ?_
      dsimp only
      split
      · exact tracks_bind (tracks_complain _ _) fun _ => tracks_bind tracks_leave fun _ => ih _
      · exact tracks_bind tracks_leave fun _ => ih _
    · exact tracks_pure _

theorem tracks_secondary (fuel : Nat) :
    Tracks tokens (secondary tokens policy fuel) (Grammar.secondary policy fuel) := by
  have hfields : ∀ value, Tracks tokens (withFields tokens policy fuel value)
      (Grammar.secondary.withFields policy fuel value) :=
    fun value => tracks_bind (tracks_enter _) fun _ => tracks_bind (tracks_fields fuel value)
      fun _ => tracks_bind tracks_leave fun _ => tracks_pure _
  refine tracks_bind tracks_current fun token => ?_
  dsimp only
  cases token.kind with
  | identifier =>
    refine tracks_bind tracks_advance fun _ => ?_
    split
    · exact tracks_pure _
    split
    · exact tracks_pure _
    split
    · exact tracks_pure _
    exact hfields _
  | number =>
    refine tracks_bind tracks_advance fun _ => ?_
    cases Numeral.readInteger? token.value with
    | some value => exact tracks_pure _
    | none => exact tracks_bind (tracks_complain _ _) fun _ => tracks_pure _
  | string => exact tracks_bind tracks_advance fun _ => hfields _
  | _ => exact tracks_fail _ _

theorem tracks_closeBracket :
    Tracks tokens (closeBracket tokens policy) (Grammar.closeBracket policy) := by
  refine tracks_bind tracks_current fun token => ?_
  split
  · exact tracks_advance
  · exact tracks_complain _ _

/-- **Every production tracks its reader**, whatever the amount of fuel. -/
theorem tracks_productions (fuel : Nat) :
    (∀ least, Tracks tokens (expression tokens policy fuel least)
      (Grammar.expression policy fuel least)) ∧
    (∀ least left, Tracks tokens (operators tokens policy fuel least left)
      (Grammar.operators policy fuel least left)) ∧
    Tracks tokens (operand tokens policy fuel) (Grammar.operand policy fuel) ∧
    (∀ power left token before, Tracks tokens (chain tokens policy fuel power left token before)
      (Grammar.chain policy fuel power left token before)) := by
  induction fuel with
  | zero =>
    refine ⟨fun _ => ?_, fun _ _ => ?_, ?_, fun _ _ _ _ => ?_⟩
    · rw [expression, Grammar.expression]
      exact tracks_outOfFuel
    · rw [operators, Grammar.operators]
      exact tracks_outOfFuel
    · rw [operand, Grammar.operand]
      exact tracks_outOfFuel
    · rw [chain, Grammar.chain]
      exact tracks_outOfFuel
  | succ fuel ih =>
    obtain ⟨hexpression, hoperators, hoperand, hchain⟩ := ih
    refine ⟨fun least => ?_, fun least left => ?_, ?_, fun power left token before => ?_⟩
    · rw [expression, Grammar.expression]
      exact tracks_bind hoperand fun left => hoperators least left
    · rw [operators, Grammar.operators]
      refine tracks_bind tracks_sound fun _ => ?_
      split
      · refine tracks_bind (tracks_operatorAhead least) fun ahead => ?_
        cases ahead with
        | none => exact tracks_pure _
        | some ahead =>
          refine tracks_bind (tracks_enter _) fun _ => tracks_bind tracks_advance fun _ => ?_
          split
          · exact tracks_bind (hchain _ _ _ _) fun joined => tracks_bind tracks_leave
              fun _ => hoperators _ _
          · exact tracks_bind (hexpression _) fun right => tracks_bind tracks_leave
              fun _ => hoperators _ _
      · exact tracks_pure _
    · rw [operand, Grammar.operand]
      refine tracks_bind tracks_current fun token => ?_
      cases (if token.kind = .operator then Operator.prefixPower token.value else none) with
      | some power =>
        exact tracks_bind (tracks_enter _) fun _ => tracks_bind tracks_advance fun _ =>
          tracks_bind (hexpression _) fun _ => tracks_bind (tracks_fields _ _) fun _ =>
          tracks_bind tracks_leave fun _ => tracks_pure _
      | none =>
        dsimp only
        split
        · exact tracks_bind (tracks_enter _) fun _ => tracks_bind tracks_advance fun _ =>
            tracks_bind (hexpression _) fun _ => tracks_bind tracks_closeBracket fun _ =>
            tracks_bind tracks_leave fun _ => tracks_fields _ _
        · exact tracks_secondary fuel
    · rw [chain, Grammar.chain]
      refine tracks_bind (hexpression _) fun right => ?_
      dsimp only
      refine tracks_bind tracks_current fun next => tracks_bind tracks_sound fun _ => ?_
      split
      · exact tracks_bind (tracks_retarget _ _) fun _ => tracks_bind tracks_advance
          fun _ => hchain _ _ _ _
      · exact tracks_pure _

theorem tracks_text (fuel : Nat) :
    Tracks tokens (text tokens policy fuel) (Grammar.text policy fuel) := by
  refine tracks_bind ((tracks_productions fuel).1 0) fun value =>
    tracks_bind tracks_current fun token => ?_
  dsimp only
  split
  · exact tracks_bind (tracks_complain _ _) fun _ => tracks_pure _
  · exact tracks_pure _

end Indexed

/-! ### Lists of tokens -/

open Indexed

/-- What a visit tells: the value, the first fault and the open productions. -/
def Visit.verdict {α : Type} : Visit α → Option (Option α × Option (Located ParseFault) × List Frame)
  | .done value p => some (some value, p.fault, p.frames)
  | .broken p => some (none, p.fault, p.frames)
  | .spent | .astray => none

/-- What an outcome tells: the value, the first fault and the open productions. -/
def Outcome.verdict {α : Type} :
    Outcome α → Option (Option α × Option (Located ParseFault) × List Frame)
  | .done value r => some (some value, r.fault, r.frames)
  | .broken r => some (none, r.fault, r.frames)
  | .spent => none

theorem Indexed.Matches.verdict_eq {α : Type} {tokens : List Token} {x : Visit α} {y : Outcome α}
    (h : Matches tokens x y) : x.verdict = y.verdict := by
  cases h with
  | done value h => rw [Visit.verdict, Outcome.verdict, h.fault, h.frames]
  | broken h => rw [Visit.verdict, Outcome.verdict, h.fault, h.frames]
  | spent => rfl

/-- From the first index of a token that is not blank on, the tokens are those without the blank ones
in front. -/
theorem drop_of_findIdx? {tokens : List Token} {first : Nat}
    (h : (tokens.findIdx? fun token => token.kind ≠ .whitespace) = some first) :
    tokens.drop first = tokens.dropWhile Token.isBlank ∧ tokens.drop first ≠ [] := by
  induction tokens generalizing first with
  | nil => cases h
  | cons token tokens ih =>
    rw [List.findIdx?_cons] at h
    by_cases hblank : token.kind = .whitespace
    · have hb : token.isBlank := by rw [Token.isBlank, hblank]; rfl
      rw [if_neg (by simpa using hblank)] at h
      obtain ⟨later, hlater, rfl⟩ := Option.map_eq_some_iff.mp h
      rw [List.dropWhile_cons_of_pos hb]
      exact ih hlater
    · have hb : ¬ token.isBlank := by simpa [Token.isBlank] using hblank
      rw [if_pos (by simpa using hblank)] at h
      cases h
      rw [List.dropWhile_cons_of_neg hb]
      exact ⟨rfl, List.cons_ne_nil _ _⟩

/-- **Reading by index** comes to what reading comes to, and never asks for a token that is not
there.  This holds for any amount of fuel, so also for a reading that has no end. -/
theorem visitText_spec (policy : Policy) (fuel : Nat) (tokens : List Token) :
    visitText policy fuel tokens ≠ .astray ∧
      (visitText policy fuel tokens).verdict = (readText policy fuel tokens).verdict := by
  rw [visitText, readText]
  cases hindex : tokens.findIdx? fun token => token.kind ≠ .whitespace with
  | none =>
    have hblank : tokens.dropWhile Token.isBlank = [] := by
      rw [List.dropWhile_eq_nil_iff]
      intro token htoken
      have hkind := List.findIdx?_eq_none_iff.mp hindex token htoken
      simpa [Token.isBlank] using hkind
    rw [hblank]
    refine ⟨?_, rfl⟩
    intro h
    cases h
  | some first =>
    obtain ⟨hdrop, hne⟩ := drop_of_findIdx? hindex
    obtain ⟨token, rest, hcons⟩ := List.exists_cons_of_ne_nil hne
    rw [← hdrop, hcons]
    have hmatches : Matches tokens (Indexed.text tokens policy fuel { index := first })
        (Grammar.text policy fuel { current := token, rest }) :=
      tracks_text fuel _ _ ⟨hcons, rfl, rfl⟩
    exact ⟨hmatches.ne_astray, hmatches.verdict_eq⟩

end FilterLang
