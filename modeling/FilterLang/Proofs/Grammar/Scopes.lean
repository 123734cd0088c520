import FilterLang.Proofs.Grammar.Reading

/-!
# Productions inside of each other

The grammar keeps its open productions on a stack: a production puts itself on top where it starts,
and whatever is on top is taken off where it ends.  Here it is read once more without a stack.  What
is read as part of a production is read inside of it, and the productions around an action are given
to it, so that no action can open or close one of them for another.

* `Ending` — what an action comes to.  Where it stops, it tells the productions around that place.
* `Scoped` — an action inside of productions, `Scoped.within` one inside of one more, and with them
  the whole grammar.
* `Flat` — an action of a reader that leaves the open productions alone.
* `Mirrors` — an action that keeps a stack does what another one does inside of productions; so do
  the productions (`mirrors_productions`).  A chain of comparisons is several productions in a row,
  which on the stack take each other's place (`MirrorsChain`).
* `readScoped`, `mirrored_runParser` — the same for whole lists of tokens.
* `parseStrict_eq_error_iff_stopped` — where a strict reading stops, and inside of which productions.
-/

namespace FilterLang

/-- What an action inside of productions comes to. -/
inductive Ending (α : Type) where
  /-- a value -/
  | done (value : α) (reader : Reader)
  /-- no value; the fault is in the reader, and `around` are the productions around the place where
  the action stopped, the outermost first -/
  | stopped (reader : Reader) (around : List Frame)
  /-- the fuel did not suffice -/
  | spent

/-- An action inside of productions, which are given with the outermost first. -/
def Scoped (α : Type) := List Frame → Reader → Ending α

/-! ### Actions that leave the open productions alone -/

/-- The outcome with other open productions. -/
def Outcome.withFrames {α : Type} (frames : List Frame) : Outcome α → Outcome α
  | .done value r => .done value (r.withFrames frames)
  | .broken r => .broken (r.withFrames frames)
  | .spent => .spent

namespace Grammar

variable {α β : Type}

/-- An action that neither looks at the open productions nor changes them. -/
def Flat (a : Grammar α) : Prop :=
  ∀ r frames, a (r.withFrames frames) = (a r).withFrames frames

theorem Flat.bind {a : Grammar α} {f : α → Grammar β} (ha : Flat a) (hf : ∀ value, Flat (f value)) :
    Flat (a >>= f) := by
  intro r frames
  rw [bind_apply, bind_apply, ha]
  cases a r with
  | done value s => exact hf value s frames
  | broken s => rfl
  | spent => rfl

theorem flat_pure (value : α) : Flat (pure value : Grammar α) := fun _ _ => rfl

theorem flat_current : Flat current := fun _ _ => rfl

theorem flat_sound : Flat sound := fun _ _ => rfl

theorem flat_complain (policy : Policy) (fault : ParseFault) (location : Location) :
    Flat (complain policy fault location) := by
  intro r frames
  cases policy <;> rfl

theorem flat_fail (fault : ParseFault) (location : Location) :
    Flat (fail fault location : Grammar α) := fun _ _ => rfl

theorem flat_advance (policy : Policy) : Flat (advance policy) := by
  intro r frames
  rw [advance_eq, advance_eq, Reader.rest_withFrames]
  cases r.rest.dropWhile Token.isBlank with
  | nil => exact flat_complain policy _ _ (r.moveTo r.last []) frames
  | cons token rest => rfl

theorem flat_operatorAhead (policy : Policy) (least : Nat) : Flat (operatorAhead policy least) := by
  refine flat_current.bind fun token => ?_
  split
  · exact flat_pure none
  split
  · exact flat_pure _
  have hremaining : Flat remaining := fun _ _ => rfl
  refine hremaining.bind fun rest => (flat_advance policy).bind fun _ =>
    flat_current.bind fun relation => ?_
  split
  · split
    · exact flat_pure _
    · have hresume : Flat (resume token rest) := fun _ _ => rfl
      exact hresume.bind fun _ => flat_pure none
  · exact (flat_complain policy _ _).bind fun _ => flat_pure none

theorem flat_behindNumber (policy : Policy) (token : Token) : Flat (behindNumber policy token) := by
  rw [behindNumber]
  cases Numeral.readInteger? token.value with
  | some value => exact flat_pure _
  | none => exact (flat_complain policy _ _).bind fun _ => flat_pure _

theorem flat_closeBracket (policy : Policy) : Flat (closeBracket policy) := by
  refine flat_current.bind fun token => ?_
  split
  · exact flat_advance policy
  · exact flat_complain policy _ _

/-- The name of a field, behind the dot at hand. -/
def fieldName (policy : Policy) : Grammar Token := do
  advance policy
  let property ← current
  advance policy
  if property.kind ≠ .identifier ∧ property.kind ≠ .operator then
    complain policy .expectedName property.location
  return property

theorem flat_fieldName (policy : Policy) : Flat (fieldName policy) := by
  refine (flat_advance policy).bind fun _ => flat_current.bind fun property =>
    (flat_advance policy).bind fun _ => ?_
  split
  · exact (flat_complain policy _ _).bind fun _ => flat_pure property
  · exact flat_pure property

instance : LawfulMonad Grammar :=
  LawfulMonad.mk' Grammar
    (fun a => by
      funext r
      show (match a r with | .done value s => _ | .broken s => _ | .spent => _) = a r
      cases a r <;> rfl)
    (fun _ _ => rfl)
    (fun a f g => by
      funext r
      show ((a >>= f) >>= g) r = (a >>= fun value => f value >>= g) r
      rw [bind_apply (a >>= f), bind_apply a f, bind_apply a]
      cases a r <;> rfl)

/-- The fields behind a value, with the name of the first one in one piece. -/
theorem fields_succ (policy : Policy) (fuel : Nat) (value : Expr) :
    fields policy (fuel + 1) value = (do
      let token ← current
      if (← sound) && token.is .operator "." then
        enter (.binary value "." false)
        let property ← fieldName policy
        leave
        fields policy fuel (.member (.at property.location) value
          (.identifier (.at property.location) property.value) false)
      else
        return value) := by
  rw [fields]
  refine bind_congr fun token => bind_congr fun isSound => ?_
  by_cases hdot : isSound && token.is .operator "."
  swap
  · rw [if_neg hdot, if_neg hdot]
  rw [if_pos hdot, if_pos hdot]
  simp only [fieldName, bind_assoc]
  refine bind_congr fun _ => bind_congr fun _ => bind_congr fun property => bind_congr fun _ => ?_
  split
  · simp only [bind_assoc, pure_bind]
  · rw [pure_bind]

end Grammar

/-! ### The grammar inside of productions -/

namespace Scoped

open Grammar (Ahead current sound outOfFuel advance complainOf fail operatorAhead closeBracket
  constant? behindNumber conjoin isComparison fieldName)

variable {α β : Type}

/-- Runs `first` and then, if it gave a value, what follows from the value. -/
def andThen (first : Scoped α) (next : α → Scoped β) : Scoped β := fun around r =>
  match first around r with
  | .done value s => next value around s
  | .stopped s inner => .stopped s inner
  | .spent => .spent

instance : Monad Scoped where
  pure value := fun _ r => .done value r
  bind := andThen

/-- A basic action of a reader. -/
def act (action : Grammar α) : Scoped α := fun around r =>
  match action r with
  | .done value s => .done value s
  | .broken s => .stopped s around
  | .spent => .spent

/-- An action inside of one more production. -/
def within (frame : Frame) (body : Scoped α) : Scoped α := fun around => body (around ++ [frame])

/-- The fields behind a value. -/
def fields (policy : Policy) : Nat → Expr → Scoped Expr
  | 0, _ => act outOfFuel
  | fuel + 1, value => do
    let token ← act current
    if (← act sound) && token.is .operator "." then
      let property ← within (.binary value "." false) (act (fieldName policy))
      let name := Expr.identifier (.at property.location) property.value
      fields policy fuel (.member (.at property.location) value name false)
    else
      return value

/-- A name or a string with the fields behind it, or a number, a truth value or `nil`. -/
def secondary (policy : Policy) (fuel : Nat) : Scoped Expr := do
  let token ← act current
  match token.kind with
  | .identifier =>
    act (advance policy)
    match constant? token with
    | some value => return value
    | none =>
      within .secondary (fields policy fuel (.identifier (.at token.location) token.value))
  | .number =>
    act (advance policy)
    act (behindNumber policy token)
  | .string =>
    act (advance policy)
    within .secondary (fields policy fuel (.string (.at token.location) token.value))
  | _ => act (fail (.unexpectedToken token.describe) token.location)

mutual

/-- An expression whose operators bind with at least the power `least`. -/
def expression (policy : Policy) : Nat → Nat → Scoped Expr
  | 0, _ => act outOfFuel
  | fuel + 1, least => do
    let left ← operand policy fuel
    operators policy fuel least left

/-- The operators behind a left side. -/
def operators (policy : Policy) : Nat → Nat → Expr → Scoped Expr
  | 0, _, _ => act outOfFuel
  | fuel + 1, least, left => do
    if ← act sound then
      match ← act (operatorAhead policy least) with
      | some ahead =>
        if Operator.isComparison ahead.token.value then
          within (.binary left ahead.token.value false) (act (advance policy))
          let joined ← chain policy fuel ahead.power left ahead.token none
          operators policy fuel least joined
        else
          let right ← within (.binary left ahead.token.value ahead.negation.isSome) do
            act (advance policy)
            expression policy fuel (ahead.power + 1)
          operators policy fuel least (ahead.join left right)
      | none => return left
    else
      return left

/-- An operand. -/
def operand (policy : Policy) : Nat → Scoped Expr
  | 0 => act outOfFuel
  | fuel + 1 => do
    let token ← act current
    match token.prefixPower? with
    | some power =>
      within (.unary token.value) do
        act (advance policy)
        let inner ← expression policy fuel power
        fields policy fuel (.unary (.at token.location) token.value inner)
    | none =>
      if token.is .bracket "(" then
        let inner ← within .brackets do
          act (advance policy)
          let inner ← expression policy fuel 0
          act (closeBracket policy)
          return inner
        fields policy fuel inner
      else
        secondary policy fuel

/-- The right side of the comparison `token`, and the comparisons that follow it. -/
def chain (policy : Policy) : Nat → Nat → Expr → Token → Option Expr → Scoped Expr
  | 0, _, _, _, _ => act outOfFuel
  | fuel + 1, power, left, token, before => do
    let right ← within (.binary left token.value false) (expression policy fuel (power + 1))
    let joined := conjoin before token left right
    let next ← act current
    if isComparison next && (← act sound) then
      within (.binary right next.value false) (act (advance policy))
      chain policy fuel power right next (some joined)
    else
      return joined

end

/-- A whole text: an expression, and then the end or the caret. -/
def text (policy : Policy) (fuel : Nat) : Scoped Expr := do
  let value ← expression policy fuel 0
  let token ← act current
  if token.kind ≠ .eof ∧ token.kind ≠ .caret then
    act (complainOf policy token)
  return value

end Scoped

/-- Reads a list of tokens as a whole text, which is inside of no production. -/
def readScoped (policy : Policy) (tokens : List Token) : Ending Expr :=
  match tokens.dropWhile Token.isBlank with
  | [] => .stopped { current := default, rest := [], fault := some missingExpression } []
  | token :: rest => Scoped.text policy (parserFuel tokens.length) [] { current := token, rest }

namespace Grammar

variable {α β : Type}

/-! ### The two readings -/

/-- What an action that keeps a stack comes to is what an action inside of productions does.  With a
value it leaves open what `Left` says, and where it breaks off, the open productions are the ones
around that place. -/
inductive Mirrored (Left : List Frame → Prop) : Outcome α → Ending α → Prop where
  | done (value : α) (r : Reader) {frames : List Frame} (h : Left frames) :
      Mirrored Left (.done value (r.withFrames frames)) (.done value r)
  | stopped (r : Reader) (around : List Frame) :
      Mirrored Left (.broken (r.withFrames around.reverse)) (.stopped r around)
  | spent : Mirrored Left .spent .spent

/-- With the productions `frames` open, the action does what `b` does. -/
def MirrorsAt (frames : List Frame) (Left : List Frame → Prop) (a : Grammar α)
    (b : Reader → Ending α) : Prop :=
  ∀ r, Mirrored Left (a (r.withFrames frames)) (b r)

/-- The action does what `b` does inside of the productions that are open, and leaves them open. -/
def Mirrors (a : Grammar α) (b : Scoped α) : Prop :=
  ∀ around : List Frame, MirrorsAt around.reverse (· = around.reverse) a (b around)

/-- **Sequences.**  The second part starts with the productions that the first one leaves open, and
with a value that the first one gives. -/
theorem MirrorsAt.bind {fs around : List Frame} {P Q : List Frame → Prop} {a : Grammar α}
    {f : α → Grammar β} {b : Scoped α} {g : α → Scoped β} (hab : MirrorsAt fs P a (b around))
    (hfg : ∀ value gs, P gs → (∃ r s, a r = .done value s) →
      MirrorsAt gs Q (f value) (g value around)) :
    MirrorsAt fs Q (a >>= f) ((b >>= g) around) := by
  intro r
  show Mirrored Q _ (Scoped.andThen b g around r)
  rw [bind_apply, Scoped.andThen]
  have h := hab r
  generalize hx : a (r.withFrames fs) = x, b around r = y at h
  cases h with
  | done value s hs => exact hfg value _ hs ⟨_, _, hx⟩ s
  | stopped s around => exact .stopped s around
  | spent => exact .spent

theorem Mirrors.bind {a : Grammar α} {f : α → Grammar β} {b : Scoped α} {g : α → Scoped β}
    (hab : Mirrors a b) (hfg : ∀ value, Mirrors (f value) (g value)) :
    Mirrors (a >>= f) (b >>= g) := by
  intro around
  refine (hab around).bind ?_
  rintro value _ rfl -
  exact hfg value around

theorem mirrors_pure (value : α) : Mirrors (pure value) (pure value) :=
  fun _ r => .done value r rfl

theorem Flat.mirrors {a : Grammar α} (h : Flat a) : Mirrors a (Scoped.act a) := by
  intro around r
  rw [h, Scoped.act]
  cases a r with
  | done value s => exact .done value s rfl
  | broken s => exact .stopped s around
  | spent => exact .spent

theorem mirrors_outOfFuel : Mirrors (outOfFuel : Grammar α) (Scoped.act outOfFuel) :=
  fun _ _ => .spent

/-- What is open in front of an action that gives a value is open behind it. -/
theorem Mirrors.frames_eq {a : Grammar α} {b : Scoped α} (hab : Mirrors a b) {value : α}
    {r s : Reader} (h : a r = .done value s) : s.frames = r.frames := by
  have hr := hab r.frames.reverse r
  rw [List.reverse_reverse] at hr
  change Mirrored _ (a r) _ at hr
  rw [h] at hr
  generalize b r.frames.reverse r = y at hr
  cases hr with
  | done _ _ hs => exact hs

/-- With a production on the stack, an action does what another one does inside of it. -/
theorem Mirrors.within {a : Grammar α} {b : Scoped α} (h : Mirrors a b) (frame : Frame)
    (around : List Frame) :
    MirrorsAt (frame :: around.reverse) (· = frame :: around.reverse) a
      (Scoped.within frame b around) := by
  have hinner := h (around ++ [frame])
  rw [List.reverse_concat] at hinner
  exact hinner

/-- **A production.**  What is done between opening and closing it is done inside of it. -/
theorem Mirrors.enclosed {a : Grammar α} {b : Scoped α} (h : Mirrors a b) (frame : Frame) :
    Mirrors (enter frame >>= fun _ => a >>= fun value => leave >>= fun _ => pure value)
      (Scoped.within frame b) := by
  intro around r
  have hinner := h.within frame around r
  show Mirrored _ ((a >>= fun value => leave >>= fun _ => pure value)
    (r.withFrames (frame :: around.reverse))) _
  rw [bind_apply]
  generalize a (r.withFrames (frame :: around.reverse)) = x, Scoped.within frame b around r = y
    at hinner
  cases hinner with
  | done value s hs =>
    subst hs
    exact .done value s rfl
  | stopped s inner => exact .stopped s inner
  | spent => exact .spent

/-- A production and what follows behind it. -/
theorem Mirrors.production {a : Grammar α} {f : α → Grammar β} {b : Scoped α} {g : α → Scoped β}
    (hab : Mirrors a b) (frame : Frame) (hfg : ∀ value, Mirrors (f value) (g value)) :
    Mirrors (enter frame >>= fun _ => a >>= fun value => leave >>= fun _ => f value)
      (Scoped.within frame b >>= g) := by
  have h := (hab.enclosed frame).bind hfg
  simpa only [bind_assoc, pure_bind] using h

/-! ### The productions -/

variable {policy : Policy}

theorem mirrors_fields (policy : Policy) (fuel : Nat) (value : Expr) :
    Mirrors (fields policy fuel value) (Scoped.fields policy fuel value) := by
  induction fuel generalizing value with
  | zero => exact mirrors_outOfFuel
  | succ fuel ih =>
    rw [fields_succ, Scoped.fields]
    refine flat_current.mirrors.bind fun token => flat_sound.mirrors.bind fun isSound => ?_
    split
    · exact (flat_fieldName policy).mirrors.production _ fun property => ih _
    · exact mirrors_pure value

theorem mirrors_withFields (policy : Policy) (fuel : Nat) (value : Expr) :
    Mirrors (secondary.withFields policy fuel value)
      (Scoped.within .secondary (Scoped.fields policy fuel value)) :=
  (mirrors_fields policy fuel value).enclosed .secondary

theorem mirrors_secondary (policy : Policy) (fuel : Nat) :
    Mirrors (secondary policy fuel) (Scoped.secondary policy fuel) := by
  rw [secondary, Scoped.secondary]
  refine flat_current.mirrors.bind fun token => ?_
  have hadvance := (flat_advance policy).mirrors
  cases token.kind <;> dsimp only
  case identifier =>
    refine hadvance.bind fun _ => ?_
    show Mirrors (behindName policy fuel token) _
    rw [behindName_eq]
    cases constant? token with
    | some value => exact mirrors_pure value
    | none => exact mirrors_withFields policy fuel _
  case number => exact hadvance.bind fun _ => (flat_behindNumber policy token).mirrors
  case string => exact hadvance.bind fun _ => mirrors_withFields policy fuel _
  all_goals exact (flat_fail _ _).mirrors

/-- In front of each of its rounds the production of a chain is the innermost one.  Behind the chain
another one stands in its place, on top of the same ones. -/
def MirrorsChain (policy : Policy) (fuel : Nat) : Prop :=
  ∀ power left token before (around : List Frame),
    MirrorsAt (.binary left token.value false :: around.reverse) (·.tail = around.reverse)
      (chain policy fuel power left token before)
      (Scoped.chain policy fuel power left token before around)

section Step

variable {fuel : Nat}
  (hexpression : ∀ least, Mirrors (expression policy fuel least)
    (Scoped.expression policy fuel least))

include hexpression

theorem mirrors_operand_succ :
    Mirrors (operand policy (fuel + 1)) (Scoped.operand policy (fuel + 1)) := by
  rw [operand, Scoped.operand]
  refine flat_current.mirrors.bind fun token => ?_
  have hadvance := (flat_advance policy).mirrors
  rw [Token.prefixPower?]
  cases if token.kind = .operator then Operator.prefixPower token.value else none with
  | some power =>
    have hinner := hadvance.bind fun _ => (hexpression power).bind fun inner =>
      mirrors_fields policy fuel (.unary (.at token.location) token.value inner)
    simpa only [bind_assoc] using hinner.enclosed (.unary token.value)
  | none =>
    dsimp only
    split
    · have hinner := hadvance.bind fun _ => (hexpression 0).bind fun inner =>
        (flat_closeBracket policy).mirrors.bind fun _ => mirrors_pure inner
      simpa only [bind_assoc, pure_bind] using
        hinner.production .brackets (mirrors_fields policy fuel)
    · exact mirrors_secondary policy fuel

/-- A round: what takes the place of its production is the production of the next one. -/
theorem mirrorsChain_succ (hchain : MirrorsChain policy fuel) : MirrorsChain policy (fuel + 1) := by
  intro power left token before around
  rw [chain_eq, Scoped.chain]
  refine ((hexpression _).within _ around).bind ?_
  rintro right _ rfl - r
  show Mirrored _ ((if isComparison r.current && r.fault.isNone then _ else _ : Grammar Expr) _)
    ((if isComparison r.current && r.fault.isNone then _ else _ : Scoped Expr) around r)
  split
  · refine ((flat_advance policy).mirrors.within (.binary right r.current.value false) around).bind
      ?_ r
    rintro _ _ rfl -
    exact hchain _ _ _ _ around
  · exact .done _ r rfl

theorem mirrors_operators_succ
    (hoperators : ∀ least left, Mirrors (operators policy fuel least left)
      (Scoped.operators policy fuel least left))
    (hchain : MirrorsChain policy fuel) (least : Nat) (left : Expr) :
    Mirrors (operators policy (fuel + 1) least left)
      (Scoped.operators policy (fuel + 1) least left) := by
  have hadvance := (flat_advance policy).mirrors
  rw [operators, Scoped.operators]
  refine flat_sound.mirrors.bind fun isSound => ?_
  split
  swap
  · exact mirrors_pure left
  intro around
  refine ((flat_operatorAhead policy least).mirrors around).bind ?_
  rintro ahead _ rfl ⟨r, s, hahead⟩
  cases ahead with
  | none => exact mirrors_pure left around
  | some ahead =>
    dsimp only
    split
    · rename_i hcomparison
      rw [negation_of_operatorAhead hahead hcomparison]
      refine (hadvance.within (.binary left ahead.token.value false) around).bind ?_
      rintro _ _ rfl -
      refine (hchain ahead.power left ahead.token none around).bind ?_
      intro joined frames hframes _ r
      rw [leave_bind]
      show Mirrored _ (operators policy fuel least joined (r.withFrames frames.tail)) _
      rw [hframes]
      exact hoperators least joined around r
    · have hright := (hadvance.bind fun _ => hexpression (ahead.power + 1)).production
        (.binary left ahead.token.value ahead.negation.isSome)
        fun right => hoperators least (ahead.join left right)
      simp only [bind_assoc] at hright
      exact hright around

end Step

/-- **The productions** do on their stack what they do inside of each other. -/
theorem mirrors_productions (policy : Policy) (fuel : Nat) :
    (∀ least, Mirrors (expression policy fuel least) (Scoped.expression policy fuel least)) ∧
    (∀ least left, Mirrors (operators policy fuel least left)
      (Scoped.operators policy fuel least left)) ∧
    Mirrors (operand policy fuel) (Scoped.operand policy fuel) ∧
    MirrorsChain policy fuel := by
  induction fuel with
  | zero =>
    refine ⟨fun _ => ?_, fun _ _ => ?_, ?_, fun _ _ _ _ _ _ => ?_⟩
    · rw [expression, Scoped.expression]
      exact mirrors_outOfFuel
    · rw [operators, Scoped.operators]
      exact mirrors_outOfFuel
    · rw [operand, Scoped.operand]
      exact mirrors_outOfFuel
    · rw [chain, Scoped.chain]
      exact .spent
  | succ fuel ih =>
    obtain ⟨hexpression, hoperators, hoperand, hchain⟩ := ih
    refine ⟨fun least => ?_, mirrors_operators_succ hexpression hoperators hchain,
      mirrors_operand_succ hexpression, mirrorsChain_succ hexpression hchain⟩
    rw [expression, Scoped.expression]
    exact hoperand.bind fun left => hoperators least left

theorem mirrors_text (policy : Policy) (fuel : Nat) :
    Mirrors (text policy fuel) (Scoped.text policy fuel) := by
  refine ((mirrors_productions policy fuel).1 0).bind fun value => flat_current.mirrors.bind
    fun token => ?_
  dsimp only
  split
  · exact (flat_complain policy _ _).mirrors.bind fun _ => mirrors_pure value
  · exact mirrors_pure value

end Grammar

/-! ### Lists of tokens -/

open Grammar

/-- **Reading with a stack is reading inside of productions.** -/
theorem mirrored_runParser (policy : Policy) (tokens : List Token) :
    Mirrored (· = []) (runParser policy tokens) (readScoped policy tokens) := by
  rw [runParser_eq_readText, readText, readScoped]
  cases tokens.dropWhile Token.isBlank with
  | nil => exact .stopped { current := default, rest := [], fault := some missingExpression } []
  | cons token rest => exact mirrors_text policy _ [] { current := token, rest }

/-- Behind a text no production is open. -/
theorem frames_of_runParser {policy : Policy} {tokens : List Token} {e : Expr} {s : Reader}
    (h : runParser policy tokens = .done e s) : s.frames = [] := by
  have hmirrored := mirrored_runParser policy tokens
  rw [h] at hmirrored
  generalize readScoped policy tokens = y at hmirrored
  cases hmirrored with
  | done _ _ hframes => exact hframes

/-- **A strict reading stops with those productions open that are around that place.** -/
theorem parseStrict_eq_error_iff_stopped {tokens : List Token} {stop : Interruption} :
    parseStrict tokens = .error stop ↔
      ∃ s, readScoped .abort tokens = .stopped s stop.frames.reverse ∧
        s.fault = some stop.fault := by
  have hmirrored := mirrored_runParser .abort tokens
  rw [parseStrict_eq_error_iff]
  generalize runParser .abort tokens = x, readScoped .abort tokens = y at hmirrored
  cases hmirrored with
  | done | spent => simp
  | stopped r around =>
    constructor
    · rintro ⟨_, ⟨⟩, hfault, hframes⟩
      have haround : around = stop.frames.reverse := by
        rw [← hframes]
        exact (List.reverse_reverse around).symm
      exact ⟨r, by rw [haround], hfault⟩
    · rintro ⟨s, hs, hfault⟩
      injection hs with hr haround
      subst hr haround
      exact ⟨_, rfl, hfault, List.reverse_reverse stop.frames⟩

end FilterLang
