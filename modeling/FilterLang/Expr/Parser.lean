import FilterLang.Expr
import FilterLang.Expr.Numeral
import FilterLang.Operator
import FilterLang.Token

/-!
# From tokens to trees

Expressions are read by precedence climbing.  One grammar serves two policies: `collect` notes the
first fault and goes on to a best tree, `abort` stops at it and leaves the productions that were
open there.

* **`ParseFault`** — what can be wrong with the structure of a text, and its **`message`**.
* **`Frame`** — a production that has been started and not finished.
* **`Reader`** — the token at hand, the tokens behind it, the first fault and the open frames.
* **`Grammar`** — an action on a reader.  It gives a value, or breaks off, or is out of fuel.
* **`Grammar.expression`** and its companions — the grammar.  An operand is a name, number, string,
  bracketed expression or prefixed operand, with fields behind it; operands are joined by binary
  operators; a run of comparisons is a chain.
* **`run`** — the grammar on a list of tokens.  A list that ends in an end token or a caret never
  runs out of fuel.
* **`parse`** and **`parseStrict`** — the two policies.
-/

namespace FilterLang

/-- What can be wrong with the structure of a text. -/
inductive ParseFault where
  /-- a token that cannot stand here, as a message shows it -/
  | unexpectedToken (shown : String)
  /-- the tokens ended inside an expression -/
  | unexpectedEnd
  /-- a dot without a name behind it -/
  | expectedName
  /-- a number that is no integer of the language -/
  | invalidInteger (text : String)
deriving DecidableEq

/-- The wording of a fault. -/
def ParseFault.message : ParseFault → String
  | unexpectedToken shown => "unexpected token " ++ shown
  | unexpectedEnd => "unexpected end of expression"
  | expectedName => "expected name"
  | invalidInteger text => "invalid integer literal: " ++ text

/-- A production that has been started. -/
inductive Frame where
  /-- the right side of `left operator`, or the name behind a dot -/
  | binary (left : Expr) (operator : String) (negate : Bool)
  /-- the operand of a prefix operator -/
  | unary (operator : String)
  /-- the inside of a pair of brackets -/
  | brackets
  /-- the fields behind a name or a string -/
  | secondary

/-- What becomes of a fault. -/
inductive Policy where
  /-- the first fault is noted and reading goes on -/
  | collect
  /-- reading stops at the first fault -/
  | abort
deriving DecidableEq

/-- The state of reading a list of tokens. -/
structure Reader where
  /-- the token at hand -/
  current : Token
  /-- the tokens behind it -/
  rest : List Token
  /-- the first fault -/
  fault : Option (Located ParseFault) := none
  /-- the open productions, the innermost first -/
  frames : List Frame := []

/-- What an action on a reader comes to. -/
inductive Outcome (α : Type) where
  /-- a value -/
  | done (value : α) (reader : Reader)
  /-- no value; the fault is in the reader -/
  | broken (reader : Reader)
  /-- the fuel did not suffice -/
  | spent

/-- An action on a reader. -/
def Grammar (α : Type) := Reader → Outcome α

namespace Grammar

variable {α β : Type}

/-- Runs `first` and then, if it gave a value, what follows from the value. -/
def andThen (first : Grammar α) (next : α → Grammar β) : Grammar β := fun r =>
  match first r with
  | .done value r => next value r
  | .broken r => .broken r
  | .spent => .spent

instance : Monad Grammar where
  pure value := fun r => .done value r
  bind := andThen

/-! ### The reader -/

/-- The token at hand. -/
def current : Grammar Token := fun r => .done r.current r

/-- Whether no fault has been noted. -/
def sound : Grammar Bool := fun r => .done r.fault.isNone r

/-- Out of fuel. -/
def outOfFuel : Grammar α := fun _ => .spent

/-- Notes a fault, unless there is an earlier one. -/
def note (fault : ParseFault) (location : Location) (r : Reader) : Reader :=
  { r with fault := r.fault.or (some ⟨fault, location⟩) }

/-- Notes a fault that reading may survive. -/
def complain (policy : Policy) (fault : ParseFault) (location : Location) : Grammar Unit := fun r =>
  match policy with
  | .collect => .done () (note fault location r)
  | .abort => .broken (note fault location r)

/-- Notes a fault that leaves nothing to build. -/
def fail (fault : ParseFault) (location : Location) : Grammar α := fun r =>
  .broken (note fault location r)

/-- Complains that a token cannot stand where it does. -/
def complainOf (policy : Policy) (token : Token) : Grammar Unit :=
  complain policy (.unexpectedToken token.describe) token.location

/-- Moves on to the next token that is not blank.  Where there is none, the last token of all stays
at hand. -/
def advance (policy : Policy) : Grammar Unit := fun r =>
  go r.rest r.current r
where
  /-- Moves over `tokens`, which follow the token `last`. -/
  go (tokens : List Token) (last : Token) : Grammar Unit := fun r =>
    match tokens with
    | [] => complain policy .unexpectedEnd last.location { r with current := last, rest := [] }
    | token :: tokens =>
      if token.kind = .whitespace then go tokens token r
      else .done () { r with current := token, rest := tokens }

/-- Puts another token at hand, with the tokens behind it. -/
def resume (token : Token) (rest : List Token) : Grammar Unit := fun r =>
  .done () { r with current := token, rest }

/-- The tokens behind the one at hand. -/
def remaining : Grammar (List Token) := fun r => .done r.rest r

/-- Opens a production. -/
def enter (frame : Frame) : Grammar Unit := fun r =>
  .done () { r with frames := frame :: r.frames }

/-- Closes the innermost production. -/
def leave : Grammar Unit := fun r =>
  .done () { r with frames := r.frames.tail }

/-- Makes the innermost production, if it is binary, wait for the right side of another operator
with another left side. -/
def retarget (left : Expr) (operator : String) : Grammar Unit := fun r =>
  match r.frames with
  | .binary _ _ negate :: frames =>
    .done () { r with frames := .binary left operator negate :: frames }
  | _ => .done () r

/-! ### Operators -/

/-- A binary operator at hand. -/
structure Ahead where
  token : Token
  power : Nat
  /-- the place of the `not` in front of it -/
  negation : Option Location

/-- The operator itself, if it binds with at least the power `least`. -/
def Ahead.ofToken? (least : Nat) (token : Token) (negation : Option Location) : Option Ahead :=
  match Operator.binaryPower token.value with
  | some power => if least ≤ power then some ⟨token, power, negation⟩ else none
  | none => none

/-- Whether a token is a relation that `not` may precede. -/
def isNegatable (token : Token) : Bool :=
  token.kind == .operator && Operator.isNegatable token.value

/-- The binary operator at hand, if it binds with at least the power `least`.  A `not` must have a
relation behind it; where that relation binds too weakly, the `not` stays at hand for it. -/
def operatorAhead (policy : Policy) (least : Nat) : Grammar (Option Ahead) := do
  let token ← current
  if token.kind ≠ .operator then
    return none
  else if token.value ≠ "not" then
    return Ahead.ofToken? least token none
  else
    let rest ← remaining
    advance policy
    let relation ← current
    if isNegatable relation then
      match Ahead.ofToken? least relation (some token.location) with
      | some ahead => return some ahead
      | none =>
        resume token rest
        return none
    else
      complainOf policy relation
      return none

/-! ### Operands -/

/-- Reads the fields behind a value.  Operators are names there, so that a field may be called
like one. -/
def fields (policy : Policy) : Nat → Expr → Grammar Expr
  | 0, _ => outOfFuel
  | fuel + 1, value => do
    let token ← current
    if (← sound) && token.is .operator "." then
      enter (.binary value "." false)
      advance policy
      let property ← current
      advance policy
      if property.kind ≠ .identifier ∧ property.kind ≠ .operator then
        complain policy .expectedName property.location
      leave
      let name := Expr.identifier (.at property.location) property.value
      fields policy fuel (.member (.at property.location) value name false)
    else
      return value

/-- Reads a name or a string with the fields behind it, or a number, a truth value or `nil`. -/
def secondary (policy : Policy) (fuel : Nat) : Grammar Expr := do
  let token ← current
  let note := Note.at token.location
  match token.kind with
  | .identifier =>
    advance policy
    if token.value = "true" then
      return .bool note true
    else if token.value = "false" then
      return .bool note false
    else if token.value = "nil" then
      return .nil note
    else
      withFields (.identifier note token.value)
  | .number =>
    advance policy
    match Numeral.readInteger? token.value with
    | some value => return .integer note value
    | none =>
      complain policy (.invalidInteger token.value) token.location
      return .integer note 0
  | .string =>
    advance policy
    withFields (.string note token.value)
  | _ => fail (.unexpectedToken token.describe) token.location
where
  /-- Reads the fields behind a name or a string. -/
  withFields (value : Expr) : Grammar Expr := do
    enter .secondary
    let value ← fields policy fuel value
    leave
    return value

/-- Moves behind a closing bracket, or complains of what stands in its place. -/
def closeBracket (policy : Policy) : Grammar Unit := do
  let token ← current
  if token.is .bracket ")" then advance policy else complainOf policy token

/-! ### The grammar -/

/-- The tree of `left operator right`, negated if the operator has a `not` in front of it. -/
def Ahead.join (ahead : Ahead) (left right : Expr) : Expr :=
  let joined := Expr.binary (.at ahead.token.location) ahead.token.value left right
  match ahead.negation with
  | some location => .unary (.at location) "not" joined
  | none => joined

mutual

/-- Reads an expression whose operators bind with at least the power `least`. -/
def expression (policy : Policy) : Nat → Nat → Grammar Expr
  | 0, _ => outOfFuel
  | fuel + 1, least => do
    let left ← operand policy fuel
    operators policy fuel least left

/-- Reads the operators behind a left side, as long as they bind with at least the power `least`. -/
def operators (policy : Policy) : Nat → Nat → Expr → Grammar Expr
  | 0, _, _ => outOfFuel
  | fuel + 1, least, left => do
    if ← sound then
      match ← operatorAhead policy least with
      | some ahead =>
        enter (.binary left ahead.token.value ahead.negation.isSome)
        advance policy
        if Operator.isComparison ahead.token.value then
          let joined ← chain policy fuel ahead.power left ahead.token none
          leave
          operators policy fuel least joined
        else
          let right ← expression policy fuel (ahead.power + 1)
          leave
          operators policy fuel least (ahead.join left right)
      | none => return left
    else
      return left

/-- Reads an operand. -/
def operand (policy : Policy) : Nat → Grammar Expr
  | 0 => outOfFuel
  | fuel + 1 => do
    let token ← current
    match if token.kind = .operator then Operator.prefixPower token.value else none with
    | some power =>
      enter (.unary token.value)
      advance policy
      let inner ← expression policy fuel power
      let value ← fields policy fuel (.unary (.at token.location) token.value inner)
      leave
      return value
    | none =>
      if token.is .bracket "(" then
        enter .brackets
        advance policy
        let inner ← expression policy fuel 0
        closeBracket policy
        leave
        fields policy fuel inner
      else
        secondary policy fuel

/-- Reads the right side of the comparison `token`, whose left side is `left`, and the comparisons
that follow it.  The conjunction of the earlier ones is `before`. -/
def chain (policy : Policy) : Nat → Nat → Expr → Token → Option Expr → Grammar Expr
  | 0, _, _, _, _ => outOfFuel
  | fuel + 1, power, left, token, before => do
    let right ← expression policy fuel (power + 1)
    let note := Note.at token.location
    let comparison := Expr.binary note token.value left right
    let joined := match before with
      | some before => .binary note "&&" before comparison
      | none => comparison
    let next ← current
    if next.kind == .operator && Operator.isComparison next.value && (← sound) then
      retarget right next.value
      advance policy
      chain policy fuel power right next (some joined)
    else
      return joined

end

/-- Reads a whole text: an expression, and then the end or the caret. -/
def text (policy : Policy) (fuel : Nat) : Grammar Expr := do
  let value ← expression policy fuel 0
  let token ← current
  if token.kind ≠ .eof ∧ token.kind ≠ .caret then
    complainOf policy token
  return value

end Grammar

/-- The fuel that a number of tokens can use up.  Between two tokens the grammar descends through
at most three of its productions. -/
def parserFuel (tokens : Nat) : Nat := 4 * tokens + 8

/-- The fault of a list without any token to read. -/
def missingExpression : Located ParseFault := ⟨.unexpectedEnd, .origin⟩

/-- Reads a list of tokens as a whole text. -/
def runParser (policy : Policy) (tokens : List Token) : Outcome Expr :=
  match tokens.dropWhile (·.kind == .whitespace) with
  | [] => .broken { current := default, rest := [], fault := some missingExpression }
  | token :: rest =>
    Grammar.text policy (parserFuel tokens.length) { current := token, rest }

/-- The best tree of a list of tokens, and the first fault. -/
structure Parse where
  /-- the tree, unless no operand could be built -/
  tree : Option Expr
  fault : Option (Located ParseFault)

/-- Reads a list of tokens, past its faults. -/
def parse (tokens : List Token) : Parse :=
  match runParser .collect tokens with
  | .done tree reader => ⟨some tree, reader.fault⟩
  | .broken reader => ⟨none, reader.fault⟩
  | .spent => ⟨none, none⟩

/-- The tree, if there is no fault. -/
def Parse.toExcept (result : Parse) : Except (Located ParseFault) Expr :=
  match result.fault, result.tree with
  | some fault, _ => .error fault
  | none, some tree => .ok tree
  | none, none => .error missingExpression

/-- Where a strict reading stopped. -/
structure Interruption where
  fault : Located ParseFault
  /-- the productions that were open, the innermost first -/
  frames : List Frame

/-- The innermost production that was open. -/
def Interruption.top? (stop : Interruption) : Option Frame := stop.frames.head?

/-- Reads a list of tokens up to its first fault. -/
def parseStrict (tokens : List Token) : Except Interruption Expr :=
  match runParser .abort tokens with
  | .done tree reader =>
    match reader.fault with
    | none => .ok tree
    | some fault => .error ⟨fault, reader.frames⟩
  | .broken reader => .error ⟨reader.fault.getD missingExpression, reader.frames⟩
  | .spent => .error ⟨missingExpression, []⟩

end FilterLang
