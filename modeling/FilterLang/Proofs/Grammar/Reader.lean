import FilterLang.Expr.Parser
import Mathlib.Data.List.Basic

/-!
# The actions of a reader

* `Outcome.reader?` — the reader an action leaves.
* `Reader.last` — the last token of all, which stays at hand when the tokens run out.
* `Reader.view` — the tokens from the one at hand on, without the blank ones behind it.  Moving on
  drops the head of the view (`advance_of_view`).
* `Grammar.advance_eq` — moving on, without its loop.
-/

namespace FilterLang

/-- The reader that an action leaves, if it had enough fuel. -/
def Outcome.reader? {α : Type} : Outcome α → Option Reader
  | .done _ reader => some reader
  | .broken reader => some reader
  | .spent => none

/-- Whether a token is blank. -/
def Token.isBlank (token : Token) : Bool := token.kind == .whitespace

/-- The power of a prefix operator. -/
def Token.prefixPower? (token : Token) : Option Nat :=
  if token.kind = .operator then Operator.prefixPower token.value else none

/-- The tokens that are not blank. -/
def solid (tokens : List Token) : List Token := tokens.filter fun token => !token.isBlank

namespace Reader

/-- The last token of all. -/
def last (r : Reader) : Token := r.rest.getLast?.getD r.current

/-- The token at hand and the tokens behind it that are not blank. -/
def view (r : Reader) : List Token := r.current :: solid r.rest

/-- The reader at other tokens. -/
def moveTo (r : Reader) (current : Token) (rest : List Token) : Reader := { r with current, rest }

/-- The reader with other open productions. -/
def withFrames (r : Reader) (frames : List Frame) : Reader := { r with frames }

@[simp] theorem rest_withFrames (r : Reader) (frames : List Frame) :
    (r.withFrames frames).rest = r.rest := rfl

@[simp] theorem view_withFrames (r : Reader) (frames : List Frame) :
    (r.withFrames frames).view = r.view := rfl

end Reader

namespace Grammar

variable {α β : Type}

/-! ### Sequences -/

theorem bind_apply (a : Grammar α) (f : α → Grammar β) (r : Reader) :
    (a >>= f) r = match a r with
      | .done value r => f value r
      | .broken r => .broken r
      | .spent => .spent := rfl

theorem bind_done {a : Grammar α} {r r' : Reader} {value : α} (h : a r = .done value r')
    (f : α → Grammar β) : (a >>= f) r = f value r' := by
  rw [bind_apply, h]

theorem bind_broken {a : Grammar α} {r r' : Reader} (h : a r = .broken r') (f : α → Grammar β) :
    (a >>= f) r = .broken r' := by
  rw [bind_apply, h]

theorem bind_spent {a : Grammar α} {r : Reader} (h : a r = .spent) (f : α → Grammar β) :
    (a >>= f) r = .spent := by
  rw [bind_apply, h]

/-- A sequence gives a value only through the values of its parts. -/
theorem bind_eq_done {a : Grammar α} {f : α → Grammar β} {r r' : Reader} {value : β}
    (h : (a >>= f) r = .done value r') : ∃ v s, a r = .done v s ∧ f v s = .done value r' := by
  rw [bind_apply] at h
  cases ha : a r with
  | done v s =>
    rw [ha] at h
    exact ⟨v, s, rfl, h⟩
  | broken s =>
    rw [ha] at h
    cases h
  | spent =>
    rw [ha] at h
    cases h

@[simp] theorem current_bind (f : Token → Grammar β) (r : Reader) :
    (current >>= f) r = f r.current r := rfl

@[simp] theorem sound_bind (f : Bool → Grammar β) (r : Reader) :
    (sound >>= f) r = f r.fault.isNone r := rfl

@[simp] theorem remaining_bind (f : List Token → Grammar β) (r : Reader) :
    (remaining >>= f) r = f r.rest r := rfl

@[simp] theorem enter_bind (frame : Frame) (f : Unit → Grammar β) (r : Reader) :
    (enter frame >>= f) r = f () (r.withFrames (frame :: r.frames)) := rfl

@[simp] theorem leave_bind (f : Unit → Grammar β) (r : Reader) :
    (leave >>= f) r = f () (r.withFrames r.frames.tail) := rfl

/-! ### Moving on -/

/-- Moving on reaches the next token that is not blank, or the end of the tokens. -/
theorem advance_eq (policy : Policy) (r : Reader) :
    advance policy r = match r.rest.dropWhile Token.isBlank with
      | token :: rest => .done () (r.moveTo token rest)
      | [] => complain policy .unexpectedEnd r.last.location (r.moveTo r.last []) := by
  have hgo : ∀ (tokens : List Token) (last : Token),
      advance.go policy tokens last r = match tokens.dropWhile Token.isBlank with
        | token :: rest => .done () (r.moveTo token rest)
        | [] => complain policy .unexpectedEnd (tokens.getLast?.getD last).location
            (r.moveTo (tokens.getLast?.getD last) []) := by
    intro tokens
    induction tokens with
    | nil =>
      intro last
      rfl
    | cons token tokens ih =>
      intro last
      rw [advance.go]
      by_cases hblank : token.kind = .whitespace
      · have hb : token.isBlank := by simp [Token.isBlank, hblank]
        rw [if_pos hblank, ih, List.dropWhile_cons_of_pos hb, List.getLast?_cons]
        rfl
      · have hb : ¬ token.isBlank := by simp [Token.isBlank, hblank]
        rw [if_neg hblank, List.dropWhile_cons_of_neg hb]
        rfl
  exact hgo r.rest r.current

end Grammar

/-- Behind the leading blank tokens the list ends as it does. -/
theorem getLast?_of_dropWhile {tokens : List Token} {token : Token} {rest : List Token}
    (h : tokens.dropWhile Token.isBlank = token :: rest) :
    tokens.getLast? = some (rest.getLast?.getD token) := by
  have hsuffix : (token :: rest) <:+ tokens := h ▸ List.dropWhile_suffix _
  obtain ⟨front, rfl⟩ := hsuffix
  rw [List.getLast?_append, List.getLast?_cons]
  rfl

/-- The tokens that are not blank start behind the leading blank ones. -/
theorem solid_eq_solid_dropWhile (tokens : List Token) :
    solid tokens = solid (tokens.dropWhile Token.isBlank) := by
  induction tokens with
  | nil => rfl
  | cons token tokens ih =>
    by_cases hblank : token.isBlank
    · rw [List.dropWhile_cons_of_pos hblank, ← ih, solid, List.filter_cons_of_neg (by simpa)]
      rfl
    · rw [List.dropWhile_cons_of_neg hblank]

theorem solid_eq_cons {tokens : List Token} {token : Token} {rest : List Token}
    (h : tokens.dropWhile Token.isBlank = token :: rest) : solid tokens = token :: solid rest := by
  have hblank : ¬ token.isBlank := by
    have := List.head?_dropWhile_not Token.isBlank tokens
    simpa [h] using this
  rw [solid_eq_solid_dropWhile, h, solid, List.filter_cons_of_pos (by simpa using hblank)]
  rfl

theorem solid_eq_nil {tokens : List Token} (h : tokens.dropWhile Token.isBlank = []) :
    solid tokens = [] := by
  rw [solid_eq_solid_dropWhile, h]
  rfl

namespace Grammar

/-- Where another token is in view, moving on drops the head of the view. -/
theorem advance_of_view (policy : Policy) {r : Reader} {t u : Token} {us : List Token}
    (h : r.view = t :: u :: us) :
    ∃ rest, advance policy r = .done () (r.moveTo u rest) ∧ solid rest = us := by
  rw [advance_eq]
  cases hdrop : r.rest.dropWhile Token.isBlank with
  | nil =>
    rw [Reader.view, solid_eq_nil hdrop] at h
    cases h
  | cons token rest =>
    rw [Reader.view, solid_eq_cons hdrop] at h
    injection h with _ h
    injection h with hu hus
    subst hu
    exact ⟨rest, rfl, hus⟩

/-! ### Looking for an operator -/

theorem operatorAhead_of_kind (policy : Policy) (least : Nat) {r : Reader}
    (h : r.current.kind ≠ .operator) : operatorAhead policy least r = .done none r := by
  rw [operatorAhead, current_bind, if_pos h]
  rfl

theorem operatorAhead_of_ne_not (policy : Policy) (least : Nat) {r : Reader}
    (hkind : r.current.kind = .operator) (hnot : r.current.value ≠ "not") :
    operatorAhead policy least r = .done (Ahead.ofToken? least r.current none) r := by
  rw [operatorAhead, current_bind,
    if_neg (not_not_intro hkind), if_pos hnot]
  rfl

/-- What a `not` comes to, once the next token is at hand in the reader `s`. -/
def afterNot (policy : Policy) (least : Nat) (r s : Reader) : Outcome (Option Ahead) :=
  if isNegatable s.current then
    match Ahead.ofToken? least s.current (some r.current.location) with
    | some ahead => .done (some ahead) s
    | none => .done none (s.moveTo r.current r.rest)
  else
    (complainOf policy s.current >>= fun _ => pure none) s

theorem operatorAhead_of_not (policy : Policy) (least : Nat) {r : Reader}
    (hkind : r.current.kind = .operator) (hnot : r.current.value = "not") :
    operatorAhead policy least r =
      match advance policy r with
      | .done _ s => afterNot policy least r s
      | .broken s => .broken s
      | .spent => .spent := by
  rw [operatorAhead, current_bind,
    if_neg (not_not_intro hkind), if_neg (not_not_intro hnot),
    remaining_bind, bind_apply]
  cases advance policy r with
  | done value s =>
    dsimp only
    rw [current_bind, afterNot]
    split
    · cases Ahead.ofToken? least s.current (some r.current.location) <;> rfl
    · rfl
  | broken s => rfl
  | spent => rfl

/-- Moving on needs no fuel. -/
theorem advance_ne_spent (policy : Policy) (r : Reader) : advance policy r ≠ .spent := by
  rw [advance_eq]
  split
  · nofun
  · cases policy <;> nofun

/-! ### Operands -/

theorem operand_of_prefixed (policy : Policy) (fuel : Nat) {r : Reader} {power : Nat}
    (h : r.current.prefixPower? = some power) :
    operand policy (fuel + 1) r =
      (advance policy >>= fun _ => expression policy fuel power >>= fun inner =>
        fields policy fuel (.unary (.at r.current.location) r.current.value inner) >>= fun value =>
        leave >>= fun _ => pure value)
      (r.withFrames (.unary r.current.value :: r.frames)) := by
  rw [Token.prefixPower?] at h
  rw [operand, current_bind, h]
  rfl

theorem operand_of_bracket (policy : Policy) (fuel : Nat) {r : Reader}
    (h : r.current.prefixPower? = none) (hopen : r.current.is .bracket "(") :
    operand policy (fuel + 1) r =
      (advance policy >>= fun _ => expression policy fuel 0 >>= fun inner =>
        closeBracket policy >>= fun _ => leave >>= fun _ => fields policy fuel inner)
      (r.withFrames (.brackets :: r.frames)) := by
  rw [Token.prefixPower?] at h
  rw [operand, current_bind, h]
  dsimp only
  rw [if_pos hopen]
  rfl

theorem operand_of_secondary (policy : Policy) (fuel : Nat) {r : Reader}
    (h : r.current.prefixPower? = none) (hopen : ¬ r.current.is .bracket "(") :
    operand policy (fuel + 1) r = secondary policy fuel r := by
  rw [Token.prefixPower?] at h
  rw [operand, current_bind, h]
  dsimp only
  rw [if_neg hopen]

theorem kind_of_is {t : Token} {kind : TokenKind} {value : String} (h : t.is kind value) :
    t.kind = kind := by
  rw [Token.is, Bool.and_eq_true, beq_iff_eq] at h
  exact h.1

/-- A token of one kind is of no other. -/
theorem kind_ne {t : Token} {kind other : TokenKind} (h : t.kind = kind)
    (hne : kind ≠ other := by decide) : t.kind ≠ other :=
  fun hother => hne (h.symm.trans hother)

theorem prefixPower?_of_kind {t : Token} (h : t.kind ≠ .operator) : t.prefixPower? = none :=
  if_neg h

theorem prefixPower?_of_bracket {t : Token} {value : String} (h : t.is .bracket value) :
    t.prefixPower? = none :=
  prefixPower?_of_kind (kind_ne (kind_of_is h))

/-- A token that is neither an operator nor a bracket starts no further operand. -/
theorem operand_of_plain (policy : Policy) (fuel : Nat) {r : Reader}
    (hoperator : r.current.kind ≠ .operator) (hbracket : r.current.kind ≠ .bracket) :
    operand policy (fuel + 1) r = secondary policy fuel r := by
  exact operand_of_secondary policy fuel (prefixPower?_of_kind hoperator)
    fun h => hbracket (kind_of_is h)

/-- What is behind a name at hand: nothing if it is a constant, and the fields of its value
otherwise. -/
def behindName (policy : Policy) (fuel : Nat) (token : Token) : Grammar Expr :=
  if token.value = "true" then pure (.bool (.at token.location) true)
  else if token.value = "false" then pure (.bool (.at token.location) false)
  else if token.value = "nil" then pure (.nil (.at token.location))
  else secondary.withFields policy fuel (.identifier (.at token.location) token.value)

/-- What is behind a number at hand: nothing, but the number may be no integer. -/
def behindNumber (policy : Policy) (token : Token) : Grammar Expr :=
  match Numeral.readInteger? token.value with
  | some value => pure (.integer (.at token.location) value)
  | none => complain policy (.invalidInteger token.value) token.location >>= fun _ =>
      pure (.integer (.at token.location) 0)

theorem secondary_of_identifier (policy : Policy) (fuel : Nat) {r : Reader}
    (h : r.current.kind = .identifier) :
    secondary policy fuel r = (advance policy >>= fun _ => behindName policy fuel r.current) r := by
  rw [secondary, current_bind, h]
  rfl

theorem secondary_of_number (policy : Policy) (fuel : Nat) {r : Reader}
    (h : r.current.kind = .number) :
    secondary policy fuel r = (advance policy >>= fun _ => behindNumber policy r.current) r := by
  rw [secondary, current_bind, h]
  rfl

theorem secondary_of_string (policy : Policy) (fuel : Nat) {r : Reader}
    (h : r.current.kind = .string) :
    secondary policy fuel r = (advance policy >>= fun _ =>
      secondary.withFields policy fuel (.string (.at r.current.location) r.current.value)) r := by
  rw [secondary, current_bind, h]

theorem secondary_of_other (policy : Policy) (fuel : Nat) {r : Reader}
    (hname : r.current.kind ≠ .identifier) (hnumber : r.current.kind ≠ .number)
    (hstring : r.current.kind ≠ .string) :
    secondary policy fuel r =
      fail (.unexpectedToken r.current.describe) r.current.location r := by
  rw [secondary, current_bind]
  cases h : r.current.kind <;> first | contradiction | rfl

theorem withFields_apply (policy : Policy) (fuel : Nat) (value : Expr) (r : Reader) :
    secondary.withFields policy fuel value r =
      (fields policy fuel value >>= fun value => leave >>= fun _ => pure value)
      (r.withFrames (.secondary :: r.frames)) := rfl

/-! ### Operators behind a left side -/

theorem operators_of_faulty (policy : Policy) (fuel least : Nat) (left : Expr) {r : Reader}
    (h : r.fault ≠ none) : operators policy (fuel + 1) least left r = .done left r := by
  rw [operators, sound_bind, if_neg (by simpa using h)]
  rfl

theorem operators_of_none {policy : Policy} (fuel : Nat) {least : Nat} (left : Expr) {r s : Reader}
    (h : r.fault = none) (ha : operatorAhead policy least r = .done none s) :
    operators policy (fuel + 1) least left r = .done left s := by
  rw [operators, sound_bind, if_pos (by simpa using h), bind_done ha]
  rfl

theorem operators_of_broken {policy : Policy} (fuel : Nat) {least : Nat} (left : Expr) {r s : Reader}
    (h : r.fault = none) (ha : operatorAhead policy least r = .broken s) :
    operators policy (fuel + 1) least left r = .broken s := by
  rw [operators, sound_bind, if_pos (by simpa using h), bind_broken ha]

theorem operators_of_some {policy : Policy} (fuel : Nat) {least : Nat} (left : Expr) {r s : Reader}
    {ahead : Ahead} (h : r.fault = none) (ha : operatorAhead policy least r = .done (some ahead) s) :
    operators policy (fuel + 1) least left r =
      (advance policy >>= fun _ =>
        if Operator.isComparison ahead.token.value then
          chain policy fuel ahead.power left ahead.token none >>= fun joined => leave >>= fun _ =>
            operators policy fuel least joined
        else
          expression policy fuel (ahead.power + 1) >>= fun right => leave >>= fun _ =>
            operators policy fuel least (ahead.join left right))
      (s.withFrames (.binary left ahead.token.value ahead.negation.isSome :: s.frames)) := by
  rw [operators, sound_bind, if_pos (by simpa using h), bind_done ha]
  rfl

/-- The conjunction of the comparisons `before` with one more. -/
def conjoin (before : Option Expr) (token : Token) (left right : Expr) : Expr :=
  let comparison := Expr.binary (.at token.location) token.value left right
  match before with
  | some before => .binary (.at token.location) "&&" before comparison
  | none => comparison

/-- Whether a token is a comparison. -/
def isComparison (token : Token) : Bool :=
  token.kind == .operator && Operator.isComparison token.value

theorem chain_eq (policy : Policy) (fuel power : Nat) (left : Expr) (token : Token)
    (before : Option Expr) :
    chain policy (fuel + 1) power left token before =
      (expression policy fuel (power + 1) >>= fun right => current >>= fun next =>
        sound >>= fun isSound =>
          if isComparison next && isSound then
            retarget right next.value >>= fun _ => advance policy >>= fun _ =>
              chain policy fuel power right next (some (conjoin before token left right))
          else
            pure (conjoin before token left right)) := by
  rw [chain]
  rfl

end Grammar

end FilterLang
