/-!
# Operators

Which words and symbols are operators of an expression, and how tightly they bind.  Every binary
operator groups to the left.

* **`binaryPower`** — the binding power of a binary operator.
* **`prefixPower`** — the binding power of an operator in front of its operand.
* **`isComparison`** — the four operators that chain: `a < b < c` says `a < b && b < c`.
* **`isNegatable`** — the relations that `not` may precede, as in `x not in y`.
* **`isOperatorWord`** — the words that are never names.
* **`givesBool`** / **`givesInt`** — the operators whose result the checker knows.
-/

namespace FilterLang.Operator

/-- The binding power of a binary operator. -/
def binaryPower (operator : String) : Option Nat :=
  match operator with
  | "|" => some 0
  | "or" | "||" => some 10
  | "and" | "&&" => some 15
  | "==" | "!=" | "<" | ">" | ">=" | "<=" => some 20
  | "in" | "matches" | "contains" | "startsWith" | "endsWith" => some 20
  | ".." => some 25
  | "+" | "-" => some 30
  | "*" | "/" | "%" => some 60
  | "**" | "^" => some 100
  | "??" => some 500
  | _ => none

/-- The binding power of a prefix operator. -/
def prefixPower (operator : String) : Option Nat :=
  match operator with
  | "not" | "!" => some 50
  | "-" | "+" => some 90
  | _ => none

/-- The comparisons, which may form a chain. -/
def comparisons : List String := ["<", ">", "<=", ">="]

/-- The relations that have a negated form. -/
def negatables : List String := ["in", "matches", "contains", "startsWith", "endsWith"]

/-- The words that are operators wherever they stand, besides `not`. -/
def words : List String :=
  ["and", "or", "in", "matches", "contains", "startsWith", "endsWith", "let"]

/-- Whether the operator chains. -/
def isComparison (operator : String) : Bool := comparisons.contains operator

/-- Whether the operator can follow `not`. -/
def isNegatable (operator : String) : Bool := negatables.contains operator

/-- Whether a word is an operator rather than a name. -/
def isOperatorWord (word : String) : Bool := words.contains word

/-- The operators that give a truth value. -/
def logical : List String :=
  ["|", "or", "||", "and", "&&", "==", "!=", "<", ">", ">=", "<=", "in", "matches", "contains",
    "startsWith", "endsWith"]

/-- The operators that give an integer. -/
def arithmetic : List String := ["+", "-", "*", "/"]

/-- Whether the operator gives a truth value. -/
def givesBool (operator : String) : Bool := logical.contains operator

/-- Whether the operator gives an integer. -/
def givesInt (operator : String) : Bool := arithmetic.contains operator

/-- A comparison binds with the power 20. -/
theorem binaryPower_of_isComparison {operator : String} (h : isComparison operator) :
    binaryPower operator = some 20 := by
  simp only [isComparison, comparisons, List.contains_eq_mem, decide_eq_true_eq, List.mem_cons,
    List.not_mem_nil, or_false] at h
  rcases h with h | h | h | h <;> subst h <;> rfl

/-- A relation that can be negated binds with the power 20. -/
theorem binaryPower_of_isNegatable {operator : String} (h : isNegatable operator) :
    binaryPower operator = some 20 := by
  simp only [isNegatable, negatables, List.contains_eq_mem, decide_eq_true_eq, List.mem_cons,
    List.not_mem_nil, or_false] at h
  rcases h with h | h | h | h | h <;> subst h <;> rfl

/-- No comparison can be negated. -/
theorem isNegatable_of_isComparison {operator : String} (h : isComparison operator) :
    isNegatable operator = false := by
  have hall : ∀ operator ∈ comparisons, isNegatable operator = false := by decide
  exact hall operator (by simpa [isComparison] using h)

end FilterLang.Operator
