import FilterLang.Expr
import FilterLang.Operator
import FilterLang.Text.Alphabetic
import FilterLang.Text.Quoted

/-!
# The canonical text of a tree

A tree is written with one space on either side of a binary operator and with only those brackets
that keep it the same tree when it is read.

* **`Binding`** and **`Expr.binding`** — how tightly the text of a tree holds together.
* **`Binding.needsBracketsLeftOf`**, **`Binding.needsBracketsRightOf`**,
  **`Binding.needsBracketsBehind`**, **`Expr.needsBracketsBeforeDot`** — where brackets are due.
* **`Expr.print`** — the text.  The negation of `x in y`, and of the relations like it, is written
  `x not in y`.
-/

namespace FilterLang

/-- How tightly the text of a tree holds together. -/
inductive Binding where
  | binary (power : Nat) (comparison : Bool)
  | unary (power : Nat)
  | atom
deriving DecidableEq

namespace Binding

/-- The binding of a binary operator; a word that is none binds with the power 0. -/
def ofOperator (operator : String) : Binding :=
  .binary ((Operator.binaryPower operator).getD 0) (Operator.isComparison operator)

/-- The power with which a prefix operator binds; a word that is none binds with the power 0. -/
def prefixPower (operator : String) : Nat := (Operator.prefixPower operator).getD 0

/-- Whether an operand needs brackets on the left of `operator`.  An equal power needs none, since
operators group to the left, but two comparisons would become a chain. -/
def needsBracketsLeftOf (operator : String) : Binding → Bool
  | binary power comparison =>
    power < (Operator.binaryPower operator).getD 0
      || (Operator.isComparison operator && comparison)
  | unary power => power < (Operator.binaryPower operator).getD 0
  | atom => false

/-- Whether an operand needs brackets on the right of `operator`. -/
def needsBracketsRightOf (operator : String) : Binding → Bool
  | binary power _ => power ≤ (Operator.binaryPower operator).getD 0
  | unary power => power < (Operator.binaryPower operator).getD 0
  | atom => false

/-- Whether an operand needs brackets behind the prefix `operator`. -/
def needsBracketsBehind (operator : String) : Binding → Bool
  | binary power _ => power ≤ prefixPower operator
  | unary _ => true
  | atom => false

end Binding

namespace Expr

/-- Whether `operator` in front of a `relation` is written with the `not` inside. -/
def negates (operator relation : String) : Bool :=
  operator == "not" && Operator.isNegatable relation

/-- How tightly the text of a tree holds together. -/
def binding : Expr → Binding
  | unary _ operator (binary _ relation _ _) =>
    if negates operator relation then .ofOperator relation
    else .unary (Binding.prefixPower operator)
  | unary _ operator _ => .unary (Binding.prefixPower operator)
  | binary _ operator _ _ => .ofOperator operator
  | _ => .atom

/-- Whether the tree needs brackets in front of a dot.  An integer does, because the dot would
become a part of it. -/
def needsBracketsBeforeDot : Expr → Bool
  | binary .. | unary .. | integer .. => true
  | _ => false

/-- A text in brackets where they are due. -/
def bracket (due : Bool) (text : String) : String :=
  if due then "(" ++ text ++ ")" else text

/-- A prefix operator as it stands in front of its operand.  A word needs a space behind it. -/
def printPrefix (operator : String) : String :=
  if operator.toList.all Text.isAlphabetic then operator ++ " " else operator

/-- The text of a binary operator, shown as `symbol`, between two operands and their texts. -/
def printBinary (symbol operator : String) (left right : Expr) (leftText rightText : String) :
    String :=
  bracket (left.binding.needsBracketsLeftOf operator) leftText ++ " " ++ symbol ++ " "
    ++ bracket (right.binding.needsBracketsRightOf operator) rightText

/-- The canonical text of a tree. -/
def print : Expr → String
  | unary _ operator (binary note relation left right) =>
    if negates operator relation then
      printBinary ("not " ++ relation) relation left right left.print right.print
    else
      printPrefix operator
        ++ bracket ((Binding.ofOperator relation).needsBracketsBehind operator)
          (binary note relation left right).print
  | unary _ operator operand =>
    printPrefix operator ++ bracket (operand.binding.needsBracketsBehind operator) operand.print
  | binary _ operator left right =>
    printBinary operator operator left right left.print right.print
  | member _ object property _ =>
    bracket object.needsBracketsBeforeDot object.print ++ "." ++ property.print
  | call _ callee => callee.print ++ "()"
  | pointer _ name => "#" ++ name
  | string _ value => Text.quote value
  | integer _ value => toString value
  | bool _ value => if value then "true" else "false"
  | nil _ => "nil"
  | identifier _ name => name

end Expr

end FilterLang
