import FilterLang.Text.Digit

/-!
# Integer literals

* **`integerMax`** — the greatest integer of the language; the least is one further from zero.
* **`readInteger?`** — the integer a number token denotes.  Underscores do not count.  Behind a
  base mark every character must be a digit; without one only the leading digits count, so `2.5`
  is `2` and `.5` is `0`.  Nothing is denoted by what does not fit.
-/

namespace FilterLang.Numeral

open Text

/-- The greatest integer. -/
def integerMax : Int := 9223372036854775807

/-- The least integer. -/
def integerMin : Int := -9223372036854775808

/-- The integer `n`, if it lies in the range of the language. -/
def inRange? (n : Int) : Option Int :=
  if integerMin ≤ n ∧ n ≤ integerMax then some n else none

/-- The number that one or more digits of a base denote. -/
def readDigits? (base : Nat) (cs : List Char) : Option Int :=
  if !cs.isEmpty && cs.all (isDigitOf base) then some (valueOfDigits base cs) else none

/-- The integer behind the mark of a base, which may have a sign. -/
def readBased? (base : Nat) (cs : List Char) : Option Int :=
  let value := match cs with
    | '-' :: digits => (readDigits? base digits).map (- ·)
    | '+' :: digits => readDigits? base digits
    | _ => readDigits? base cs
  value.bind inRange?

/-- The integer of the leading decimal digits, which is zero if there are none. -/
def readDecimal? (cs : List Char) : Option Int :=
  inRange? (valueOfDigits 10 (cs.takeWhile (isDigitOf 10)))

/-- The integer that the text of a number denotes. -/
def readInteger? (text : String) : Option Int :=
  match text.toList.filter (· != '_') with
  | '0' :: c :: rest =>
    if c == 'x' || c == 'X' then readBased? 16 rest
    else if c == 'o' || c == 'O' then readBased? 8 rest
    else if c == 'b' || c == 'B' then readBased? 2 rest
    else readDecimal? ('0' :: c :: rest)
  | cs => readDecimal? cs

end FilterLang.Numeral
