import FilterLang.Json
import FilterLang.Text.Digit

/-!
# Reading JSON

* **`Json.readString?`** — the code units of a string up to its closing quote.
* **`Json.joinSurrogates?`** — the characters of code units; surrogates must come in pairs.
* **`Json.readNumber?`** — a number in the strict grammar: no leading zeros, no sign but a minus, a
  digit on either side of the point.
* **`Json.readValue?`** and its companions — a value, with the characters behind it.
* **`Json.parse?`** — a text that is one value and blanks around it.  There is no limit on how deep
  values are nested.
-/

namespace FilterLang.Json

/-! ### Strings -/

/-- The code unit of four digits. -/
def codeUnit? (digits : List Char) : Option Nat :=
  if digits.all (Text.isDigitOf 16) then some (Text.valueOfDigits 16 digits) else none

/-- What a letter behind a backslash stands for. -/
def escaped? (c : Char) : Option Char :=
  match c with
  | '"' => some '"'
  | '\\' => some '\\'
  | '/' => some '/'
  | 'b' => some '\x08'
  | 'f' => some '\x0c'
  | 'n' => some '\n'
  | 'r' => some '\r'
  | 't' => some '\t'
  | _ => none

/-- The code units of a string behind its opening quote, and the characters behind its closing
one. -/
def readString? : List Char → Option (List Nat × List Char)
  | [] => none
  | '"' :: rest => some ([], rest)
  | '\\' :: 'u' :: a :: b :: c :: d :: rest => do
    let unit ← codeUnit? [a, b, c, d]
    let (units, rest) ← readString? rest
    return (unit :: units, rest)
  | '\\' :: c :: rest => do
    let value ← escaped? c
    let (units, rest) ← readString? rest
    return (value.toNat :: units, rest)
  | c :: rest =>
    if c.toNat < 0x20 ∨ c = '\\' then none
    else do
      let (units, rest) ← readString? rest
      return (c.toNat :: units, rest)

/-- Whether a code unit is the first half of a pair. -/
def isHighSurrogate (unit : Nat) : Bool := 0xD800 ≤ unit && unit < 0xDC00

/-- Whether a code unit is the second half of a pair. -/
def isLowSurrogate (unit : Nat) : Bool := 0xDC00 ≤ unit && unit < 0xE000

/-- The characters of code units.  A half without its other half stands for nothing. -/
def joinSurrogates? : List Nat → Option (List Char)
  | [] => some []
  | high :: low :: rest =>
    if isHighSurrogate high then
      if isLowSurrogate low then
        (joinSurrogates? rest).map
          (Char.ofNat (0x10000 + (high - 0xD800) * 0x400 + (low - 0xDC00)) :: ·)
      else none
    else if isLowSurrogate high then none
    else (joinSurrogates? (low :: rest)).map (Char.ofNat high :: ·)
  | [unit] =>
    if isHighSurrogate unit || isLowSurrogate unit then none else some [Char.ofNat unit]

/-! ### Numbers and blanks -/

/-- A non-empty run of digits, and the characters behind it. -/
def readDigits? (cs : List Char) : Option (List Char × List Char) :=
  let digits := cs.takeWhile Char.isDigit
  if digits.isEmpty then none else some (digits, cs.drop digits.length)

/-- A fraction, if there is a point. -/
def readFraction? (cs : List Char) : Option (List Char × List Char) :=
  match cs with
  | '.' :: rest => (readDigits? rest).map fun r => ('.' :: r.1, r.2)
  | _ => some ([], cs)

/-- An exponent, if there is a mark of one. -/
def readExponent? (cs : List Char) : Option (List Char × List Char) :=
  match cs with
  | c :: rest =>
    if c = 'e' ∨ c = 'E' then
      match rest with
      | '+' :: digits => (readDigits? digits).map fun r => (c :: '+' :: r.1, r.2)
      | '-' :: digits => (readDigits? digits).map fun r => (c :: '-' :: r.1, r.2)
      | _ => (readDigits? rest).map fun r => (c :: r.1, r.2)
    else some ([], cs)
  | [] => some ([], cs)

/-- A number, and the characters behind it. -/
def readNumber? (cs : List Char) : Option (String × List Char) := do
  let (sign, cs) := match cs with
    | '-' :: rest => (['-'], rest)
    | _ => ([], cs)
  let (whole, cs) ← readDigits? cs
  if whole.head? == some '0' && whole.length != 1 then none
  let (fraction, cs) ← readFraction? cs
  let (exponent, cs) ← readExponent? cs
  return (String.ofList (sign ++ whole ++ fraction ++ exponent), cs)

/-- Whether a character is a blank between JSON values. -/
def isBlank (c : Char) : Bool := c == ' ' || c == '\n' || c == '\r' || c == '\t'

/-- The characters behind the blanks at the start. -/
def skipBlanks (cs : List Char) : List Char := cs.dropWhile isBlank

/-! ### Values -/

/-- A string value. -/
def ofUnits (units : List Nat) : Json :=
  match joinSurrogates? units with
  | some cs => .string (String.ofList cs)
  | none => .broken

/-- An object value, given the code units of its names. -/
def ofMembers (members : List (List Nat × Json)) : Json :=
  match members.mapM fun m => (joinSurrogates? m.1).map fun cs => (String.ofList cs, m.2) with
  | some members => .object members
  | none => .broken

mutual

/-- A value, and the characters behind it. -/
def readValue? : Nat → List Char → Option (Json × List Char)
  | 0, _ => none
  | fuel + 1, cs =>
    match cs with
    | '"' :: rest => (readString? rest).map fun r => (ofUnits r.1, r.2)
    | '[' :: rest =>
      match skipBlanks rest with
      | ']' :: rest => some (.array [], rest)
      | rest => (readItems? fuel rest).map fun r => (.array r.1, r.2)
    | '\x7b' :: rest =>
      match skipBlanks rest with
      | '\x7d' :: rest => some (.object [], rest)
      | rest => (readMembers? fuel rest).map fun r => (ofMembers r.1, r.2)
    | 'n' :: 'u' :: 'l' :: 'l' :: rest => some (.null, rest)
    | 't' :: 'r' :: 'u' :: 'e' :: rest => some (.bool true, rest)
    | 'f' :: 'a' :: 'l' :: 's' :: 'e' :: rest => some (.bool false, rest)
    | _ => (readNumber? cs).map fun r => (.number r.1, r.2)

/-- The items of a list from the first one on, and the characters behind the closing bracket. -/
def readItems? : Nat → List Char → Option (List Json × List Char)
  | 0, _ => none
  | fuel + 1, cs => do
    let (item, rest) ← readValue? fuel (skipBlanks cs)
    match skipBlanks rest with
    | ',' :: rest =>
      let (items, rest) ← readItems? fuel rest
      return (item :: items, rest)
    | ']' :: rest => return ([item], rest)
    | _ => none

/-- The members of an object from the first one on, and the characters behind the closing brace. -/
def readMembers? : Nat → List Char → Option (List (List Nat × Json) × List Char)
  | 0, _ => none
  | fuel + 1, cs =>
    match skipBlanks cs with
    | '"' :: rest => do
      let (name, rest) ← readString? rest
      match skipBlanks rest with
      | ':' :: rest =>
        let (value, rest) ← readValue? fuel (skipBlanks rest)
        match skipBlanks rest with
        | ',' :: rest =>
          let (members, rest) ← readMembers? fuel rest
          return ((name, value) :: members, rest)
        | '\x7d' :: rest => return ([(name, value)], rest)
        | _ => none
      | _ => none
    | _ => none

end

/-- The value of a text.  Between two characters that are read there are at most two descents, so
the fuel suffices. -/
def parse? (text : String) : Option Json :=
  let cs := text.toList
  match readValue? (2 * cs.length + 2) (skipBlanks cs) with
  | some (value, rest) => if (skipBlanks rest).isEmpty then some value else none
  | none => none

end FilterLang.Json
