import FilterLang.Json

/-!
# Writing JSON

* **`Json.quote`** — a string as JSON text.
* **`Json.compact`** — a value on one line, without spaces.
* **`Json.pretty`** — a value over several lines, two spaces deeper with every bracket.  An empty
  list or object stays on its line.
-/

namespace FilterLang

namespace Json

/-! ### Strings -/

/-- A digit of the base sixteen, in lower case. -/
def hexDigit (n : Nat) : Char :=
  if n < 10 then Char.ofNat (0x30 + n) else Char.ofNat (0x61 + (n - 10))

/-- A character as it stands in a JSON string. -/
def quoteChar (c : Char) : List Char :=
  match c with
  | '"' => ['\\', '"']
  | '\\' => ['\\', '\\']
  | '\n' => ['\\', 'n']
  | '\r' => ['\\', 'r']
  | '\t' => ['\\', 't']
  | '\x08' => ['\\', 'b']
  | '\x0c' => ['\\', 'f']
  | _ =>
    if c.toNat < 0x20 then
      ['\\', 'u', '0', '0', hexDigit (c.toNat / 16), hexDigit (c.toNat % 16)]
    else [c]

/-- A string as JSON text. -/
def quote (text : String) : String :=
  String.ofList ('"' :: text.toList.flatMap quoteChar ++ ['"'])

/-! ### One line -/

mutual

/-- Writes a value on one line behind `out`. -/
def compactTo (out : String) : Json → String
  | null => out ++ "null"
  | bool value => out ++ (if value then "true" else "false")
  | number text => out ++ text
  | string value => out ++ quote value
  | broken => out ++ "null"
  | array items => compactItemsTo (out ++ "[") "" items ++ "]"
  | object members => compactMembersTo (out ++ "\x7b") "" members ++ "\x7d"

/-- Writes the items of a list behind `out`, the first one behind `separator`. -/
def compactItemsTo (out separator : String) : List Json → String
  | [] => out
  | item :: rest => compactItemsTo (compactTo (out ++ separator) item) "," rest

/-- Writes the members of an object behind `out`, the first one behind `separator`. -/
def compactMembersTo (out separator : String) : List (String × Json) → String
  | [] => out
  | member :: rest => compactMembersTo (compactMemberTo (out ++ separator) member) "," rest

/-- Writes a member of an object behind `out`. -/
def compactMemberTo (out : String) : String × Json → String
  | (name, value) => compactTo (out ++ quote name ++ ":") value

end

/-- A value on one line. -/
def compact (value : Json) : String := compactTo "" value

/-! ### Several lines -/

/-- The start of a line at a depth of brackets. -/
def newLine (depth : Nat) : String :=
  String.ofList ('\n' :: List.replicate (2 * depth) ' ')

mutual

/-- Writes a value at a depth of brackets behind `out`. -/
def prettyTo (depth : Nat) (out : String) : Json → String
  | null => out ++ "null"
  | bool value => out ++ (if value then "true" else "false")
  | number text => out ++ text
  | string value => out ++ quote value
  | broken => out ++ "null"
  | array [] => out ++ "[]"
  | array items => prettyItemsTo (depth + 1) (out ++ "[") "" items ++ newLine depth ++ "]"
  | object [] => out ++ "\x7b\x7d"
  | object members =>
    prettyMembersTo (depth + 1) (out ++ "\x7b") "" members ++ newLine depth ++ "\x7d"

/-- Writes the items of a list behind `out`, the first one behind `separator`. -/
def prettyItemsTo (depth : Nat) (out separator : String) : List Json → String
  | [] => out
  | item :: rest =>
    prettyItemsTo depth (prettyTo depth (out ++ separator ++ newLine depth) item) "," rest

/-- Writes the members of an object behind `out`, the first one behind `separator`. -/
def prettyMembersTo (depth : Nat) (out separator : String) : List (String × Json) → String
  | [] => out
  | member :: rest =>
    prettyMembersTo depth (prettyMemberTo depth (out ++ separator ++ newLine depth) member) ","
      rest

/-- Writes a member of an object behind `out`. -/
def prettyMemberTo (depth : Nat) (out : String) : String × Json → String
  | (name, value) => prettyTo depth (out ++ quote name ++ ": ") value

end

/-- A value over several lines. -/
def pretty (value : Json) : String := prettyTo 0 "" value

end Json

end FilterLang
