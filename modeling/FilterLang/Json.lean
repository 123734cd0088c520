/-!
# JSON values

* **`Json`** — a JSON value.  Numbers are kept as they are written, members of an object in their
  order, and `broken` stands for what can be skipped over but not used: a string with half a
  surrogate pair, or an object with such a name in it.
* **`Json.ofNat`**, **`Json.ofInt`**, **`Json.record`** — values built for printing.  A record leaves
  out the members that have no value.
* **`Json.Format`** — how values are written as texts and read back.  The format is given from
  outside: everything that writes or reads JSON takes it as a parameter.
-/

namespace FilterLang

/-- A JSON value. -/
inductive Json where
  | null
  | bool (value : Bool)
  | number (text : String)
  | string (value : String)
  /-- a string or an object that can only be skipped over -/
  | broken
  | array (items : List Json)
  | object (members : List (String × Json))
deriving Inhabited

namespace Json

/-! ### Building -/

/-- A natural number. -/
def ofNat (n : Nat) : Json := .number (toString n)

/-- An integer. -/
def ofInt (n : Int) : Json := .number (toString n)

/-- An object of the members that have a value. -/
def record (members : List (String × Option Json)) : Json :=
  .object (members.filterMap fun m => m.2.map (m.1, ·))

/-- A string, or nothing. -/
def optionalString (value : Option String) : Option Json := value.map .string

/-- A value, or `null` where there is none. -/
def orNull (value : Option Json) : Json := value.getD .null

/-! ### Texts -/

/-- How values are written as texts and read back. -/
structure Format where
  /-- the text of a value -/
  write : Json → String
  /-- the value of a text, if it is one -/
  parse? : String → Option Json
  /-- how deep the objects and lists may be nested that are looked into -/
  levels : Nat

end Json

end FilterLang
