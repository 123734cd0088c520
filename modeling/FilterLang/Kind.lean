/-!
# Kinds of values

* **`Kind`** — the nine kinds that a value of the language can have.
* **`Kind.name`** / **`Kind.ofName?`** — the name of a kind and the way back (`ofName?_name`).
* **`Kind.unknownMessage`** — what is said about a name that is none.
-/

namespace FilterLang

/-- The kind of a value. -/
inductive Kind where
  | struct
  | func
  | string
  | bool
  | int
  | array
  | any
  | map
  | nil
deriving DecidableEq, Inhabited

namespace Kind

/-- All kinds. -/
def all : List Kind := [.struct, .func, .string, .bool, .int, .array, .any, .map, .nil]

/-- The name of a kind. -/
def name : Kind → String
  | struct => "struct"
  | func => "func"
  | string => "string"
  | bool => "bool"
  | int => "int"
  | array => "array"
  | any => "any"
  | map => "map"
  | nil => "nil"

/-- The kind of a given name. -/
def ofName? (text : String) : Option Kind :=
  all.find? fun kind => kind.name == text

/-- The message about a name that no kind has. -/
def unknownMessage (text : String) : String := "unknown type: " ++ text

theorem ofName?_name (kind : Kind) : ofName? kind.name = some kind := by
  cases kind <;> rfl

end Kind

end FilterLang
