import FilterLang.Location
import FilterLang.Schema.Entry

/-!
# Expressions

* **`Nature`** — what the checker knows of an expression: its kind, how it is edited, and the
  schema entry behind it.
* **`Expr`** — the tree of an expression.  Every node carries a **`Note`**: its place and, once it
  is checked, its nature.  Calls and pointers are reserved; no text is read as one.
* **`Expr.location`**, **`Expr.nature`**, **`Expr.withNature`** — the note of the root.
* **`Expr.identifier?`** / **`Expr.operator?`** — the name of a lone name, and the operator at the
  root.
-/

namespace FilterLang

/-- What is known of an expression once it is checked. -/
structure Nature where
  kind : Kind
  /-- how its values are edited -/
  format : Option String := none
  /-- the schema entry it comes from -/
  entry : Option TypeEntry := none

namespace Nature

/-- A nature of which only the kind is known. -/
def ofKind (kind : Kind) : Nature := { kind }

/-- The nature of what a schema entry describes. -/
def ofEntry (entry : TypeEntry) : Nature :=
  { kind := entry.kind, format := entry.format, entry := some entry }

end Nature

/-- What a node of a tree carries besides its content. -/
structure Note where
  location : Location := .origin
  nature : Option Nature := none

instance : Inhabited Note := ⟨{}⟩

/-- The note of a node that is not checked. -/
def Note.at (location : Location) : Note := { location }

/-- The tree of an expression. -/
inductive Expr where
  /-- an operator in front of its operand; `x not in y` is the negation of `x in y` -/
  | unary (note : Note) (operator : String) (operand : Expr)
  | binary (note : Note) (operator : String) (left right : Expr)
  /-- a field of a value -/
  | member (note : Note) (object property : Expr) (method : Bool)
  /-- reserved -/
  | call (note : Note) (callee : Expr)
  /-- reserved -/
  | pointer (note : Note) (name : String)
  | string (note : Note) (value : String)
  | integer (note : Note) (value : Int)
  | bool (note : Note) (value : Bool)
  | nil (note : Note)
  | identifier (note : Note) (name : String)
deriving Inhabited

namespace Expr

/-- The note of the root. -/
def note : Expr → Note
  | unary note _ _ | binary note _ _ _ | member note _ _ _ | call note _ | pointer note _
  | string note _ | integer note _ | bool note _ | nil note | identifier note _ => note

/-- The same tree with another note at the root. -/
def withNote (note : Note) : Expr → Expr
  | unary _ operator operand => unary note operator operand
  | binary _ operator left right => binary note operator left right
  | member _ object property method => member note object property method
  | call _ callee => call note callee
  | pointer _ name => pointer note name
  | string _ value => string note value
  | integer _ value => integer note value
  | bool _ value => bool note value
  | nil _ => nil note
  | identifier _ name => identifier note name

/-- The place of the root. -/
def location (e : Expr) : Location := e.note.location

/-- The nature of the root, if it is checked and has one. -/
def nature (e : Expr) : Option Nature := e.note.nature

/-- The same tree with another nature at the root. -/
def withNature (nature : Option Nature) (e : Expr) : Expr :=
  e.withNote { e.note with nature }

/-- The schema entry behind the expression. -/
def entry? (e : Expr) : Option TypeEntry := e.nature.bind Nature.entry

/-- The name, if the expression is one. -/
def identifier? : Expr → Option String
  | identifier _ name => some name
  | _ => none

/-- The operator at the root. -/
def operator? : Expr → Option String
  | unary _ operator _ | binary _ operator _ _ => some operator
  | _ => none

/-- The name of a property: a name, or a text in its place. -/
def propertyName? : Expr → Option String
  | identifier _ name => some name
  | string _ value => some value
  | _ => none

@[simp]
theorem note_withNote (note : Note) (e : Expr) : (e.withNote note).note = note := by
  cases e <;> rfl

@[simp]
theorem nature_withNature (nature : Option Nature) (e : Expr) :
    (e.withNature nature).nature = nature := by
  simp [Expr.nature, withNature]

end Expr

end FilterLang
