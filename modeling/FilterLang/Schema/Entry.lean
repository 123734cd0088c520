import FilterLang.Kind
import FilterLang.NameMap

/-!
# Entries of a schema

What a schema says about a variable, a field or an operator.

* **`TypeEntry`** — the kind of a value, the fields of a struct or map, the closed set of its
  values, a hint on how it is edited, and a description.
* **`TypeEntry.induction`**, **`TypeEntry.same`** — induction over the fields of fields, and whether
  two entries are equal.
* **`OperatorEntry`** — an operator, the operands it is meant for, and a description.
* **`defaultOperators`** — the twenty-one operators of a schema that lists none.
-/

namespace FilterLang

/-- What a schema says about a variable or a field. -/
structure TypeEntry where
  kind : Kind
  /-- the fields of a struct or map, by name -/
  fields : Option (NameMap TypeEntry) := none
  /-- the closed set of its values, in the order of the schema -/
  values : Option (List String) := none
  /-- how it is edited -/
  format : Option String := none
  description : Option String := none

instance : Inhabited TypeEntry := ⟨{ kind := .any }⟩

namespace TypeEntry

/-- The format of values that are picked from a calendar. -/
def dateFormat : String := "date"

/-- An entry that says nothing but the kind. -/
def ofKind (kind : Kind) : TypeEntry := { kind }

/-- A string that is picked from a calendar. -/
def date : TypeEntry := { kind := .string, format := some dateFormat }

/-- The entry of a field. -/
def field? (name : String) (entry : TypeEntry) : Option TypeEntry :=
  entry.fields.bind (NameMap.find? name)

/-- The entry at the end of a path of fields. -/
def path? : List String → TypeEntry → Option TypeEntry
  | [], entry => some entry
  | name :: names, entry => (entry.field? name).bind (path? names)

/-- Whether values are picked from a calendar. -/
def isDate (entry : TypeEntry) : Bool := entry.format == some dateFormat

/-- Adds a field, or replaces the one of that name. -/
def withField (entry : TypeEntry) (name : String) (field : TypeEntry) : TypeEntry :=
  { entry with fields := some (NameMap.insert name field (entry.fields.getD .empty)) }

/-- Restricts the entry to a closed set of values. -/
def withValues (entry : TypeEntry) (values : List String) : TypeEntry :=
  { entry with values := some values }

/-- Says how values are edited. -/
def withFormat (entry : TypeEntry) (format : String) : TypeEntry :=
  { entry with format := some format }

/-- Describes the entry. -/
def withDescription (entry : TypeEntry) (text : String) : TypeEntry :=
  { entry with description := some text }

/-! ### Fields of fields -/

/-- Induction over an entry, its fields, their fields and so on. -/
theorem induction {P : TypeEntry → Prop} (h : ∀ entry : TypeEntry,
    (∀ fields, entry.fields = some fields → ∀ field ∈ fields.entries, P field.2) → P entry) :
    ∀ entry, P entry
  | ⟨_, none, _, _, _⟩ => h _ nofun
  | ⟨_, some ⟨names, sorted, value⟩, _, _, _⟩ => by
    refine h _ ?_
    rintro _ ⟨⟩ field hfield
    obtain ⟨i, hi⟩ := NameMap.exists_value_eq hfield
    rw [← hi]
    exact induction h (value i)

/-- Whether two entries are equal. -/
def same : TypeEntry → TypeEntry → Bool
  | ⟨kind, fields, values, format, description⟩, other =>
    let sameFields := match fields, other.fields with
      | none, none => true
      | some ⟨names, _, value⟩, some others =>
        if h : names = others.names then
          (List.finRange names.length).all fun i =>
            (value i).same (others.value (i.cast (congrArg List.length h)))
        else false
      | _, _ => false
    kind == other.kind && sameFields && values == other.values && format == other.format
      && description == other.description

theorem same_iff : ∀ {entry other : TypeEntry}, entry.same other ↔ entry = other
  | ⟨kind, none, values, format, description⟩,
      ⟨otherKind, otherFields, otherValues, otherFormat, otherDescription⟩ => by
    cases otherFields <;> simp [same, and_assoc]
  | ⟨kind, some ⟨names, sorted, value⟩, values, format, description⟩,
      ⟨otherKind, none, otherValues, otherFormat, otherDescription⟩ => by
    simp [same]
  | ⟨kind, some ⟨names, sorted, value⟩, values, format, description⟩,
      ⟨otherKind, some ⟨otherNames, otherSorted, otherValue⟩, otherValues, otherFormat,
        otherDescription⟩ => by
    by_cases hnames : names = otherNames
    · subst hnames
      have hvalue : (∀ i, (value i).same (otherValue i)) ↔ value = otherValue := by
        rw [funext_iff]
        exact forall_congr' fun i => same_iff
      simp [same, hvalue, and_assoc]
    · simp [same, hnames]

instance : DecidableEq TypeEntry := fun _ _ => decidable_of_iff _ same_iff

end TypeEntry

/-- The operands that an operator is meant for. -/
inductive OperandClass where
  | string
  | number
  | boolean
deriving DecidableEq, Inhabited

namespace OperandClass

/-- All classes. -/
def all : List OperandClass := [.string, .number, .boolean]

/-- The name of a class. -/
def name : OperandClass → String
  | string => "string"
  | number => "number"
  | boolean => "boolean"

/-- The class of a given name. -/
def ofName? (text : String) : Option OperandClass :=
  all.find? fun cls => cls.name == text

theorem ofName?_name (cls : OperandClass) : ofName? cls.name = some cls := by
  cases cls <;> rfl

end OperandClass

/-- What a schema says about an operator. -/
structure OperatorEntry where
  /-- the arity, which is `binary` for the default operators -/
  kind : String := "binary"
  /-- the operands it is meant for, if not all -/
  allow : Option OperandClass := none
  description : Option String := none
deriving DecidableEq, Inhabited

namespace OperatorEntry

/-- A binary operator for operands of every kind. -/
def binary : OperatorEntry := {}

/-- A binary operator for operands of one class. -/
def binaryOn (cls : OperandClass) : OperatorEntry := { allow := some cls }

end OperatorEntry

/-- The operators of a schema that lists none. -/
def defaultOperators : NameMap OperatorEntry :=
  NameMap.ofList <|
    [("==", { description := some "Equals" })]
    ++ ["!=", "<", ">", "<=", ">="].map (·, .binary)
    ++ ["&&", "and", "||", "or"].map (·, .binaryOn .boolean)
    ++ ["contains", "startsWith", "endsWith", "matches"].map (·, .binaryOn .string)
    ++ ["+", "-", "*", "/", "%", "**", "^"].map (·, .binaryOn .number)

end FilterLang
