import FilterLang.Schema.Entry

/-!
# Schemas

* **`Schema`** — the variables and the operators that expressions are checked and completed with.
  A new one has no variables and the default operators.
* **`Schema.variableEntry?`** / **`Schema.operatorEntry?`** — the entry of a name.
* **`Schema.lookup?`** — the entry at the end of a path that starts with a variable.
* **`Schema.withVariable`**, **`Schema.withOperator`**, **`Schema.withoutOperators`** — schemas
  built up in code.
-/

namespace FilterLang

/-- The variables and operators that are known. -/
structure Schema where
  vars : NameMap TypeEntry := .empty
  operators : NameMap OperatorEntry := defaultOperators
deriving DecidableEq

namespace Schema

instance : Inhabited Schema := ⟨{}⟩

/-- The entry of a variable. -/
def variableEntry? (name : String) (schema : Schema) : Option TypeEntry :=
  schema.vars.find? name

/-- The entry of an operator. -/
def operatorEntry? (symbol : String) (schema : Schema) : Option OperatorEntry :=
  schema.operators.find? symbol

/-- The entry at the end of a path of a variable and its fields. -/
def lookup? (path : List String) (schema : Schema) : Option TypeEntry :=
  match path with
  | [] => none
  | name :: fields => (schema.variableEntry? name).bind (TypeEntry.path? fields)

/-- Adds a variable, or replaces the one of that name. -/
def withVariable (schema : Schema) (name : String) (entry : TypeEntry) : Schema :=
  { schema with vars := schema.vars.insert name entry }

/-- Adds an operator, or replaces the one of that symbol. -/
def withOperator (schema : Schema) (symbol : String) (entry : OperatorEntry) : Schema :=
  { schema with operators := schema.operators.insert symbol entry }

/-- Drops all operators. -/
def withoutOperators (schema : Schema) : Schema :=
  { schema with operators := .empty }

end Schema

end FilterLang
