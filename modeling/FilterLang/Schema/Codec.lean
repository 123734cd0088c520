import FilterLang.Json
import FilterLang.Schema

/-!
# Schemas as JSON

* **`TypeEntry.toJson`**, **`OperatorEntry.toJson`**, **`Schema.toJson`** — the written form.  What
  is absent is left out, and maps are objects.
* **`Json.record?`** — the members of an object by name, or the items of a list in the place of
  them.  A known name may occur once and other names do not matter.
* **`TypeEntry.ofJson?`**, **`OperatorEntry.ofJson?`**, **`Schema.decode?`** — reading.  Optional
  members may be missing or `null`; a schema without operators gets the default ones.
* **`Schema.ofText?`** — a schema from JSON text.

Every object and list that is looked into takes a level, of which the JSON format allows so many;
values that are skipped take none.
-/

namespace FilterLang

/-! ### Writing -/

/-- A list of strings. -/
def Json.strings (values : List String) : Json := .array (values.map .string)

/-- A map from names, given the written form of its values. -/
def Json.ofMap {α : Type} (write : α → Json) (map : NameMap α) : Json :=
  .object (map.entries.map fun entry => (entry.1, write entry.2))

namespace TypeEntry

/-- The written form of an entry. -/
def toJson : TypeEntry → Json
  | ⟨kind, fields, values, format, description⟩ =>
    let fields := match fields with
      | none => none
      | some ⟨names, _, value⟩ =>
        some (.object (names.zip (List.ofFn fun i => (value i).toJson)))
    .record
      [("kind", some (.string kind.name)), ("fields", fields), ("values", values.map .strings),
        ("format", Json.optionalString format),
        ("description", Json.optionalString description)]

/-- The members of the written form of an entry. -/
def members (entry : TypeEntry) : List (String × Option Json) :=
  [("kind", some (.string entry.kind.name)), ("fields", entry.fields.map (.ofMap toJson)),
    ("values", entry.values.map .strings), ("format", Json.optionalString entry.format),
    ("description", Json.optionalString entry.description)]

theorem toJson_eq (entry : TypeEntry) : entry.toJson = .record entry.members := by
  obtain ⟨kind, fields, values, format, description⟩ := entry
  cases fields with
  | none => rfl
  | some fields =>
    obtain ⟨names, sorted, value⟩ := fields
    have hvalues : (List.ofFn fun i => (value i).toJson) = (List.ofFn value).map toJson := by
      rw [List.map_ofFn]
      rfl
    rw [toJson, hvalues, List.zip_map_right]
    rfl

end TypeEntry

/-- The members of the written form of an operator. -/
def OperatorEntry.members (entry : OperatorEntry) : List (String × Option Json) :=
  [("kind", some (.string entry.kind)), ("allow", entry.allow.map fun cls => .string cls.name),
    ("description", Json.optionalString entry.description)]

/-- The written form of an operator. -/
def OperatorEntry.toJson (entry : OperatorEntry) : Json := .record entry.members

namespace Schema

/-- The written form of the variables. -/
def variablesToJson (schema : Schema) : Json := .ofMap TypeEntry.toJson schema.vars

/-- The written form of the operators. -/
def operatorsToJson (schema : Schema) : Json := .ofMap OperatorEntry.toJson schema.operators

/-- The written form of a schema. -/
def toJson (schema : Schema) : Json :=
  .object [("variables", schema.variablesToJson), ("operators", schema.operatorsToJson)]

end Schema

/-! ### Reading -/

namespace Json

/-- The value of a member. -/
def member? (name : String) : List (String × Json) → Option Json
  | [] => none
  | (key, value) :: rest => if key = name then some value else member? name rest

/-- The members of an object that have known names, or the items of a list in the order of the
names. -/
def record? (names : List String) : Json → Option (String → Option Json)
  | .object members =>
    let known := (members.map Prod.fst).filter names.contains
    if known.eraseDups.length = known.length then some fun name => member? name members
    else none
  | .array items =>
    if items.length ≤ names.length then some fun name => member? name (names.zip items)
    else none
  | _ => none

/-- An optional member, read by `read` unless it is missing or `null`. -/
def optional? {α : Type} (read : Json → Option α) : Option Json → Option (Option α)
  | none | some .null => some none
  | some value => (read value).map some

/-- A string. -/
def asString? : Json → Option String
  | .string value => some value
  | _ => none

/-- A list of strings, which takes a level. -/
def asStrings? (levels : Nat) : Json → Option (List String)
  | .array items => if levels = 0 then none else items.mapM asString?
  | _ => none

/-- The name of a constant.  It may also stand as the only name of an object, with nothing in it;
the object takes a level. -/
def asConstant? (levels : Nat) : Json → Option String
  | .string name => some name
  | .object [(name, .null)] => if levels = 0 then none else some name
  | _ => none

/-- A map from names, which takes a level.  Of two members with one name the later counts. -/
def asMap? {α : Type} (levels : Nat) (read : Json → Option α) : Json → Option (NameMap α)
  | .object members =>
    if levels = 0 then none
    else (members.mapM fun m => (read m.2).map (m.1, ·)).map NameMap.ofList
  | _ => none

end Json

/-- A type entry.  It takes a level, and so do its fields. -/
def TypeEntry.ofJson? : Nat → Json → Option TypeEntry
  | 0, _ => none
  | levels + 1, json => do
    let get ← json.record? ["kind", "fields", "values", "format", "description"]
    let kind ← ((get "kind").bind (Json.asConstant? levels)).bind Kind.ofName?
    let fields ← Json.optional? (readFields levels) (get "fields")
    let values ← Json.optional? (Json.asStrings? levels) (get "values")
    let format ← Json.optional? Json.asString? (get "format")
    let description ← Json.optional? Json.asString? (get "description")
    return { kind, fields, values, format, description }
where
  /-- The fields of an entry. -/
  readFields : Nat → Json → Option (NameMap TypeEntry)
    | 0, _ => none
    | levels + 1, json => Json.asMap? (levels + 1) (TypeEntry.ofJson? levels) json

/-- An operator entry, which takes a level. -/
def OperatorEntry.ofJson? : Nat → Json → Option OperatorEntry
  | 0, _ => none
  | levels + 1, json => do
    let get ← json.record? ["kind", "allow", "description"]
    let kind ← (get "kind").bind Json.asString?
    let allow ← Json.optional? (fun j => (j.asConstant? levels).bind OperandClass.ofName?)
      (get "allow")
    let description ← Json.optional? Json.asString? (get "description")
    return { kind, allow, description }

namespace Schema

/-- A schema, given how many levels there are. -/
def decode? (levels : Nat) (json : Json) : Option Schema := do
  let get ← json.record? ["variables", "operators"]
  let vars ← match get "variables" with
    | none => some .empty
    | some value => value.asMap? (levels - 1) (TypeEntry.ofJson? (levels - 2))
  let operators ← match get "operators" with
    | none => some defaultOperators
    | some value => value.asMap? (levels - 1) (OperatorEntry.ofJson? (levels - 2))
  return { vars, operators }

/-- The schema that a JSON text describes. -/
def ofText? (format : Json.Format) (text : String) : Option Schema :=
  (format.parse? text).bind (decode? format.levels)

end Schema

end FilterLang
