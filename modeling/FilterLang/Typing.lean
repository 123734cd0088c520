import FilterLang.Expr
import FilterLang.Operator
import FilterLang.Schema

/-!
# The checker

A tree is checked against a schema in one pass from the leaves to the root.  A node is *evaluated*
unless it stands as the property of a member or as the callee of a call.

* **`unaryNature`**, **`binaryNature`**, **`memberNature`** — what the natures of the parts say
  about the whole.
* **`Expr.annotate`** — the tree with a nature at every evaluated node that has one.  A string to
  the right of a string takes over the schema entry of its neighbour.
* **`Expr.violations`** — everything in an annotated tree that breaks a rule, children before
  parents and left before right.
* **`check`** — the annotated tree and its first violation.  What is expected of the root comes
  last.
-/

namespace FilterLang

/-- What can be wrong with the types of an expression. -/
inductive CheckFault where
  | variableNotFound
  | fieldNotFound
  /-- a field of a value whose fields are unknown, or under something that is no name -/
  | noFields
  /-- a field of a value that is neither struct nor map -/
  | notStruct
  /-- an operand of the wrong kind behind a prefix operator -/
  | invalidType
  | unsupportedOperator (operator : String)
  /-- a call or a pointer -/
  | notSupported
  /-- a root of another kind than the one asked for -/
  | expectedType (kind : Kind)
deriving DecidableEq

/-- The wording of a fault. -/
def CheckFault.message : CheckFault → String
  | variableNotFound => "Variable not found"
  | fieldNotFound => "Field not found"
  | noFields => "Target has no fields"
  | notStruct => "Type of node must be struct"
  | invalidType => "Invalid type"
  | unsupportedOperator operator => "Unsupported operator " ++ operator
  | notSupported => "Not supported by checker"
  | expectedType kind => "Expected type " ++ kind.name

/-! ### Rules -/

/-- The nature of a prefixed operand. -/
def unaryNature (operator : String) (operand : Option Nature) : Option Nature :=
  match operand.map Nature.kind with
  | some .bool => if operator = "!" ∨ operator = "not" then some (.ofKind .bool) else none
  | some .int => if operator = "+" ∨ operator = "-" then some (.ofKind .int) else none
  | _ => none

/-- The nature of a binary expression, which is a matter of the operator alone. -/
def binaryNature (operator : String) : Option Nature :=
  if Operator.givesBool operator then some (.ofKind .bool)
  else if Operator.givesInt operator then some (.ofKind .int)
  else none

/-- The nature of a field of an object, for a member that stands at `location`. -/
def memberNature (location : Location) (object : Nature) (property : Expr) :
    Except (Located CheckFault) Nature :=
  if object.kind ≠ .struct ∧ object.kind ≠ .map then
    .error ⟨.notStruct, location⟩
  else
    match object.entry.bind TypeEntry.fields, property.propertyName? with
    | some fields, some name =>
      match NameMap.find? name fields with
      | some entry => .ok (.ofEntry entry)
      | none => .error ⟨.fieldNotFound, property.location⟩
    | _, _ => .error ⟨.noFields, property.location⟩

/-- The nature of the right operand beside the left one: two strings share the entry of the
left. -/
def rightNature (left right : Option Nature) : Option Nature :=
  match left, right with
  | some l, some r =>
    if l.kind = .string ∧ r.kind = .string then some { r with entry := l.entry } else some r
  | _, _ => right

/-! ### Trees -/

namespace Expr

/-- The tree with a nature at every evaluated node that has one. -/
def annotate (schema : Schema) : Expr → Expr
  | unary note operator operand =>
    let operand := operand.annotate schema
    .unary { note with nature := unaryNature operator operand.nature } operator operand
  | binary note operator left right =>
    let left := left.annotate schema
    let right := right.annotate schema
    let right := right.withNature (rightNature left.nature right.nature)
    .binary { note with nature := binaryNature operator } operator left right
  | member note object property method =>
    let object := object.annotate schema
    let nature := object.nature.bind fun nature =>
      (memberNature note.location nature property).toOption
    .member { note with nature } object property method
  | identifier note name =>
    .identifier { note with nature := (schema.variableEntry? name).map Nature.ofEntry } name
  | string note value => .string { note with nature := some (.ofKind .string) } value
  | integer note value => .integer { note with nature := some (.ofKind .int) } value
  | bool note value => .bool { note with nature := some (.ofKind .bool) } value
  | nil note => .nil { note with nature := some (.ofKind .nil) }
  | call note callee => .call { note with nature := none } callee
  | pointer note name => .pointer { note with nature := none } name

/-- What breaks a rule in an annotated tree, children before parents and left before right. -/
def violations (schema : Schema) : Expr → List (Located CheckFault)
  | unary note operator operand =>
    operand.violations schema
      ++ if (unaryNature operator operand.nature).isSome then []
        else [⟨.invalidType, note.location⟩]
  | binary note operator left right =>
    left.violations schema ++ right.violations schema
      ++ if (binaryNature operator).isSome then []
        else [⟨.unsupportedOperator operator, note.location⟩]
  | member note object property _ =>
    object.violations schema
      ++ match object.nature.map (memberNature note.location · property) with
        | some (.error fault) => [fault]
        | _ => []
  | identifier note name =>
    if (schema.variableEntry? name).isSome then [] else [⟨.variableNotFound, note.location⟩]
  | call note _ => [⟨.notSupported, note.location⟩]
  | pointer note _ => [⟨.notSupported, note.location⟩]
  | string .. | integer .. | bool .. | nil .. => []

end Expr

/-- A tree that has been checked. -/
structure Checked where
  tree : Expr
  /-- the first violation -/
  fault : Option (Located CheckFault)

/-- The nature of the root. -/
def Checked.nature (checked : Checked) : Option Nature := checked.tree.nature

/-- The nature of the root, if nothing is violated. -/
def Checked.toExcept (checked : Checked) : Except (Located CheckFault) (Option Nature) :=
  match checked.fault with
  | some fault => .error fault
  | none => .ok checked.nature

/-- The violation of a root that is not of the kind asked for.  A root without a nature violates
something else already. -/
def expectationViolations (expected : Option Kind) (tree : Expr) : List (Located CheckFault) :=
  match expected, tree.nature with
  | some kind, some nature =>
    if nature.kind = kind then [] else [⟨.expectedType kind, tree.location⟩]
  | _, _ => []

/-- Checks a tree against a schema and, if a kind is given, its root against the kind. -/
def check (schema : Schema) (expected : Option Kind) (tree : Expr) : Checked :=
  let tree := tree.annotate schema
  ⟨tree, (tree.violations schema ++ expectationViolations expected tree).head?⟩

end FilterLang
