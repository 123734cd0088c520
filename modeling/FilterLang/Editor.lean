import FilterLang.Analysis
import FilterLang.Completion
import FilterLang.Expr.Printer
import FilterLang.Library.Alignment

/-!
# An editor field

The state of a field in which an expression is typed, and what it shows.

* **`Editor`** — the text, the cursor, the schema, the kind that is asked for and the matcher, which is
  alignment unless another one is given.
* **`Edit`** and **`Editor.apply`** — one thing that a user does.  The cursor may lie behind the end
  of the text; typing and deleting then happen at the end.
* **`Editor.View`** and **`Editor.view`** — what is shown of a state.
* **`Editor.typing`** — the views while a text is typed, one for each of its beginnings.
-/

namespace FilterLang

/-- The state of an editor field. -/
structure Editor where
  text : List Char := []
  cursor : Nat := 0
  schema : Schema := {}
  /-- the kind that is asked for -/
  expected : Option Kind := none
  /-- what completions are ranked by -/
  matcher : Matcher := .aligning

/-- One thing that a user does. -/
inductive Edit where
  /-- types a text at the cursor -/
  | type (text : String)
  /-- deletes up to `count` characters before the cursor -/
  | back (count : Nat)
  /-- moves the cursor -/
  | move (column : Nat)
  /-- asks for another kind -/
  | expect (kind : Option Kind)
  /-- adds a variable to the schema -/
  | addVariable (name : String) (entry : TypeEntry)
  /-- puts an item of the completion in place of the word at the cursor -/
  | accept (index : Nat)

namespace Editor

/-- The text as a string. -/
def source (e : Editor) : String := String.ofList e.text

/-- The cursor, or the end of the text if the cursor lies behind it. -/
def position (e : Editor) : Nat := min e.cursor e.text.length

/-- Puts a text in place of the characters from `start` to `stop`, and the cursor behind it. -/
def replace (start stop : Nat) (inserted : List Char) (e : Editor) : Editor :=
  { e with
    text := e.text.take start ++ inserted ++ e.text.drop stop
    cursor := start + inserted.length }

/-- The completion at the cursor. -/
def completion? (e : Editor) : Option Completion :=
  Completion.at? e.matcher e.schema e.source e.cursor (scan e.source).tokens

/-- The state after an edit. -/
def apply (e : Editor) : Edit → Editor
  | .type text => e.replace e.position e.position text.toList
  | .back count => e.replace (e.position - count) e.position []
  | .move column => { e with cursor := column }
  | .expect kind => { e with expected := kind }
  | .addVariable name entry => { e with schema := e.schema.withVariable name entry }
  | .accept index =>
    match e.completion?.bind fun completion => completion.items[index]? with
    | none => e
    | some item =>
      let start := (Cursor.partialWord e.source e.cursor).2
      e.replace (min start e.text.length) e.position item.name.toList

/-- The states after each of a list of edits. -/
def applyAll (e : Editor) : List Edit → List Editor
  | [] => []
  | edit :: edits => e.apply edit :: (e.apply edit).applyAll edits

/-- What is shown of a state. -/
structure View where
  source : String
  cursor : Nat
  /-- whether no stage found a fault -/
  valid : Bool
  diagnostic : Option Diagnostic
  /-- the kind of the expression -/
  kind : Option Kind
  /-- the canonical text of the expression -/
  canonical : Option String
  /-- the indices of the tokens with a message, and the messages -/
  marked : List (Nat × String)
  completion : Option Completion

/-- What is shown of a state. -/
def view (e : Editor) : View :=
  let analysis := analyze e.schema e.expected e.source
  { source := e.source
    cursor := e.cursor
    valid := analysis.isValid
    diagnostic := analysis.diagnostic?
    kind := analysis.nature.map Nature.kind
    canonical := analysis.tree.map Expr.print
    marked := analysis.tokens.zipIdx.filterMap fun t => t.1.error.map (t.2, ·)
    completion := e.completion? }

/-- The views while a text is typed, one for each of its beginnings, with the cursor at the end. -/
def typing (schema : Schema) (expected : Option Kind) (source : String) : List View :=
  let cs := source.toList
  (List.range (cs.length + 1)).map fun n =>
    view { text := cs.take n, cursor := n, schema, expected }

end Editor

end FilterLang
