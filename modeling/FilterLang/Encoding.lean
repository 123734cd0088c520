import FilterLang.Completion
import FilterLang.Schema.Codec

/-!
# Results as JSON

The written form of tokens, trees, natures and completions, with the members in the order in which
they are printed.

* **`Location.toJson`**, **`Token.toJson`** — `error` only stands in a token that has one.
* **`Nature.toJson`** and **`Expr.toJson`** — a node is an object of its `kind`, its parts, its
  place, and its nature if it has one.
* **`Entry.toJson`**, **`Item.toJson`**, **`Completion.toJson`**.
-/

namespace FilterLang

/-- The written form of a place. -/
def Location.toJson (location : Location) : Json :=
  .object [("line", .ofNat location.line), ("column", .ofNat location.column)]

/-- The written form of a token. -/
def Token.toJson (token : Token) : Json :=
  .record
    [("location", some token.location.toJson), ("kind", some (.string token.kind.name)),
      ("value", some (.string token.value)), ("error", Json.optionalString token.error)]

/-- The written form of a nature. -/
def Nature.toJson (nature : Nature) : Json :=
  .record
    [("type", some (.string nature.kind.name)), ("format", Json.optionalString nature.format),
      ("info", nature.entry.map TypeEntry.toJson)]

namespace Expr

/-- The written form of a node of a kind with given parts. -/
def nodeToJson (kind : String) (parts : List (String × Json)) (note : Note) : Json :=
  .object <|
    ("kind", .string kind) :: parts ++ ("loc", note.location.toJson)
      :: (note.nature.map fun nature => ("nature", nature.toJson)).toList

/-- The written form of a tree. -/
def toJson : Expr → Json
  | unary note operator operand =>
    nodeToJson "unary" [("operator", .string operator), ("operand", operand.toJson)] note
  | binary note operator left right =>
    nodeToJson "binary"
      [("operator", .string operator), ("left", left.toJson), ("right", right.toJson)] note
  | member note object property method =>
    nodeToJson "member"
      [("object", object.toJson), ("property", property.toJson), ("method", .bool method)] note
  | call note callee => nodeToJson "call" [("callee", callee.toJson)] note
  | pointer note name => nodeToJson "pointer" [("name", .string name)] note
  | string note value => nodeToJson "string" [("value", .string value)] note
  | integer note value => nodeToJson "integer" [("value", .ofInt value)] note
  | bool note value => nodeToJson "bool" [("value", .bool value)] note
  | nil note => nodeToJson "nil" [] note
  | identifier note name => nodeToJson "identifier" [("value", .string name)] note

end Expr

/-- The written form of the schema entry behind an item. -/
def Entry.toJson : Entry → Json
  | type entry => entry.toJson
  | operator entry => entry.toJson

/-- The written form of an item. -/
def Item.toJson (item : Item) : Json :=
  .object
    [("name", .string item.name), ("html", .string item.html), ("type", item.entry.toJson)]

/-- The written form of a completion. -/
def Completion.toJson (completion : Completion) : Json :=
  .object
    [("title", .string completion.title.name),
      ("items", .array (completion.items.map Item.toJson)),
      ("anchor_column", .ofNat completion.anchor)]

end FilterLang
