import FilterLang.Cursor
import FilterLang.Expr.Parser
import FilterLang.Fuzzy.Ranking
import FilterLang.Typing

/-!
# Completions

What can be typed at the cursor.  The tokens that are complete there are read strictly, with a
caret behind them.  If they make an expression, an operator comes next; if they do not, the
production that was open at the caret tells what it waits for.

* **`Title`**, **`Entry`**, **`Item`**, **`Completion`** — a titled list of items, each with the
  schema entry it comes from, and the column where an item is to be inserted.
* **`Completion.offer?`** — the title and the items at a column.
* **`Completion.withQuery?`** — the completion for a given query.
* **`Completion.at?`** — the completion for the word that ends at the cursor.
* **`Completion.replacements?`** — what can stand in place of the token at the cursor.

All of them take the matcher as their first argument.
-/

namespace FilterLang

/-- What is offered. -/
inductive Title where
  /-- the variables of the schema -/
  | fields
  | operators
  /-- the values of the left operand -/
  | values
  /-- the fields of the left operand -/
  | jsonFields
  /-- a calendar, which has no items -/
  | date
deriving DecidableEq, Inhabited

/-- The wording of a title. -/
def Title.name : Title → String
  | fields => "fields"
  | operators => "operators"
  | values => "values"
  | jsonFields => "json fields"
  | date => "date"

/-- The schema entry behind an item. -/
inductive Entry where
  | type (entry : TypeEntry)
  | operator (entry : OperatorEntry)

/-- Whether the entry is an operator for strings. -/
def Entry.isStringOperator : Entry → Bool
  | operator entry => entry.allow == some .string
  | type _ => false

/-- One thing that can be typed. -/
structure Item where
  name : String
  /-- the name with the matched characters marked -/
  html : String
  entry : Entry

/-- What can be typed at a place. -/
structure Completion where
  title : Title
  items : List Item
  /-- the column where an item is to be inserted -/
  anchor : Nat

namespace Completion

/-! ### Items -/

/-- The entries whose names match the query, in the order of the ranking. -/
def rankEntries (matcher : Matcher) (query : String) (entries : NameMap Entry) : List Item :=
  (Fuzzy.rankWith matcher query entries.names).filterMap fun ranked =>
    (entries.find? ranked.name).map fun entry => ⟨ranked.name, ranked.html, entry⟩

/-- The types of a map whose names match the query. -/
def typeItems (matcher : Matcher) (query : String) (types : NameMap TypeEntry) : List Item :=
  rankEntries matcher query (types.map .type)

/-- The operators of the schema that satisfy `keep` and match the query.  Without a query those for
strings come last. -/
def operatorItems (matcher : Matcher) (query : String) (schema : Schema)
    (keep : OperatorEntry → Bool) : List Item :=
  let items := rankEntries matcher query ((schema.operators.filter keep).map .operator)
  if query.isEmpty then
    items.filter (!·.entry.isStringOperator) ++ items.filter (·.entry.isStringOperator)
  else items

/-- The values of an entry between quotes, in ascending order. -/
def valueItems (entry : TypeEntry) (values : List String) : List Item :=
  (values.mergeSort fun x y => x ≤ y).map fun value =>
    let quoted := "\"" ++ value ++ "\""
    ⟨quoted, quoted, .type entry⟩

/-! ### The offer -/

/-- Whether an operator may follow an operand, given the entry of the operand if it is known. -/
def admits (operand : Option TypeEntry) (operator : OperatorEntry) : Bool :=
  match operand with
  | none => true
  | some entry =>
    if entry.kind = .int then operator.allow == none || operator.allow == some .number
    else if entry.isDate then operator.allow == none
    else true

/-- The operators that may follow a token.  A name that is a variable narrows them down. -/
def operatorsAfter (matcher : Matcher) (schema : Schema) (query : String) (previous : Token) :
    Title × List Item :=
  let operand :=
    if previous.kind = .identifier then schema.variableEntry? previous.value else none
  (.operators, operatorItems matcher query schema (admits operand))

/-- All variables that match the query. -/
def variableOffer (matcher : Matcher) (schema : Schema) (query : String) : Title × List Item :=
  (.fields, typeItems matcher query schema.vars)

/-- Whether an operator joins two conditions. -/
def isConnective (operator : String) : Bool :=
  ["and", "or", "&&", "||"].contains operator

/-- What can stand to the right of an operator.  The schema entry of the left side decides, and
failing that the operator. -/
def rightOf? (matcher : Matcher) (schema : Schema) (query : String) (left : Expr)
    (operator : String) : Option (Title × List Item) :=
  let entry := (check schema (some .bool) left).tree.entry?
  if entry.any TypeEntry.isDate then some (.date, [])
  else
    match entry, entry.bind TypeEntry.values, entry.bind TypeEntry.fields with
    | some entry, some values, _ => some (.values, valueItems entry values)
    | some _, none, some fields => some (.jsonFields, typeItems matcher query fields)
    | _, _, _ =>
      if isConnective operator then some (variableOffer matcher schema query) else none

/-- The tokens that are complete at a column, without the blanks. -/
def completeTokens (column : Nat) (tokens : List Token) : List Token :=
  (Cursor.tokensUntil column tokens).filter fun token => token.kind != .whitespace

/-- The caret at a column. -/
def caret (column : Nat) : Token := .ofText .caret "" ⟨1, column⟩

/-- The title and the items at a column. -/
def offer? (matcher : Matcher) (schema : Schema) (query : String) (column : Nat)
    (tokens : List Token) : Option (Title × List Item) :=
  let complete := completeTokens column tokens
  let previous := complete.getLast?
  let next := previous.map (operatorsAfter matcher schema query)
  match parseStrict (complete ++ [caret column]) with
  | .ok _ => some (next.getD (variableOffer matcher schema query))
  | .error stop =>
    match stop.top? with
    | some (.binary left operator _) => rightOf? matcher schema query left operator
    | none | some .brackets =>
      if previous.all fun token => token.kind = .bracket then
        some (variableOffer matcher schema query)
      else next
    | some (.unary _) | some .secondary => next

/-! ### Completions -/

/-- The completion at a column for a given query. -/
def withQuery? (matcher : Matcher) (schema : Schema) (query : String) (column : Nat)
    (tokens : List Token) : Option Completion :=
  (offer? matcher schema query column tokens).map fun offer =>
    { title := offer.1
      items := offer.2
      anchor :=
        match Cursor.tokenAt? column tokens with
        | some (token, _) => token.location.column
        | none => column - query.length }

/-- The completion at a column for the word that ends there. -/
def at? (matcher : Matcher) (schema : Schema) (source : String) (column : Nat)
    (tokens : List Token) : Option Completion :=
  withQuery? matcher schema (Cursor.partialWord source column).1 column tokens

/-- What can stand in place of the token that a column touches: any variable for a name and any
operator for an operator other than `not`.  For other tokens it is the completion. -/
def replacements? (matcher : Matcher) (schema : Schema) (source : String) (column : Nat)
    (tokens : List Token) : Option Completion :=
  match Cursor.tokenAt? column tokens with
  | none => none
  | some (token, _) =>
    let anchor := token.location.column
    match token.kind with
    | .identifier => some ⟨.fields, typeItems matcher "" schema.vars, anchor⟩
    | .operator =>
      if token.value = "not" then none
      else some ⟨.operators, operatorItems matcher "" schema fun _ => true, anchor⟩
    | _ => at? matcher schema source column tokens

end Completion

end FilterLang
