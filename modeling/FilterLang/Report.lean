import FilterLang.Analysis
import FilterLang.Encoding
import FilterLang.Expr.Printer

/-!
# Reports

What the commands print about an expression.

* **`Command`**, **`Options`** — one of five commands, and what may be said besides.
* **`Library`** — what the commands are given from outside: a format for JSON and a matcher.
* **`Report`** — the exit code and what is printed.
* **`Command.run`** — the report of a command for a schema.
* **`Command.report`** — the report of a command, given the files that can be read.
-/

namespace FilterLang.CommandLine

/-- What is to be done with the expression. -/
inductive Command where
  | tokens
  | parse
  | check
  | suggest
  | format
deriving DecidableEq, Inhabited

/-- What is said about the command. -/
structure Options where
  schema : Option String := none
  expect : Option Kind := none
  cursor : Option Nat := none
  query : Option String := none

/-- What the commands are given from outside. -/
structure Library where
  format : Json.Format
  matcher : Matcher

/-- The exit code and what is printed. -/
structure Report where
  code : Nat
  out : String := ""
  err : String := ""
deriving DecidableEq

/-- A report that prints `out`, and then `message` if something is wrong. -/
def Report.ofMessage (out : String) (message : Option String) : Report :=
  match message with
  | none => { code := 0, out }
  | some message => { code := 1, out, err := message ++ "\n" }

/-- A line that holds a value. -/
def printed (format : Json.Format) (json : Json) : String := format.write json ++ "\n"

/-- The report on the tokens of a text. -/
def reportTokens (format : Json.Format) (source : String) : Report :=
  let scanned := scan source
  .ofMessage (printed format (.array (scanned.tokens.map Token.toJson)))
    (scanned.fault.map fun fault => (fault.map ScanFault.message).text)

/-- The report on the tree of a text. -/
def reportTree (format : Json.Format) (source : String) : Report :=
  let scanned := scan source
  let parsed := parse scanned.tokens
  let fault :=
    (parsed.fault.map (·.map ParseFault.message)).or
      (scanned.fault.map (·.map ScanFault.message))
  .ofMessage ((parsed.tree.map fun tree => printed format tree.toJson).getD "")
    (fault.map Located.text)

/-- The report on the nature of a text. -/
def reportNature (format : Json.Format) (schema : Schema) (expected : Option Kind)
    (source : String) : Report :=
  let analysis := analyze schema expected source
  match analysis.diagnostic? with
  | some diagnostic => .ofMessage "" (some diagnostic.text)
  | none => .ofMessage ((analysis.nature.map fun nature => printed format nature.toJson).getD "") none

/-- The report on the completion of a text. -/
def reportCompletion (library : Library) (schema : Schema) (cursor : Option Nat)
    (query : Option String) (source : String) : Report :=
  let tokens := (scan source).tokens
  let column := cursor.getD source.length
  let completion := match query with
    | some query => Completion.withQuery? library.matcher schema query column tokens
    | none => Completion.at? library.matcher schema source column tokens
  match completion with
  | some completion => { code := 0, out := printed library.format completion.toJson }
  | none => { code := 0, err := "no suggestions at column " ++ toString column ++ "\n" }

/-- The report on the canonical form of a text. -/
def reportCanonical (source : String) : Report :=
  match readTree source with
  | .ok tree => .ofMessage (tree.print ++ "\n") none
  | .error problem => .ofMessage "" (some problem.diagnostic.text)

/-- The report of a command for a schema. -/
def Command.run (library : Library) (command : Command) (options : Options) (schema : Schema)
    (source : String) : Report :=
  match command with
  | tokens => reportTokens library.format source
  | parse => reportTree library.format source
  | check => reportNature library.format schema options.expect source
  | suggest => reportCompletion library schema options.cursor options.query source
  | format => reportCanonical source

/-- The schema that the options name, or what is wrong with it.  A file is read by `load`, which
gives its text or says why there is none. -/
def loadSchema (format : Json.Format) (load : String → Except String String)
    (path : Option String) : Except String Schema :=
  match path with
  | none => .ok {}
  | some path =>
    match load path with
    | .error reason => .error ("failed to read schema " ++ path ++ ": " ++ reason)
    | .ok text =>
      match Schema.ofText? format text with
      | some schema => .ok schema
      | none => .error "invalid schema"

/-- The report of a command. -/
def Command.report (library : Library) (load : String → Except String String) (command : Command)
    (options : Options) (source : String) : Report :=
  match loadSchema library.format load options.schema with
  | .error message => { code := 2, err := "error: " ++ message ++ "\n" }
  | .ok schema => command.run library options schema source

end FilterLang.CommandLine
