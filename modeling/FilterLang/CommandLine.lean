import FilterLang.Library.Alignment
import FilterLang.Library.Json
import FilterLang.Report

/-!
# The command line

* **`Words`** and **`Words.read?`** — the words of a command: one of five commands, an expression,
  and options anywhere.  A long option takes its value behind an equals sign or as the next word;
  behind `--` every word stands for itself.
* **`runArguments`** — the report of a list of words, given the files that can be read.  JSON is
  printed over several lines, and candidates are matched by alignment.
-/

namespace FilterLang.CommandLine

/-! ### Words -/

/-- The command of a given name. -/
def Command.ofName? (name : String) : Option Command :=
  match name with
  | "tokens" => some tokens
  | "parse" => some parse
  | "check" => some check
  | "suggest" => some suggest
  | "fmt" => some format
  | _ => none

/-- An option that takes a value. -/
inductive ValueOption where
  | schema
  | expect
  | cursor
  | query
deriving DecidableEq

/-- The option of a long name. -/
def ValueOption.ofName? (name : String) : Option ValueOption :=
  match name with
  | "schema" => some schema
  | "expect" => some expect
  | "cursor" => some cursor
  | "query" => some query
  | _ => none

/-- What the words say so far. -/
structure Words extends Options where
  command : Option Command := none
  expression : Option String := none
  /-- the option that waits for its value -/
  waiting : Option ValueOption := none
  /-- whether every further word stands for itself -/
  literal : Bool := false

namespace Words

/-- A natural number of 64 bits, which may have a plus sign. -/
def readNat? (cs : List Char) : Option Nat :=
  let digits := match cs with
    | '+' :: digits => digits
    | _ => cs
  if !digits.isEmpty && digits.all (Text.isDigitOf 10) then
    let n := Text.valueOfDigits 10 digits
    if n < 18446744073709551616 then some n else none
  else none

/-- Gives an option its value. -/
def setValue? (o : Words) (option : ValueOption) (value : String) : Option Words :=
  let o := { o with waiting := none }
  match option with
  | .schema => some { o with schema := some value }
  | .expect => (Kind.ofName? value).map fun kind => { o with expect := some kind }
  | .cursor => (readNat? value.toList).map fun n => { o with cursor := some n }
  | .query => some { o with query := some value }

/-- Takes a word that is no option: the command, and then the expression. -/
def addWord? (o : Words) (word : String) : Option Words :=
  if o.command.isNone then
    (Command.ofName? word).map fun command => { o with command := some command }
  else if o.expression.isNone then some { o with expression := some word }
  else none

/-- Takes a long option, given what stands behind its two dashes. -/
def addLong? (o : Words) (text : List Char) : Option Words :=
  let name := text.takeWhile (· != '=')
  let value := text.drop (name.length + 1)
  match ValueOption.ofName? (String.ofList name) with
  | some option =>
    if name.length < text.length then o.setValue? option (String.ofList value)
    else some { o with waiting := some option }
  | none =>
    if text = "quiet".toList ∨ text = "verbose".toList then some o else none

/-- Takes short options, given what stands behind the dash. -/
def addShort? (o : Words) : List Char → Option Words
  | [] => some o
  | 'q' :: rest => addShort? o rest
  | 'v' :: rest => addShort? o rest
  | ['s'] => some { o with waiting := some .schema }
  | 's' :: '=' :: value => o.setValue? .schema (String.ofList value)
  | 's' :: value => o.setValue? .schema (String.ofList value)
  | _ => none

/-- Takes a word. -/
def add? (o : Words) (word : String) : Option Words :=
  match o.waiting with
  | some option =>
    if "-".isPrefixOf word && word != "-" then none else o.setValue? option word
  | none =>
    if o.literal then o.addWord? word
    else
      match word.toList with
      | ['-', '-'] => some { o with literal := true }
      | '-' :: '-' :: text => o.addLong? text
      | '-' :: c :: text => o.addShort? (c :: text)
      | _ => o.addWord? word

/-- What a list of words says, if it makes sense so far. -/
def read? (words : List String) : Option Words :=
  words.foldlM add? {}

end Words

/-! ### Reports -/

/-- The report of words that make no command. -/
def usage : Report :=
  { code := 2
    err := "usage: (tokens | parse | check | suggest | fmt) EXPR [--schema FILE] [--expect KIND]"
      ++ " [--cursor N] [--query TEXT] [-q]\n" }

/-- The report of a list of words. -/
def runArguments (load : String → Except String String) (words : List String) : Report :=
  match Words.read? words with
  | none => usage
  | some said =>
    match said.waiting, said.command, said.expression with
    | none, some command, some source =>
      command.report ⟨.pretty, .aligning⟩ load said.toOptions source
    | _, _, _ => usage

end FilterLang.CommandLine
