import FilterLang.Text.Blank
import FilterLang.Token

/-!
# Around the cursor

What stands at, beside and before a column of a line of tokens, and the word being typed there.

* **`Cursor.tokenAt?`** — the token that a column touches, words first.
* **`Cursor.bounds`** — the tokens on either side of a column.
* **`Cursor.tokensUntil`** — the tokens that are complete at a column.
* **`Cursor.partialWord`** — the word that ends at a column, found by **`Cursor.search?`**: the
  leftmost place where a text can be split into a lead and a word that runs to its end.
* **`Cursor.splitInput`** — a field that holds free text and, behind a separator, an expression.
* **`Cursor.matchingBracket?`** and its companions — the six bracket characters.
-/

namespace FilterLang.Cursor

/-! ### Brackets -/

/-- Whether a character opens a bracket. -/
def isOpenBracket (c : Char) : Bool := "([\x7b".toList.contains c

/-- Whether a character closes a bracket. -/
def isClosedBracket (c : Char) : Bool := ")]\x7d".toList.contains c

/-- The bracket on the other side. -/
def matchingBracket? (c : Char) : Option Char :=
  match c with
  | '(' => some ')'
  | '[' => some ']'
  | '\x7b' => some '\x7d'
  | ')' => some '('
  | ']' => some '['
  | '\x7d' => some '\x7b'
  | _ => none

/-! ### Tokens -/

/-- Whether a token is more than a blank, a bracket or the end. -/
def isWord (token : Token) : Bool :=
  token.kind != .eof && token.kind != .whitespace && token.kind != .bracket

/-- Whether a token is complete as soon as it is typed. -/
def isClosed (token : Token) : Bool :=
  token.kind == .bracket || token.is .operator "."

/-- Whether a column lies in a token or at one of its ends. -/
def touches (column : Nat) (token : Token) : Bool :=
  token.location.column ≤ column && column ≤ token.endColumn

/-- Whether a column lies in a token or at its end, and not at its start. -/
def reaches (column : Nat) (token : Token) : Bool :=
  token.location.column < column && column ≤ token.endColumn

/-- The token that a column touches, and its index.  Of several the last word counts, and if there
is no word among them the first one. -/
def tokenAt? (column : Nat) (tokens : List Token) : Option (Token × Nat) :=
  let touched := tokens.zipIdx.filter fun t => touches column t.1
  (touched.reverse.find? fun t => isWord t.1).or touched.head?

/-- The index of the token that ends at a column or holds it, and the index of the one that starts
there. -/
def bounds (column : Nat) (tokens : List Token) : Option Nat × Option Nat :=
  let before := tokens.takeWhile fun token => token.location.column != column
  let lower := before.zipIdx.reverse.find? fun t => reaches column t.1
  (lower.map Prod.snd, if before.length < tokens.length then some before.length else none)

/-- Whether a token is complete when the cursor is in a column.  A token that ends at the cursor is
still being typed, unless it is closed. -/
def isComplete (column : Nat) (token : Token) : Bool :=
  if isClosed token then token.endColumn ≤ column else token.endColumn < column

/-- The tokens in front of the first one that is not complete. -/
def tokensUntil (column : Nat) (tokens : List Token) : List Token :=
  tokens.takeWhile (isComplete column)

/-! ### The word being typed -/

/-- Whether a character can be part of the word being typed. -/
def isQueryChar (c : Char) : Bool :=
  !Text.isBlank c && c != '(' && c != ')' && c != '.'

/-- The text as a word, if all its characters can be part of one. -/
def word? (cs : List Char) : Option (List Char) :=
  if cs.all isQueryChar then some cs else none

/-- The word behind a lead that starts with the first character.  A lead is an opening bracket or
any visible character with blanks behind it, or a dot; behind the bracket there need be none. -/
def wordBehindLead? (cs : List Char) : Option (List Char) :=
  match cs with
  | [] => none
  | c :: rest =>
    let afterBlanks := rest.dropWhile Text.isBlank
    let afterBracket := if c == '(' then word? afterBlanks else none
    let afterVisible :=
      if !Text.isBlank c && rest.head?.any Text.isBlank then word? afterBlanks else none
    let afterDot := if c == '.' then word? rest else none
    (afterBracket.or afterVisible).or afterDot

/-- The word behind the leftmost lead of a text. -/
def search? : List Char → Option (List Char)
  | [] => none
  | c :: rest => (wordBehindLead? (c :: rest)).or (search? rest)

/-- The word at the end of a text.  The start of the text is a lead as well. -/
def lastWord (cs : List Char) : List Char :=
  ((word? (cs.dropWhile Text.isBlank)).or (search? cs)).getD []

/-- The word that ends at a column of a text, and the column where it starts.  Behind the end of
the text the columns go on. -/
def partialWord (text : String) (column : Nat) : String × Nat :=
  let word := lastWord (text.toList.take column)
  (String.ofList word, column - word.length)

/-! ### Free text and expression -/

/-- A field cut in two. -/
structure SplitInput where
  /-- the free text -/
  search : String
  /-- whether there is an expression -/
  active : Bool
  expression : String
  /-- how many characters stand before the expression -/
  startsAt : Nat
deriving DecidableEq

/-- What stands before and behind the first place where `separator` occurs. -/
def splitOnce? (separator : List Char) : List Char → Option (List Char × List Char)
  | [] => if separator.isEmpty then some ([], []) else none
  | c :: cs =>
    if separator.isPrefixOf (c :: cs) then some ([], (c :: cs).drop separator.length)
    else (splitOnce? separator cs).map fun parts => (c :: parts.1, parts.2)

/-- Cuts a field at the first separator.  Without a separator to look for, all of it is an
expression. -/
def splitInput (raw separator : String) : SplitInput :=
  if separator.isEmpty then ⟨"", true, raw, 0⟩
  else
    match splitOnce? separator.toList raw.toList with
    | some (search, expression) =>
      ⟨String.ofList search, true, String.ofList expression, search.length + separator.length⟩
    | none => ⟨raw, false, "", raw.length + separator.length⟩

end FilterLang.Cursor
