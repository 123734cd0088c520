import FilterLang.Location

/-!
# Tokens

The words of an expression text, as an editor sees them.

* **`TokenKind`** — what a token is, with its **`name`** in messages and its **`styleClass`** for
  highlighting.  The scanner makes the first seven kinds; `caret` marks the end of a text that is
  still being typed, and the other five are reserved.
* **`Token`** — kind, text and place, the number of characters it spans, and the message of a
  problem at it.
* **`Token.ofText`** — a token that spans exactly its text.
* **`Token.endColumn`**, **`Token.is`**, **`Token.describe`** — where a token ends, whether it is
  a given word, and how a message shows it.
-/

namespace FilterLang

/-- What a token is. -/
inductive TokenKind where
  /-- a name, also `true`, `false` and `nil` -/
  | identifier
  /-- a number, as it is written -/
  | number
  /-- a quoted text, given by what it stands for -/
  | string
  /-- an operator, symbol or word -/
  | operator
  /-- one of the six bracket characters -/
  | bracket
  /-- the end of the text -/
  | eof
  /-- a run of blanks -/
  | whitespace
  /-- the place where typing goes on -/
  | caret
  | unknown
  | punctuation
  | keyword
  | boolean
  | comment
deriving DecidableEq, Inhabited

namespace TokenKind

/-- All kinds, in the order of their declaration. -/
def all : List TokenKind :=
  [.identifier, .number, .string, .operator, .bracket, .eof, .whitespace, .caret, .unknown,
    .punctuation, .keyword, .boolean, .comment]

/-- The name of a kind in messages and in answers. -/
def name : TokenKind → String
  | identifier => "ident"
  | number => "number"
  | string => "string"
  | operator => "operator"
  | bracket => "bracket"
  | eof => "EOF"
  | whitespace => "whitespace"
  | caret => "caret"
  | unknown => ""
  | punctuation => "punctuation"
  | keyword => "keyword"
  | boolean => "boolean"
  | comment => "comment"

/-- The kind of a given name. -/
def ofName? (text : String) : Option TokenKind :=
  all.find? fun kind => kind.name == text

/-- The class under which a highlighter shows a kind. -/
def styleClass : TokenKind → String
  | eof => "eof"
  | unknown | comment => ""
  | boolean => "bool"
  | kind => kind.name

end TokenKind

/-- A word of an expression text. -/
structure Token where
  kind : TokenKind
  /-- the text, without quotes and escapes when the token is a string -/
  value : String
  location : Location
  /-- how many characters of the source the token spans -/
  width : Nat
  /-- the message of a problem at this token -/
  error : Option String := none
deriving DecidableEq, Inhabited

namespace Token

/-- A token that spans just its text. -/
def ofText (kind : TokenKind) (value : String) (location : Location) : Token :=
  { kind, value, location, width := value.length }

/-- The column just behind the last character, on the line the token starts in. -/
def endColumn (token : Token) : Nat :=
  token.location.column + token.width

/-- Whether the token has this kind and this text. -/
def is (token : Token) (kind : TokenKind) (value : String) : Bool :=
  token.kind == kind && token.value == value

/-- How a message shows the token. -/
def describe (token : Token) : String :=
  token.value ++ " (" ++ token.kind.name ++ ")"

end Token

end FilterLang
