import FilterLang.Operator
import FilterLang.Text.Blank
import FilterLang.Text.Quoted
import FilterLang.Token

/-!
# From text to tokens

The scanner cuts a text into tokens.  It never gives up: whatever it meets, it notes the first
fault and goes on, and its last token is always the end of the text.

* **`ScanFault`** — what can be wrong with a text, and the **`message`** of each fault.
* **`Scanner`** — the unread characters, the characters read since the last token, the places of
  both, and what has been found.  All reading is **`Scanner.read`**, which moves a number of
  characters from the first list to the second.
* **`Phase`** and **`Scanner.step`** — the scanner as a machine.  A step reads at most one token
  and names the phase that comes next.
* **`scan`** — the machine run to its end.  A text of `n` characters takes at most `2 * n + 1`
  steps: every phase but `root` reads a character or was entered by reading one.
-/

namespace FilterLang

/-- What can be wrong with a text before its structure is looked at. -/
inductive ScanFault where
  /-- a character that starts no token -/
  | unrecognizedCharacter (c : Char)
  /-- a number that runs into a word -/
  | badNumberSyntax (word : String)
  /-- a quoted text without its closing quote -/
  | unterminatedLiteral
  /-- an escape that stands for nothing -/
  | invalidEscape
  /-- a comment that is never closed -/
  | unclosedComment
deriving DecidableEq

/-- The wording of a fault. -/
def ScanFault.message : ScanFault → String
  | unrecognizedCharacter c => "unrecognized character: " ++ c.toString
  | badNumberSyntax word => "bad number syntax: " ++ word
  | unterminatedLiteral => "literal not terminated"
  | invalidEscape => "invalid char escape"
  | unclosedComment => "unclosed comment"

/-- A scanner at work. -/
structure Scanner where
  /-- the characters that are still unread -/
  rest : List Char
  /-- the characters read since the last token -/
  lexeme : List Char := []
  /-- the place of the first character of `lexeme` -/
  start : Location := .origin
  /-- the place of the first character of `rest` -/
  here : Location := .origin
  /-- the tokens found so far, the latest first -/
  tokens : List Token := []
  /-- the first fault -/
  fault : Option (Located ScanFault) := none
deriving DecidableEq

namespace Scanner

/-! ### Reading and emitting -/

/-- Reads `n` characters, or what is left of them. -/
def read (s : Scanner) (n : Nat) : Scanner :=
  { s with
    rest := s.rest.drop n
    lexeme := s.lexeme ++ s.rest.take n
    here := s.here.advance (s.rest.take n) }

/-- Reads as long as the characters satisfy `p`. -/
def readWhile (p : Char → Bool) (s : Scanner) : Scanner :=
  s.read (s.rest.takeWhile p).length

/-- Reads one character if it satisfies `p`. -/
def readOne (p : Char → Bool) (s : Scanner) : Scanner :=
  match s.rest with
  | c :: _ => if p c then s.read 1 else s
  | [] => s

/-- Forgets the characters read since the last token. -/
def skip (s : Scanner) : Scanner :=
  { s with lexeme := [], start := s.here }

/-- Makes a token of a given value out of the characters read since the last one. -/
def emitValue (kind : TokenKind) (value : List Char) (s : Scanner) : Scanner :=
  let token : Token :=
    { kind, value := String.ofList value, location := s.start, width := s.lexeme.length }
  skip { s with tokens := token :: s.tokens }

/-- Makes a token of the characters read since the last one. -/
def emit (kind : TokenKind) (s : Scanner) : Scanner :=
  s.emitValue kind s.lexeme

/-- Notes a fault at a place, unless there is an earlier one. -/
def noteAt (location : Location) (fault : ScanFault) (s : Scanner) : Scanner :=
  { s with fault := s.fault.or (some ⟨fault, location⟩) }

/-- Notes a fault at the start of the token being read. -/
def note (fault : ScanFault) (s : Scanner) : Scanner :=
  s.noteAt s.start fault

/-! ### Numbers -/

/-- The digits of a base, among which underscores may stand. -/
def isNumeralChar (base : Nat) (c : Char) : Bool :=
  Text.isDigitOf base c || c == '_'

/-- The base that the letter behind a leading zero selects. -/
def baseOfLetter? (c : Char) : Option Nat :=
  if c == 'x' || c == 'X' then some 16
  else if c == 'o' || c == 'O' then some 8
  else if c == 'b' || c == 'B' then some 2
  else none

/-- Reads the mark of a base, if there is one.  A leading zero alone selects nothing. -/
def readBase (s : Scanner) : Scanner × Nat :=
  match s.rest with
  | '0' :: c :: _ =>
    match baseOfLetter? c with
    | some base => (s.read 2, base)
    | none => (s, 10)
  | _ => (s, 10)

/-- Reads an exponent, if there is one. -/
def readExponent (base : Nat) (s : Scanner) : Scanner :=
  match s.rest with
  | c :: _ =>
    if c == 'e' || c == 'E' then
      ((s.read 1).readOne fun c => c == '+' || c == '-').readWhile (isNumeralChar base)
    else s
  | [] => s

/-- Reads a number and tells whether it is sound.  Two dots belong to a range and are left
alone, and a number that runs into a word takes its first character along. -/
def readNumber (s : Scanner) : Scanner × Bool :=
  let (s, base) := s.readBase
  let s := s.readWhile (isNumeralChar base)
  match s.rest with
  | '.' :: '.' :: _ => (s, true)
  | rest =>
    let s := if rest.head? == some '.' then (s.read 1).readWhile (isNumeralChar base) else s
    let s := s.readExponent base
    if s.rest.head?.any Text.isWordChar then (s.read 1, false) else (s, true)

/-! ### Quoted text and comments -/

/-- Reads a text between two `quote` characters. -/
def readQuoted (quote : Char) (s : Scanner) : Scanner :=
  let s := s.read 1
  let quoted := Text.Quoted.read quote s.here s.rest
  let s := s.read quoted.length
  let s := match quoted.fault with
    | some location => s.noteAt location .invalidEscape
    | none => s
  let s := if quoted.closed then s else s.note .unterminatedLiteral
  s.emitValue .string quoted.value

/-- Reads a text between two backquotes, which stands for itself. -/
def readRaw (s : Scanner) : Scanner :=
  let s := s.read 1
  let value := s.rest.takeWhile (· != '\x60')
  if value.length < s.rest.length then
    (s.read (value.length + 1)).emitValue .string value
  else
    ((s.read value.length).note .unterminatedLiteral).emitValue .string value

/-- The length of a block comment behind its opening, and whether it is closed. -/
def blockComment : List Char → Nat × Bool
  | [] => (0, false)
  | '*' :: '/' :: _ => (2, true)
  | _ :: cs => ((blockComment cs).1 + 1, (blockComment cs).2)

/-! ### The machine -/

/-- What the scanner is about to read. -/
inductive Phase where
  /-- a token, or the end of the text -/
  | root
  /-- a number, perhaps behind a dot -/
  | number
  /-- an operator of one or two dots, or a number that starts with one -/
  | dot
  /-- a word -/
  | identifier
  /-- what follows the word `not` -/
  | not
  /-- the rest of an operator that starts with a question mark -/
  | questionMark
  /-- a comment, or the operator `/` -/
  | slash
  | lineComment
  | blockComment
  /-- the rest of a pointer -/
  | pointer
  /-- nothing any more -/
  | done
deriving DecidableEq

/-- Brackets are tokens of their own. -/
def isBracket (c : Char) : Bool := "([\x7b)]\x7d".toList.contains c

/-- Operators of one character that take no second one. -/
def isSingleOperator (c : Char) : Bool := ",;%+-^".toList.contains c

/-- Operators that may take a second character. -/
def isDoubleOperator (c : Char) : Bool := "&!=*<>".toList.contains c

/-- The second character of an operator of two. -/
def isOperatorTail (c : Char) : Bool := "&=*".toList.contains c

/-- A token that is told by its first character `c`, or the phase that reads it. -/
def stepRoot (c : Char) (s : Scanner) : Phase × Scanner :=
  if Text.isBlank c then (.root, (s.readWhile Text.isBlank).emit .whitespace)
  else if c == '\'' || c == '"' then (.root, s.readQuoted c)
  else if c == '\x60' then (.root, s.readRaw)
  else if c.isDigit then (.number, s)
  else if c == '?' then (.questionMark, s.read 1)
  else if c == '/' then (.slash, s.read 1)
  else if c == '#' then (.pointer, s.read 1)
  else if c == '|' || c == ':' then (.root, ((s.read 1).readOne (· == c)).emit .operator)
  else if isBracket c then (.root, (s.read 1).emit .bracket)
  else if isSingleOperator c then (.root, (s.read 1).emit .operator)
  else if isDoubleOperator c then (.root, ((s.read 1).readOne isOperatorTail).emit .operator)
  else if c == '.' then (.dot, s)
  else if Text.isWordChar c then (.identifier, s)
  else (.root, ((s.read 1).note (.unrecognizedCharacter c)).skip)

/-- The operator `not`, the blanks behind it, and a relation that it negates.  Any other word is
left unread. -/
def stepNot (s : Scanner) : Scanner :=
  let s := (s.emit .operator).readWhile Text.isBlank
  let s := if s.lexeme.isEmpty then s else s.emit .whitespace
  let word := s.rest.takeWhile Text.isWordChar
  if Operator.isNegatable (String.ofList word) then (s.read word.length).emit .operator else s

/-- One step of the scanner. -/
def step (phase : Phase) (s : Scanner) : Phase × Scanner :=
  match phase with
  | .root =>
    match s.rest with
    | [] => (.done, s.emit .eof)
    | c :: _ => s.stepRoot c
  | .number =>
    let (s, sound) := s.readNumber
    let s := if sound then s else s.note (.badNumberSyntax (String.ofList s.lexeme))
    (.root, s.emit .number)
  | .dot =>
    let s := s.read 1
    if s.rest.head?.any Char.isDigit then (.number, s)
    else (.root, (s.readOne (· == '.')).emit .operator)
  | .identifier =>
    let s := s.readWhile Text.isWordChar
    let word := String.ofList s.lexeme
    if word == "not" then (.not, s)
    else if Operator.isOperatorWord word then (.root, s.emit .operator)
    else (.root, s.emit .identifier)
  | .not => (.root, s.stepNot)
  | .questionMark => (.root, (s.readOne fun c => c == '.' || c == '?').emit .operator)
  | .slash =>
    match s.rest with
    | '/' :: _ => (.lineComment, s.read 1)
    | '*' :: _ => (.blockComment, s.read 1)
    | _ => (.root, s.emit .operator)
  | .lineComment => (.root, (s.readWhile (· != '\n')).skip)
  | .blockComment =>
    let (length, closed) := blockComment s.rest
    let s := s.read length
    (.root, (if closed then s else s.note .unclosedComment).skip)
  | .pointer =>
    let s := ((s.readOne (· == '#')).emit .operator).readWhile Text.isWordChar
    (.root, if s.lexeme.isEmpty then s else s.emit .identifier)
  | .done => (.done, s)

/-- At most `fuel` steps, up to the end of the text. -/
def run : Nat → Phase → Scanner → Phase × Scanner
  | 0, phase, s => (phase, s)
  | fuel + 1, phase, s =>
    if phase = .done then (phase, s) else
      let (phase, s) := s.step phase
      run fuel phase s

end Scanner

/-- The tokens of a text and its first fault. -/
structure Scan where
  tokens : List Token
  fault : Option (Located ScanFault)
deriving DecidableEq

/-- Cuts a list of characters into tokens. -/
def scanChars (cs : List Char) : Scan :=
  let (_, s) := Scanner.run (2 * cs.length + 1) .root { rest := cs }
  ⟨s.tokens.reverse, s.fault⟩

/-- Cuts a text into tokens. -/
def scan (source : String) : Scan := scanChars source.toList

/-- The tokens of a text that has no fault. -/
def Scan.toExcept (result : Scan) : Except (Located ScanFault) (List Token) :=
  match result.fault with
  | some fault => .error fault
  | none => .ok result.tokens

end FilterLang
