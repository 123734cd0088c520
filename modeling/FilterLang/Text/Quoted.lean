import FilterLang.Location
import FilterLang.Text.Digit

/-!
# Quoted text

How a text stands between quotes, and what it stands for.

* **`Escape.read`** — the escape behind a backslash: what it contributes, how many characters it
  takes, and where it is at fault.  There are eight named escapes, the escaped quote, one to three
  octal digits, and exactly two, four or eight hexadecimal digits behind `x`, `u` and `U`.
* **`Quoted.read`** — everything behind an opening quote.  Reading goes on past faulty escapes and
  ends at the closing quote, before a line feed, or at the end of the text.
* **`quote`** — a text written between double quotes, in the form the printer uses.
-/

namespace FilterLang.Text

/-- The escape behind a backslash. -/
structure Escape where
  /-- the character it stands for, if any -/
  char : Option Char
  /-- the number of characters it takes behind the backslash -/
  length : Nat
  /-- the number of characters between the backslash and the fault, if it is faulty -/
  fault : Option Nat
deriving DecidableEq

namespace Escape

/-- An escape that stands for `c`. -/
def plain (c : Char) (length : Nat) : Escape := ⟨some c, length, none⟩

/-- The escapes that have a letter of their own, and the backslash. -/
def named? (c : Char) : Option Char :=
  match c with
  | 'a' => some '\x07'
  | 'b' => some '\x08'
  | 'f' => some '\x0c'
  | 'n' => some '\n'
  | 'r' => some '\r'
  | 't' => some '\t'
  | 'v' => some '\x0b'
  | '\\' => some '\\'
  | _ => none

/-- The character of a code point, which surrogates and numbers above 10FFFF do not have. -/
def charOfCode? (code : Nat) : Option Char :=
  if code.isValidChar then some (Char.ofNat code) else none

/-- An escape by code point.  Its digits start at `cs`, behind `lead` characters of the escape;
there are at most `most` of them, and with `exact` no fewer.  The fault of one that stands for
nothing lies behind its digits. -/
def ofCode (lead base most : Nat) (exact : Bool) (cs : List Char) : Escape :=
  let digits := (cs.take most).takeWhile (isDigitOf base)
  let length := lead + digits.length
  let complete := if exact then digits.length == most else !digits.isEmpty
  match if complete then charOfCode? (codeWord base digits).toNat else none with
  | some c => plain c length
  | none => ⟨none, length, some length⟩

/-- The escape at the head of `cs`, in a text between two `quote` characters. -/
def read (quote : Char) (cs : List Char) : Escape :=
  match cs with
  | [] => ⟨none, 0, some 0⟩
  | c :: rest =>
    match named? c with
    | some d => plain d 1
    | none =>
      if c == quote then plain c 1
      else if isDigitOf 8 c then ofCode 0 8 3 false cs
      else if c == 'x' then ofCode 1 16 2 true rest
      else if c == 'u' then ofCode 1 16 4 true rest
      else if c == 'U' then ofCode 1 16 8 true rest
      else ⟨none, 1, some 0⟩

end Escape

/-- What stands behind an opening quote. -/
structure Quoted where
  /-- the text it stands for -/
  value : List Char
  /-- the number of characters it takes, the closing quote included -/
  length : Nat
  /-- whether the closing quote was found -/
  closed : Bool
  /-- where the first faulty escape is at fault -/
  fault : Option Location
deriving DecidableEq

namespace Quoted

/-- The text behind an opening `quote`, from the place `here` on.  The first `skip` characters
belong to an escape that has been read already. -/
def readFrom (quote : Char) : Location → Nat → List Char → Quoted
  | _, _, [] => ⟨[], 0, false, none⟩
  | here, skip + 1, c :: cs =>
    let tail := readFrom quote (here.after c) skip cs
    { tail with length := tail.length + 1 }
  | here, 0, c :: cs =>
    if c == '\n' then ⟨[], 0, false, none⟩
    else if c == '\\' then
      let escape := Escape.read quote cs
      let inside := here.after c
      let tail := readFrom quote inside escape.length cs
      { tail with
        value := escape.char.toList ++ tail.value
        length := tail.length + 1
        fault := (escape.fault.map fun n => inside.advance (cs.take n)).or tail.fault }
    else if c == quote then ⟨[], 1, true, none⟩
    else
      let tail := readFrom quote (here.after c) 0 cs
      { tail with value := c :: tail.value, length := tail.length + 1 }

/-- The text behind an opening `quote`, which ends just before the place `here`. -/
def read (quote : Char) (here : Location) (cs : List Char) : Quoted :=
  readFrom quote here 0 cs

theorem length_readFrom_le (quote : Char) (here : Location) (skip : Nat) (cs : List Char) :
    (readFrom quote here skip cs).length ≤ cs.length := by
  fun_induction readFrom quote here skip cs <;> simp_all +zetaDelta

end Quoted

/-- How one character is written between double quotes. -/
def quoteChar (c : Char) : List Char :=
  match c with
  | '\\' => ['\\', '\\']
  | '"' => ['\\', '"']
  | '\n' => ['\\', 'n']
  | '\t' => ['\\', 't']
  | '\r' => ['\\', 'r']
  | _ => [c]

/-- A text between double quotes. -/
def quote (text : String) : String :=
  String.ofList ('"' :: text.toList.flatMap quoteChar ++ ['"'])

end FilterLang.Text
