/-!
# Places in a text

* **`Location`** — a line and a column, both counted in characters.
* **`Location.after`** / **`Location.advance`** — the place behind one character, and behind a
  list of them: a line feed opens the next line and anything else moves one column on.
* **`Located`** — a value together with the place it belongs to.
* **`Diagnostic`** — a message together with the place it is about, and **`Located.text`**, the
  message followed by its place as it is shown to a user.
-/

namespace FilterLang

/-- A place in a text.  Lines count from 1 and columns from 0. -/
structure Location where
  line : Nat
  column : Nat
deriving DecidableEq, Inhabited

namespace Location

/-- The place of the first character. -/
def origin : Location := ⟨1, 0⟩

/-- The place just behind the character `c` that stands at `here`. -/
def after (here : Location) (c : Char) : Location :=
  if c = '\n' then ⟨here.line + 1, 0⟩ else ⟨here.line, here.column + 1⟩

/-- The place just behind the characters `cs` that start at `here`. -/
def advance (here : Location) (cs : List Char) : Location :=
  cs.foldl after here

@[simp]
theorem advance_nil (here : Location) : here.advance [] = here := rfl

@[simp]
theorem advance_cons (here : Location) (c : Char) (cs : List Char) :
    here.advance (c :: cs) = (here.after c).advance cs := rfl

theorem advance_append (here : Location) (cs ds : List Char) :
    here.advance (cs ++ ds) = (here.advance cs).advance ds :=
  List.foldl_append

end Location

/-- A value at a place. -/
structure Located (α : Type) where
  value : α
  location : Location
deriving DecidableEq, Inhabited

/-- Another value at the same place. -/
def Located.map {α β : Type} (f : α → β) (x : Located α) : Located β :=
  ⟨f x.value, x.location⟩

/-- A message about a place. -/
abbrev Diagnostic := Located String

/-- The message with its place behind it. -/
def Located.text (d : Diagnostic) : String :=
  d.value ++ " at line " ++ toString d.location.line ++ ", column " ++ toString d.location.column

end FilterLang
