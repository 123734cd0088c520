import FilterLang.Fuzzy.Ranking

/-!
# Alignment of a query with a candidate

The characters of a query are looked for in a candidate, in order and with gaps between them.  Of
all ways to do so the best one counts: it rewards characters that begin a word or follow one
another, and it charges for gaps.

* **`CharClass`** and **`bonusAt`** — where words begin.
* **`leftmost?`** — the leftmost way to find the query, if there is one.
* **`Cell`**, **`Board`** and **`Board.fill`** — the best ways for all beginnings of query and
  candidate.  Every cell knows a score that ends in a match and one that ends in a gap.
* **`Board.trace`** — the matched characters of the best way, from the last to the first.
* **`align`** — the hit.  The cells of a board are taken over from the session and not cleared, so
  a bonus can be left there by an earlier candidate.
* **`Matcher.aligning`** — alignment as a matcher, and **`rank`**, ranking with it.
-/

namespace FilterLang.Fuzzy

/-! ### Bonuses -/

/-- What a character is to the beginning of a word. -/
inductive CharClass where
  | empty
  | upper
  | lower
  | number
  | hardSeparator
  | softSeparator
deriving DecidableEq

/-- The class of a character. -/
def classOf (c : Char) : CharClass :=
  let n := c.toNat
  if n = 0 then .empty
  else if "/\\|()[]\x7b\x7d ".toList.contains c then .hardSeparator
  else if (0x21 ≤ n ∧ n ≤ 0x27) ∨ (0x2A ≤ n ∧ n ≤ 0x2E) ∨ (0x3A ≤ n ∧ n ≤ 0x40)
      ∨ (0x5E ≤ n ∧ n ≤ 0x60) ∨ n = 0x7E then .softSeparator
  else if 0x30 ≤ n ∧ n ≤ 0x39 then .number
  else if 0x41 ≤ n ∧ n ≤ 0x5A then .upper
  else .lower

/-- The bonus of a character behind another one. -/
def bonusBehind (previous own : CharClass) : Int :=
  match previous, own with
  | .empty, _ => 8
  | .hardSeparator, _ => 8
  | .softSeparator, _ => 7
  | .lower, .upper => 6
  | .number, .upper => 6
  | _, _ => 0

/-- The bonuses of the characters behind a given class. -/
def bonusesFrom (previous : CharClass) : List Char → List Int
  | [] => []
  | c :: cs => bonusBehind previous (classOf c) :: bonusesFrom (classOf c) cs

/-- The bonuses of all characters of a candidate.  The first one counts twice. -/
def bonuses (candidate : List Char) : List Int :=
  match bonusesFrom .empty candidate with
  | [] => []
  | bonus :: rest => 2 * bonus :: rest

/-! ### The leftmost way -/

/-- Whether two characters are equal up to the case of Latin letters. -/
def sameLetter (a b : Char) : Bool := a.toLower == b.toLower

/-- The indices of the leftmost way to find a query, counted from `index`. -/
def leftmostFrom? (index : Nat) : List Char → List Char → Option (List Nat)
  | [], _ => some []
  | _ :: _, [] => none
  | p :: query, c :: candidate =>
    if sameLetter p c then (leftmostFrom? (index + 1) query candidate).map (index :: ·)
    else leftmostFrom? (index + 1) (p :: query) candidate

/-- The indices of the leftmost way to find a query in a candidate. -/
def leftmost? (query candidate : List Char) : Option (List Nat) :=
  leftmostFrom? 0 query candidate

/-! ### The board -/

/-- The last step of the best way to a cell. -/
inductive Move where
  | hit
  | gap
deriving DecidableEq

/-- The score of a way that does not exist. -/
def impossible : Int := -32768

/-- The best ways for a beginning of the query and a beginning of the candidate. -/
structure Cell where
  matchMove : Move := .gap
  matchScore : Int := impossible
  gapMove : Move := .gap
  gapScore : Int := impossible
  bonus : Int := 0
deriving DecidableEq, Inhabited

/-- A cell that no way has reached. -/
def Cell.blank : Cell := {}

/-- The cells of all beginnings, row by row. -/
structure Board where
  cells : Array Cell
  columns : Nat

namespace Board

/-- The cell of a row and a column. -/
def get (board : Board) (row column : Nat) : Cell :=
  board.cells.getD (row * board.columns + column) .blank

/-- Replaces a cell. -/
def set (board : Board) (row column : Nat) (cell : Cell) : Board :=
  { board with cells := board.cells.setIfInBounds (row * board.columns + column) cell }

/-- A board on given cells, which are cut off or filled up with new ones. -/
def ofCells (cells : Array Cell) (rows columns : Nat) : Board :=
  let size := rows * columns
  ⟨cells.take size ++ Array.replicate (size - cells.size) .blank, columns⟩

/-- Clears the cells where the rows begin, and the row of the empty query. -/
def clear (board : Board) (starts : List Nat) : Board :=
  let board := starts.zipIdx.foldl (fun board s => board.set (s.2 + 1) s.1 .blank) board
  (List.range board.columns).foldl (fun board column => board.set 0 column { Cell.blank with gapScore := -1 }) board

/-- Fills the cell for the query character `p` of a row and the candidate character `c` of a
column. -/
def fillCell (p c : Char) (bonus : Int) (row column : Nat) (board : Board) : Board :=
  let last := board.get (row + 1) (column - 1)
  let cell := board.get (row + 1) column
  let before := board.get row (column - 1)
  let (last, cell) :=
    if sameLetter p c then
      let streak := max (max last.bonus bonus) 4
      let afterMatch := before.matchScore + streak
      let afterGap := before.gapScore + bonus
      let own := if p = c then 16 else 14
      let cell :=
        if afterMatch ≥ afterGap then
          { cell with matchScore := afterMatch + own, matchMove := Move.hit }
        else { cell with matchScore := afterGap + own, matchMove := Move.gap }
      ({ last with bonus := streak }, cell)
    else (last, { cell with matchScore := impossible, matchMove := .gap, bonus := 0 })
  let opened := last.matchScore - 4
  let extended := last.gapScore - 1
  let cell :=
    if opened ≥ extended then { cell with gapScore := opened, gapMove := Move.hit }
    else { cell with gapScore := extended, gapMove := Move.gap }
  (board.set (row + 1) (column - 1) last).set (row + 1) column cell

/-- Fills the row of the query character `p` from the column behind `start` on. -/
def fillRow (candidate : List (Char × Int)) (p : Char) (row start : Nat) (board : Board) : Board :=
  (candidate.zipIdx.drop start).foldl
    (fun board c => board.fillCell p c.1.1 c.1.2 row (c.2 + 1)) board

/-- Fills the rows of all query characters. -/
def fill (candidate : List (Char × Int)) (query : List Char) (starts : List Nat)
    (board : Board) : Board :=
  ((query.zip starts).zipIdx).foldl
    (fun board p => board.fillRow candidate p.1.1 p.2 p.1.2) board

/-- The greatest score of a row among the columns from `start` on, and the last column that has
it. -/
def best (board : Board) (row start : Nat) : Int × Nat :=
  (List.range board.columns).drop start |>.foldl
    (fun best column =>
      let score := (board.get row column).matchScore
      if score ≥ best.1 then (score, column) else best)
    ((board.get row start).matchScore, start)

/-- The matched characters on the way back from a cell, down to the column `start`.  With `onMatch`
the way goes on from the cell's match, and else from its gap; `move` is the step that led on from
the cell. -/
def trace (board : Board) (start : Nat) : Nat → Nat → Bool → Move → List Nat → List Nat
  | 0, _, _, _, found => found
  | column + 1, row, onMatch, move, found =>
    if row = 0 ∨ column + 1 ≤ start then found
    else
      let found := if move = .hit then column :: found else found
      let cell := board.get row (column + 1)
      let next := if onMatch then cell.matchMove else cell.gapMove
      trace board start column (if onMatch then row - 1 else row) (next = .hit) next found

end Board

/-! ### Hits -/

/-- Matches a query with a candidate on the cells that earlier matches have left. -/
def align (cells : Array Cell) (query candidate : List Char) : Option Hit × Array Cell :=
  if query.isEmpty then (some ⟨0, []⟩, cells)
  else
    match leftmost? query candidate with
    | none => (none, cells)
    | some starts =>
      let rows := query.length + 1
      let columns := candidate.length + 1
      let board := (Board.ofCells cells rows columns).clear starts
      let board := board.fill (candidate.zip (bonuses candidate)) query starts
      let (score, column) := board.best query.length (starts.getLastD 0)
      let indices := board.trace (starts.headD 0) column query.length true .hit []
      (some ⟨score, indices⟩, board.cells)

/-- The hit of a query in a candidate, if it matches. -/
def find? (query candidate : String) : Option Hit :=
  (align #[] query.toList candidate.toList).1

end FilterLang.Fuzzy

namespace FilterLang

/-- Alignment as a matcher, with the cells of the board as its session. -/
def Matcher.aligning : Matcher where
  Session := Array Fuzzy.Cell
  start := #[]
  find := fun cells query candidate => Fuzzy.align cells query.toList candidate.toList

/-- Ranks candidates by alignment. -/
def Fuzzy.rank (query : String) (candidates : List String) : List Fuzzy.Ranked :=
  Fuzzy.rankWith .aligning query candidates

end FilterLang
