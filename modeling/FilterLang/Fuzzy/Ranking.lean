import FilterLang.Fuzzy.Matcher

/-!
# Ranked and highlighted candidates

* **`highlight`** — a candidate with every run of matched characters between two marks.
* **`Ranked`** — a candidate with its highlighted form.
* **`rankWith`** — the candidates that match a query, the best first; of equal ones the smaller
  name comes first.  An empty query leaves every candidate where it is.
-/

namespace FilterLang.Fuzzy

/-! ### Highlighting -/

/-- The mark in front of a run of matched characters. -/
def highlightOpening : String := "<em>"

/-- The mark behind a run of matched characters. -/
def highlightClosing : String := "</em>"

/-- Marks the runs of the characters from the index `index` on.  With `inside` the character before
was matched; the first of `indices` is the next one to be matched. -/
def highlightFrom (opening closing : List Char) :
    Nat → Bool → List Nat → List Char → List Char
  | _, inside, _, [] => if inside then closing else []
  | index, inside, indices, c :: cs =>
    let hit := indices.head? == some index
    let mark :=
      if hit && !inside then opening else if !hit && inside then closing else []
    mark ++ c :: highlightFrom opening closing (index + 1) hit
      (if hit then indices.tail else indices) cs

/-- A candidate with every run of the characters at `indices` between two marks. -/
def highlight (candidate : String) (indices : List Nat) (opening closing : String) : String :=
  String.ofList
    (highlightFrom opening.toList closing.toList 0 false indices candidate.toList)

/-! ### Ranking -/

/-- A candidate as it is shown. -/
structure Ranked where
  name : String
  /-- the name with its matched characters marked -/
  html : String
deriving DecidableEq, Inhabited

/-- A candidate that is shown without marks. -/
def Ranked.plain (name : String) : Ranked := ⟨name, name⟩

/-- A candidate that is shown with the marks of its hit. -/
def Ranked.marked (name : String) (hit : Hit) : Ranked :=
  ⟨name, highlight name hit.indices highlightOpening highlightClosing⟩

/-- Whether a hit may stand in front of another one. -/
def before (x y : String × Hit) : Bool :=
  x.2.score > y.2.score || (x.2.score == y.2.score && x.1 ≤ y.1)

/-- Ranks candidates with a matcher. -/
def rankWith (matcher : Matcher) (query : String) (candidates : List String) : List Ranked :=
  if query.isEmpty then candidates.map .plain
  else ((matcher.hits query candidates).mergeSort before).map fun hit => .marked hit.1 hit.2

end FilterLang.Fuzzy
