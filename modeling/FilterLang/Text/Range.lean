/-!
# Ranges of code points

Character classes with many members are held as lists of closed ranges.

* **`Range`** — the first and the last code point of a run.
* **`covers`** — membership of a character in a list of ranges.
-/

namespace FilterLang.Text

/-- A closed range of code points, given by its first and its last. -/
abbrev Range := Nat × Nat

/-- Whether one of the ranges holds the character. -/
def covers (ranges : List Range) (c : Char) : Bool :=
  ranges.any fun r => r.1 ≤ c.toNat && c.toNat ≤ r.2

end FilterLang.Text
