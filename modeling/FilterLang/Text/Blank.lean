import FilterLang.Text.Alphabetic
import FilterLang.Text.Numeric

/-!
# Blanks and word characters

The two character classes that cut a text into words.

* **`isBlank`** — the property *White_Space* of Unicode.  It has 25 members, among them the line
  and paragraph separators and the next-line control, and not the zero-width space.
* **`isWordChar`** — what a name may hold: alphabetic and numeric characters and the underscore.
-/

namespace FilterLang.Text

/-- Whether `c` is white space. -/
def isBlank (c : Char) : Bool :=
  let n := c.toNat
  (0x09 ≤ n && n ≤ 0x0D) || n == 0x20 || n == 0x85 || n == 0xA0 || n == 0x1680
    || (0x2000 ≤ n && n ≤ 0x200A) || n == 0x2028 || n == 0x2029 || n == 0x202F || n == 0x205F
    || n == 0x3000

/-- Whether `c` can stand in a name. -/
def isWordChar (c : Char) : Bool :=
  isAlphabetic c || isNumeric c || c == '_'

end FilterLang.Text
