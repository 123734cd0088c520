import FilterLang.Library.Json.Reader
import FilterLang.Library.Json.Writer
import FilterLang.Schema.Codec

/-!
# The JSON formats of the program

Everything else takes its format for JSON from outside; these are the ones that the program is run
with.

* **`Json.Format.compact`**, **`Json.Format.pretty`** — texts on one line and over several.  Either
  kind is read in the same way, and looked into as deeply.
* **`Schema.ofJson?`**, **`Schema.read?`** — schemas in these formats.
-/

namespace FilterLang

namespace Json.Format

/-- How deep the objects and lists may be nested that are looked into. -/
def depthLimit : Nat := 127

/-- Values on one line. -/
def compact : Format := ⟨Json.compact, Json.parse?, depthLimit⟩

/-- Values over several lines. -/
def pretty : Format := ⟨Json.pretty, Json.parse?, depthLimit⟩

end Json.Format

namespace Schema

/-- The schema of a value. -/
def ofJson? (json : Json) : Option Schema := decode? Json.Format.depthLimit json

/-- The schema that a JSON text describes. -/
def read? (text : String) : Option Schema := ofText? .compact text

end Schema

end FilterLang
