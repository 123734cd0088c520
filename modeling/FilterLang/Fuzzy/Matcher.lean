/-!
# Matchers

* **`Hit`** — how well a query matches a candidate, and with which of its characters.
* **`Matcher`** — a way to match.  It may carry a session along from one candidate to the next.
* **`Matcher.ofFunction`** — a matcher whose answer depends on nothing but query and candidate.
* **`Matcher.hits`** — the candidates that match, each with its hit, in the given order.
-/

namespace FilterLang

/-- A match of a query with a candidate. -/
structure Hit where
  /-- the greater, the better -/
  score : Int
  /-- the indices of the matched characters of the candidate -/
  indices : List Nat
deriving DecidableEq, Inhabited

/-- A way to match queries with candidates. -/
structure Matcher where
  /-- what is kept from one candidate to the next -/
  Session : Type
  start : Session
  /-- matches a query with a candidate -/
  find : Session → String → String → Option Hit × Session

namespace Matcher

/-- A matcher that keeps nothing. -/
def ofFunction (find : String → String → Option Hit) : Matcher where
  Session := Unit
  start := ()
  find := fun _ query candidate => (find query candidate, ())

/-- The matching candidates from a session on. -/
def hitsFrom (matcher : Matcher) (query : String) :
    matcher.Session → List String → List (String × Hit)
  | _, [] => []
  | session, candidate :: rest =>
    match matcher.find session query candidate with
    | (some hit, session) => (candidate, hit) :: matcher.hitsFrom query session rest
    | (none, session) => matcher.hitsFrom query session rest

/-- The matching candidates of a list, all in one session. -/
def hits (matcher : Matcher) (query : String) (candidates : List String) : List (String × Hit) :=
  matcher.hitsFrom query matcher.start candidates

theorem hits_ofFunction (find : String → String → Option Hit) (query : String)
    (candidates : List String) :
    (ofFunction find).hits query candidates
      = candidates.filterMap fun name => (find query name).map (name, ·) := by
  unfold hits
  generalize (ofFunction find).start = session
  induction candidates generalizing session with
  | nil => rfl
  | cons name rest ih =>
    have tail := ih ()
    cases h : find query name with
    | none => simpa [hitsFrom, ofFunction, h] using tail
    | some hit => simpa [hitsFrom, ofFunction, h] using tail

end Matcher

end FilterLang
