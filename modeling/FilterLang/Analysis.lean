import FilterLang.Expr.Parser
import FilterLang.Token.Scanner
import FilterLang.Typing

/-!
# All stages over one text

* **`markTokens`** — messages copied to the tokens they are about.  A message goes to every token
  that starts in its column, and the last token also takes what lies behind it.
* **`Analysis`** and **`analyze`** — what an editor needs after a keystroke: every stage does its
  best with what the stage before has left, and the faults are kept apart.
* **`Analysis.diagnostic?`** — the message to show: a parse fault comes before a type fault, and
  both come before a scanner fault.
* **`Problem`** and **`checkText`** — the strict way through the same stages, which stops at the
  first fault.
-/

namespace FilterLang

/-! ### Messages on tokens -/

/-- Puts a message on a token that starts in its column. -/
def Token.mark (d : Option Diagnostic) (token : Token) : Token :=
  match d with
  | some d =>
    if d.location.column = token.location.column then { token with error := some d.value }
    else token
  | none => token

/-- Puts a message on a token that starts in its column or before it. -/
def Token.markFrom (d : Option Diagnostic) (token : Token) : Token :=
  match d with
  | some d =>
    if token.location.column ≤ d.location.column then { token with error := some d.value }
    else token
  | none => token

/-- Copies two messages to the tokens they are about.  Where both meet, `lexical` wins. -/
def markTokens (structural lexical : Option Diagnostic) : List Token → List Token
  | [] => []
  | [token] =>
    [(((token.mark structural).mark lexical).markFrom structural).markFrom lexical]
  | token :: rest => (token.mark structural).mark lexical :: markTokens structural lexical rest

/-! ### Best effort -/

/-- What all stages find in a text. -/
structure Analysis where
  /-- the tokens, with the messages about them -/
  tokens : List Token
  /-- the annotated tree, if there is one -/
  tree : Option Expr
  /-- the nature of the root -/
  nature : Option Nature
  scanFault : Option (Located ScanFault)
  parseFault : Option (Located ParseFault)
  checkFault : Option (Located CheckFault)

namespace Analysis

/-- The message of the parser, or else of the checker. -/
def structuralDiagnostic? (a : Analysis) : Option Diagnostic :=
  (a.parseFault.map (·.map ParseFault.message)).or (a.checkFault.map (·.map CheckFault.message))

/-- The message of the scanner. -/
def lexicalDiagnostic? (a : Analysis) : Option Diagnostic :=
  a.scanFault.map (·.map ScanFault.message)

/-- The message to show. -/
def diagnostic? (a : Analysis) : Option Diagnostic :=
  a.structuralDiagnostic?.or a.lexicalDiagnostic?

/-- Whether no stage found a fault. -/
def isValid (a : Analysis) : Bool :=
  a.scanFault.isNone && a.parseFault.isNone && a.checkFault.isNone

end Analysis

/-- Runs all stages over a text and keeps the best of each. -/
def analyze (schema : Schema) (expected : Option Kind) (source : String) : Analysis :=
  let scanned := scan source
  let parsed := parse scanned.tokens
  let checked := parsed.tree.map (check schema expected)
  let analysis : Analysis :=
    { tokens := scanned.tokens
      tree := checked.map Checked.tree
      nature := checked.bind Checked.nature
      scanFault := scanned.fault
      parseFault := parsed.fault
      checkFault := checked.bind Checked.fault }
  { analysis with
    tokens :=
      markTokens analysis.structuralDiagnostic? analysis.lexicalDiagnostic? analysis.tokens }

/-! ### The strict way -/

/-- The fault of the stage that stopped. -/
inductive Problem where
  | scan (fault : Located ScanFault)
  | parse (fault : Located ParseFault)
  | check (fault : Located CheckFault)
deriving DecidableEq

/-- The message of a problem and its place. -/
def Problem.diagnostic : Problem → Diagnostic
  | scan fault => fault.map ScanFault.message
  | parse fault => fault.map ParseFault.message
  | check fault => fault.map CheckFault.message

/-- The tree of a text without faults of scanner and parser. -/
def readTree (source : String) : Except Problem Expr :=
  match (scan source).toExcept with
  | .error fault => .error (.scan fault)
  | .ok tokens => (parse tokens).toExcept.mapError .parse

/-- The annotated tree of a text without any fault. -/
def checkText (schema : Schema) (expected : Option Kind) (source : String) :
    Except Problem Expr :=
  match readTree source with
  | .error problem => .error problem
  | .ok tree =>
    let checked := check schema expected tree
    match checked.toExcept with
    | .error fault => .error (.check fault)
    | .ok _ => .ok checked.tree

end FilterLang
