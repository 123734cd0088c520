import FilterLang.Editor
import FilterLang.Main
import FilterLang.Proofs.Scanner.Tiling
import FilterLang.Proofs.Grammar.Progress
import FilterLang.Proofs.Grammar.Fuel
import FilterLang.Proofs.Grammar.Policy
import FilterLang.Proofs.Grammar.Reading
import FilterLang.Proofs.Grammar.Language
import FilterLang.Proofs.Scanner.Words
import FilterLang.Proofs.Printing.Text
import FilterLang.Proofs.Printing.RoundTrip
import FilterLang.Proofs.Grammar.Precedence
import FilterLang.Proofs.Grammar.Viable
import FilterLang.Proofs.Grammar.Pending
import FilterLang.Proofs.Typing
import FilterLang.Proofs.Pipelines
import FilterLang.Proofs.Text.Prefix
import FilterLang.Proofs.Completion.Prefix
import FilterLang.Proofs.Completion.Items
import FilterLang.Proofs.Scanner.Spelling
import FilterLang.Proofs.Printing.Canonical
import FilterLang.Proofs.Printing.Marks
import FilterLang.Proofs.Diagnostics
import FilterLang.Proofs.Completion.Values
import FilterLang.Proofs.Completion.Paths
import FilterLang.Proofs.Grammar.Chains
import FilterLang.Proofs.Integers
import FilterLang.Proofs.Library.Layout
import FilterLang.Proofs.Schema.Codec
import FilterLang.Proofs.Grammar.Indices
import FilterLang.Proofs.Grammar.Termination
import FilterLang.Proofs.Scanner.Steps
import FilterLang.Proofs.Text.Escapes
import FilterLang.Proofs.Scanner.Quoted
import FilterLang.Proofs.Scanner.Below
import FilterLang.Proofs.Scanner.Breaks
import FilterLang.Proofs.Grammar.Blanks
import FilterLang.Proofs.Typing.Dependence
import FilterLang.Proofs.Cursor.Columns
import FilterLang.Proofs.Fuzzy.Highlight
import FilterLang.Proofs.Fuzzy.Ranking
import FilterLang.Proofs.Cursor.Pattern
import FilterLang.Proofs.Diagnostics.Columns
import FilterLang.Proofs.Scanner.Plain
import FilterLang.Proofs.Grammar.Objects
import FilterLang.Proofs.Ranges
import FilterLang.Proofs.Printing.Brackets
