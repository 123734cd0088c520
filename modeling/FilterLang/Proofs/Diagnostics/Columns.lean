import FilterLang.Proofs.Diagnostics
import FilterLang.Proofs.Scanner.Within

/-!
# Which tokens are marked

A message is copied to the tokens in its column, whatever their line.  So a token that carries a message
need not be the one that is at fault, unless the text is a single line.

* `Analysis.reports` — all faults of an analysis, each with its message.
* `shown_of_mem_dropLast` — what a token other than the last one carries.
* `within_of_mem_reports`, `within_analyze` — faults and tokens stand within the text, and so all in one
  line if it has no other.
* `isSome_error_of_column` — every token in the column of a message is marked.
* `marks_in_column` — a mark shows the column of its fault, and in a single line its place;
  `mark_on_other_line` is one on a token in front of the fault.
-/

namespace FilterLang

/-! ### Faults and their messages -/

/-- The faults of all stages, each with its message. -/
def Analysis.reports (a : Analysis) : List Diagnostic :=
  (a.parseFault.map (·.map ParseFault.message)).toList ++
    (a.checkFault.map (·.map CheckFault.message)).toList ++
      (a.scanFault.map (·.map ScanFault.message)).toList

namespace Analysis

variable {a : Analysis} {d : Diagnostic}

theorem mem_reports : d ∈ a.reports ↔
    (∃ fault ∈ a.parseFault, fault.map ParseFault.message = d) ∨
      (∃ fault ∈ a.checkFault, fault.map CheckFault.message = d) ∨
        ∃ fault ∈ a.scanFault, fault.map ScanFault.message = d := by
  simp [reports]

/-- The messages that are copied to tokens are about faults of the analysis. -/
theorem mem_reports_of_shown (h : d ∈ a.structuralDiagnostic? ∨ d ∈ a.lexicalDiagnostic?) :
    d ∈ a.reports := by
  rw [mem_reports]
  rcases h with h | h
  · rcases Option.or_eq_some_iff.mp h with h | ⟨-, h⟩
    · exact .inl (Option.map_eq_some_iff.mp h)
    · exact .inr (.inl (Option.map_eq_some_iff.mp h))
  · exact .inr (.inr (Option.map_eq_some_iff.mp h))

/-- A valid analysis has no message to copy. -/
theorem diagnostics_of_isValid (h : a.isValid) :
    a.structuralDiagnostic? = none ∧ a.lexicalDiagnostic? = none := by
  simp only [isValid, Bool.and_eq_true, Option.isNone_iff_eq_none] at h
  obtain ⟨⟨hscan, hparse⟩, hcheck⟩ := h
  exact ⟨by rw [structuralDiagnostic?, hparse, hcheck]; rfl, by rw [lexicalDiagnostic?, hscan]; rfl⟩

end Analysis

/-! ### Marks -/

section Marks

variable {structural lexical : Option Diagnostic} {tokens : List Token} {token : Token}

/-- A token other than the last one takes messages in its own column alone. -/
theorem shown_of_mem_dropLast (h : token ∈ (markTokens structural lexical tokens).dropLast) :
    ∃ original ∈ tokens, Shown (fun d => d.location.column = token.location.column) structural lexical
      original.error token.error := by
  rcases List.eq_nil_or_concat' tokens with rfl | ⟨front, last, rfl⟩
  · cases h
  rw [markTokens_concat, List.dropLast_concat] at h
  obtain ⟨original, horiginal, rfl⟩ := List.mem_map.mp h
  rw [location_mark, location_mark]
  exact ⟨original, List.mem_append_left _ horiginal, shown_mark structural lexical original⟩

end Marks

section Analyses

variable {schema : Schema} {expected : Option Kind} {source : String} {token : Token} {d : Diagnostic}

/-- What a token other than the last one says is about a fault in its column. -/
theorem mem_reports_of_error (h : token ∈ (analyze schema expected source).tokens.dropLast)
    {message : String} (herror : message ∈ token.error) :
    ∃ d ∈ (analyze schema expected source).reports,
      d.value = message ∧ d.location.column = token.location.column := by
  obtain ⟨original, horiginal, hshown⟩ := shown_of_mem_dropLast h
  rw [Scanner.unmarked_scan source original horiginal, Option.mem_def.mp herror] at hshown
  cases hshown with
  | lexical hd hcolumn => exact ⟨_, Analysis.mem_reports_of_shown (.inr hd), rfl, hcolumn⟩
  | structural hd hcolumn => exact ⟨_, Analysis.mem_reports_of_shown (.inl hd), rfl, hcolumn⟩

/-- Every token in the column of a message that is copied carries a message. -/
theorem isSome_error_of_column (htoken : token ∈ (analyze schema expected source).tokens)
    (hd : d ∈ (analyze schema expected source).structuralDiagnostic? ∨
      d ∈ (analyze schema expected source).lexicalDiagnostic?)
    (hcolumn : d.location.column = token.location.column) : token.error.isSome := by
  obtain ⟨original, -, hshown⟩ := shown_of_mem htoken
  generalize token.error = error at hshown ⊢
  cases hshown with
  | lexical => rfl
  | structural => rfl
  | own hstructural hlexical =>
    rcases hd with hd | hd
    · exact absurd (.inl hcolumn) (hstructural d hd)
    · exact absurd (.inl hcolumn) (hlexical d hd)

/-- The tokens of a valid analysis stay as the scanner has made them, without a message. -/
theorem error_eq_none_of_isValid (hvalid : (analyze schema expected source).isValid)
    (htoken : token ∈ (analyze schema expected source).tokens) : token.error = none := by
  obtain ⟨hstructural, hlexical⟩ := Analysis.diagnostics_of_isValid hvalid
  obtain ⟨original, horiginal, hshown⟩ := shown_of_mem htoken
  rw [Scanner.unmarked_scan source original horiginal] at hshown
  generalize token.error = error at hshown
  cases hshown with
  | lexical hd => exact nomatch hlexical.symm.trans hd
  | structural hd => exact nomatch hstructural.symm.trans hd
  | own => rfl

/-! ### Lines -/

/-- Marked tokens stand within the text. -/
theorem within_analyze (h : token ∈ (analyze schema expected source).tokens) :
    Location.origin.Within source.toList token.location := by
  have hmem : token.location ∈ (analyze schema expected source).tokens.map Token.location :=
    List.mem_map_of_mem h
  rw [analyze, map_markTokens fun _ _ => rfl] at hmem
  obtain ⟨original, horiginal, heq⟩ := List.mem_map.mp hmem
  exact heq ▸ Scanner.within_token horiginal

/-- Faults stand within the text. -/
theorem within_of_mem_reports (h : d ∈ (analyze schema expected source).reports) :
    Location.origin.Within source.toList d.location := by
  have hoccupied : ∀ here, Occupied (analyze schema expected source).tokens here →
      Location.origin.Within source.toList here := by
    rintro _ ⟨token, htoken, rfl⟩
    exact within_analyze htoken
  rcases Analysis.mem_reports.mp h with ⟨fault, hfault, rfl⟩ | ⟨fault, hfault, rfl⟩ | ⟨fault, hfault, rfl⟩
  · exact hoccupied _ (occupied_parseFault hfault)
  · exact hoccupied _ (occupied_checkFault hfault)
  · exact Scanner.within_scan hfault

end Analyses

/-! ### Marks and faults -/

/-- **A mark shows the column of its fault.**  A token other than the last one that carries a message
starts in the column of a fault with this message, and exactly at the fault if the text is a single
line; and every token in the column of a message that is copied carries one.  No token of a valid
analysis carries a message. -/
theorem marks_in_column (schema : Schema) (expected : Option Kind) (source : String) :
    (∀ token ∈ (analyze schema expected source).tokens.dropLast, ∀ message ∈ token.error,
      ∃ d ∈ (analyze schema expected source).reports,
        d.value = message ∧ d.location.column = token.location.column ∧
          ('\n' ∉ source.toList → d.location = token.location)) ∧
    (∀ d, d ∈ (analyze schema expected source).structuralDiagnostic? ∨
        d ∈ (analyze schema expected source).lexicalDiagnostic? →
      ∀ token ∈ (analyze schema expected source).tokens,
        d.location.column = token.location.column → token.error.isSome) ∧
    ((analyze schema expected source).isValid →
      ∀ token ∈ (analyze schema expected source).tokens, token.error = none) := by
  refine ⟨fun token htoken message hmessage => ?_,
    fun d hd token htoken hcolumn => isSome_error_of_column htoken hd hcolumn,
    fun hvalid token htoken => error_eq_none_of_isValid hvalid htoken⟩
  obtain ⟨d, hd, hvalue, hcolumn⟩ := mem_reports_of_error htoken hmessage
  refine ⟨d, hd, hvalue, hcolumn, fun hline => ?_⟩
  have hfault := (within_of_mem_reports hd).line_eq hline
  have hplace := (within_analyze (List.dropLast_subset _ htoken)).line_eq hline
  exact congrArg₂ Location.mk (hfault.trans hplace.symm) hcolumn

/-- In `1 )` the bracket is marked, and stands at the fault. -/
theorem marks_in_column_bracket :
    ∃ token ∈ (analyze {} none "1 )").tokens.dropLast,
      token.error = some "unexpected token ) (bracket)" ∧
      ∃ d ∈ (analyze {} none "1 )").reports,
        d.value = "unexpected token ) (bracket)" ∧ d.location = token.location := by
  let token : Token :=
    { kind := .bracket, value := ")", location := ⟨1, 2⟩, width := 1
      error := some "unexpected token ) (bracket)" }
  have htoken : token ∈ (analyze {} none "1 )").tokens.dropLast := by decide +kernel
  have hline : '\n' ∉ "1 )".toList := by decide
  obtain ⟨d, hd, hvalue, -, hplace⟩ := (marks_in_column {} none "1 )").1 token htoken _ rfl
  exact ⟨token, htoken, rfl, d, hd, hvalue, hplace hline⟩

/-- **A mark on a line without a fault.**  The bracket is unexpected, and its message is also on the
number in the line above. -/
theorem mark_on_other_line :
    ¬ ∀ token ∈ (analyze {} none "1\n)").tokens.dropLast, ∀ message ∈ token.error,
      ∃ d ∈ (analyze {} none "1\n)").reports, d.value = message ∧ d.location = token.location := by
  decide +kernel

end FilterLang
