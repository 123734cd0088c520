import FilterLang.Report
import FilterLang.Proofs.Scanner.Tiling
import FilterLang.Proofs.Grammar.Policy
import FilterLang.Proofs.Typing

/-!
# The strict way and the best effort

A text goes through the same stages on two ways: the strict one stops at the first fault, and the
other one keeps the best of each stage and shows faults in another order.

* `parse_scan` — the tokens of a text are always read to a tree or to a fault.
* `Analysis.problem?` — the first fault of an analysis, in the order of the stages.  There is none
  just where the analysis is valid, and just where it shows nothing.
* `checkText_of_problem`, `checkText_of_sound` — the strict way, told by the analysis.
* `checkText_agrees` — the two ways, and the exit codes of the commands that take them.
-/

namespace FilterLang

open CommandLine

/-! ### Every text gives a tree or a fault -/

/-- The end token of a text asks for no operand. -/
theorem terminates_scan (source : String) : Terminates (scan source).tokens := by
  obtain ⟨front, last, htokens, hlast⟩ := Scanner.scan_ends source
  have hopens : last.opens = false := by
    simp [Token.opens, Token.prefixPower?, Token.is, hlast]
  refine terminates_of_last (t := last) ?_ hopens
  rw [htokens]
  exact List.getLast?_concat

/-- The tokens of a text are read to a tree, or else there is a fault. -/
theorem parse_scan (source : String) :
    (∃ tree, parse (scan source).tokens = ⟨some tree, none⟩) ∨
      ∃ fault, (parse (scan source).tokens).fault = some fault := by
  rcases sound_or_faulty (terminates_scan source) with ⟨tree, -, -, -, h⟩ | ⟨-, fault, -, -, h⟩
  · exact .inl ⟨tree, h⟩
  · exact .inr ⟨fault, h⟩

/-- A tree without a violation has a nature, of the kind that is asked for. -/
theorem nature_of_check {schema : Schema} {expected : Option Kind} {tree : Expr}
    (h : (check schema expected tree).fault = none) :
    ∃ nature, (check schema expected tree).nature = some nature ∧
      ∀ kind ∈ expected, nature.kind = kind := by
  rcases check_cases schema expected tree with ⟨-, hall, hexpected⟩ | ⟨fault, hsome, -⟩
  · obtain ⟨nature, hnature⟩ := obeys_iff.mp (hall tree tree.mem_evaluated)
    refine ⟨nature, hnature.nature_annotate, fun kind hkind => ?_⟩
    obtain ⟨nature', hnature', hkind'⟩ := hexpected kind hkind
    rw [hnature.unique hnature', hkind']
  · rw [h] at hsome
    cases hsome

/-! ### The first problem of an analysis -/

namespace Analysis

/-- The first fault, in the order of the stages. -/
def problem? (a : Analysis) : Option Problem :=
  (a.scanFault.map .scan).or ((a.parseFault.map .parse).or (a.checkFault.map .check))

variable {a : Analysis}

theorem problem?_eq_none_iff :
    a.problem? = none ↔ a.scanFault = none ∧ a.parseFault = none ∧ a.checkFault = none := by
  simp [problem?]

theorem isValid_iff : a.isValid = true ↔ a.problem? = none := by
  simp [isValid, problem?_eq_none_iff, and_assoc]

theorem diagnostic?_eq_none_iff : a.diagnostic? = none ↔ a.problem? = none := by
  rw [problem?_eq_none_iff]
  simp only [diagnostic?, structuralDiagnostic?, lexicalDiagnostic?, Option.or_eq_none_iff,
    Option.map_eq_none_iff]
  tauto

theorem problem?_eq_scan_iff {fault : Located ScanFault} :
    a.problem? = some (.scan fault) ↔ a.scanFault = some fault := by
  cases hscan : a.scanFault <;> cases hparse : a.parseFault <;> cases hcheck : a.checkFault <;>
    simp [problem?, hscan, hparse, hcheck]

theorem problem?_eq_parse_iff {fault : Located ParseFault} :
    a.problem? = some (.parse fault) ↔ a.scanFault = none ∧ a.parseFault = some fault := by
  cases hscan : a.scanFault <;> cases hparse : a.parseFault <;> cases hcheck : a.checkFault <;>
    simp [problem?, hscan, hparse, hcheck]

theorem problem?_eq_check_iff {fault : Located CheckFault} :
    a.problem? = some (.check fault) ↔
      a.scanFault = none ∧ a.parseFault = none ∧ a.checkFault = some fault := by
  cases hscan : a.scanFault <;> cases hparse : a.parseFault <;> cases hcheck : a.checkFault <;>
    simp [problem?, hscan, hparse, hcheck]

end Analysis

/-! ### The strict way -/

section Stages

variable {schema : Schema} {expected : Option Kind} {source : String}

/-- A text with a scanner fault is not read. -/
theorem readTree_of_scanFault {fault : Located ScanFault} (h : (scan source).fault = some fault) :
    readTree source = .error (.scan fault) := by
  rw [readTree, Scan.toExcept, h]

/-- A text without a scanner fault is read as far as its tokens are. -/
theorem readTree_of_sound (h : (scan source).fault = none) :
    readTree source = (parse (scan source).tokens).toExcept.mapError .parse := by
  rw [readTree, Scan.toExcept, h]

theorem readTree_of_parseFault {fault : Located ParseFault} (h : (scan source).fault = none)
    (hparse : (parse (scan source).tokens).fault = some fault) :
    readTree source = .error (.parse fault) := by
  rw [readTree_of_sound h, Parse.toExcept, hparse]
  rfl

theorem readTree_of_parse {tree : Expr} (h : (scan source).fault = none)
    (hparse : parse (scan source).tokens = ⟨some tree, none⟩) : readTree source = .ok tree := by
  rw [readTree_of_sound h, hparse]
  rfl

/-- A text is read to a tree just where neither the scanner nor the parser finds a fault. -/
theorem readTree_eq_ok_iff {tree : Expr} : readTree source = .ok tree ↔
    (scan source).fault = none ∧ parse (scan source).tokens = ⟨some tree, none⟩ := by
  refine ⟨fun h => ?_, fun h => readTree_of_parse h.1 h.2⟩
  cases hscan : (scan source).fault with
  | some fault =>
    rw [readTree_of_scanFault hscan] at h
    cases h
  | none =>
    rcases parse_scan source with ⟨found, hparse⟩ | ⟨fault, hparse⟩
    · rw [readTree_of_parse hscan hparse] at h
      cases h
      exact ⟨rfl, hparse⟩
    · rw [readTree_of_parseFault hscan hparse] at h
      cases h

/-- A text that the strict reading reads. -/
theorem readTree_of_parseStrict {tree : Expr} (h : (scan source).fault = none)
    (hparse : parseStrict (scan source).tokens = .ok tree) : readTree source = .ok tree := by
  rcases sound_or_faulty (terminates_scan source) with
    ⟨found, r, hrun, hr, hfound⟩ | ⟨r, fault, hrun, hr, -⟩
  · rw [parseStrict, hrun] at hparse
    simp only [hr] at hparse
    cases hparse
    exact readTree_of_parse h hfound
  · rw [parseStrict, hrun] at hparse
    simp only [hr] at hparse
    cases hparse

/-- A text that is read, by what its tree is like. -/
theorem exists_readTree {p : Expr → Bool} (h : (readTree source).toOption.any p = true) :
    ∃ tree, readTree source = .ok tree ∧ p tree = true := by
  cases hread : readTree source with
  | ok tree =>
    rw [hread] at h
    exact ⟨tree, rfl, h⟩
  | error =>
    rw [hread] at h
    cases h

variable (schema expected) in
/-- The analysis of a text that is read to a tree checks that tree. -/
theorem analyze_of_parse {tree : Expr} (h : parse (scan source).tokens = ⟨some tree, none⟩) :
    (analyze schema expected source).tree = some (check schema expected tree).tree ∧
      (analyze schema expected source).nature = (check schema expected tree).nature ∧
      (analyze schema expected source).parseFault = none ∧
      (analyze schema expected source).checkFault = (check schema expected tree).fault := by
  simp [analyze, h]

/-- **The strict way stops at the first problem** of the analysis. -/
theorem checkText_of_problem {problem : Problem}
    (h : (analyze schema expected source).problem? = some problem) :
    checkText schema expected source = .error problem := by
  have hscanFault : (analyze schema expected source).scanFault = (scan source).fault := rfl
  have hparseFault :
      (analyze schema expected source).parseFault = (parse (scan source).tokens).fault := rfl
  rw [checkText]
  cases problem with
  | scan fault =>
    rw [Analysis.problem?_eq_scan_iff, hscanFault] at h
    rw [readTree_of_scanFault h]
  | parse fault =>
    rw [Analysis.problem?_eq_parse_iff, hscanFault, hparseFault] at h
    rw [readTree_of_parseFault h.1 h.2]
  | check fault =>
    rw [Analysis.problem?_eq_check_iff, hscanFault, hparseFault] at h
    obtain ⟨hscan, hparse, hcheck⟩ := h
    rcases parse_scan source with ⟨tree, htree⟩ | ⟨other, hother⟩
    · rw [(analyze_of_parse schema expected htree).2.2.2] at hcheck
      rw [readTree_of_parse hscan htree]
      simp only [Checked.toExcept, hcheck]
    · rw [hparse] at hother
      cases hother

/-- **The strict way gives the tree of the analysis** where that has no problem. -/
theorem checkText_of_sound (h : (analyze schema expected source).problem? = none) :
    ∃ tree nature, checkText schema expected source = .ok tree ∧
      (analyze schema expected source).tree = some tree ∧
      (analyze schema expected source).nature = some nature ∧
      ∀ kind ∈ expected, nature.kind = kind := by
  obtain ⟨hscan, hparse, hcheck⟩ := Analysis.problem?_eq_none_iff.mp h
  rcases parse_scan source with ⟨tree, htree⟩ | ⟨fault, hfault⟩
  · obtain ⟨hanalyzed, hnature, -, hfault⟩ :=
      analyze_of_parse schema expected htree
    rw [hfault] at hcheck
    obtain ⟨nature, hsome, hkind⟩ := nature_of_check hcheck
    refine ⟨(check schema expected tree).tree, nature, ?_, hanalyzed, hnature.trans hsome, hkind⟩
    rw [checkText, readTree_of_parse hscan htree]
    simp only [Checked.toExcept, hcheck]
  · have hparse : (parse (scan source).tokens).fault = none := hparse
    rw [hparse] at hfault
    cases hfault

/-- The strict way fails with a problem just where that is the first one of the analysis. -/
theorem checkText_eq_error_iff {problem : Problem} :
    checkText schema expected source = .error problem ↔
      (analyze schema expected source).problem? = some problem := by
  cases h : (analyze schema expected source).problem? with
  | none =>
    obtain ⟨tree, -, hok, -⟩ := checkText_of_sound h
    rw [hok]
    exact ⟨nofun, nofun⟩
  | some found =>
    rw [checkText_of_problem h]
    simp

theorem exists_checkText_iff : (∃ tree, checkText schema expected source = .ok tree) ↔
    (analyze schema expected source).problem? = none := by
  cases h : (analyze schema expected source).problem? with
  | none =>
    obtain ⟨tree, -, hok, -⟩ := checkText_of_sound h
    exact ⟨fun _ => rfl, fun _ => ⟨tree, hok⟩⟩
  | some found =>
    rw [checkText_of_problem h]
    exact ⟨nofun, nofun⟩

end Stages

/-! ### Exit codes -/

/-- A report without a message has the code zero. -/
theorem code_ofMessage (out : String) (message : Option String) :
    (Report.ofMessage out message).code = 0 ↔ message = none := by
  cases message <;> simp [Report.ofMessage]

/-- The command that checks has the code zero just where there is no problem. -/
theorem code_reportNature (format : Json.Format) (schema : Schema) (expected : Option Kind)
    (source : String) : (reportNature format schema expected source).code = 0 ↔
      (analyze schema expected source).problem? = none := by
  rw [← Analysis.diagnostic?_eq_none_iff, reportNature]
  cases (analyze schema expected source).diagnostic? with
  | none => simp [code_ofMessage]
  | some diagnostic => simp [code_ofMessage]

/-- The command that reads has the code zero just where the text is read without a fault. -/
theorem code_reportTree (format : Json.Format) (source : String) :
    (reportTree format source).code = 0 ↔ ∃ tree, readTree source = .ok tree := by
  simp only [reportTree, code_ofMessage, Option.map_eq_none_iff, Option.or_eq_none_iff,
    readTree_eq_ok_iff]
  constructor
  · rintro ⟨hparse, hscan⟩
    rcases parse_scan source with ⟨tree, htree⟩ | ⟨fault, hfault⟩
    · exact ⟨tree, hscan, htree⟩
    · rw [hparse] at hfault
      cases hfault
  · rintro ⟨tree, hscan, htree⟩
    exact ⟨by rw [htree], hscan⟩

theorem code_reportCanonical (source : String) :
    (reportCanonical source).code = 0 ↔ ∃ tree, readTree source = .ok tree := by
  rw [reportCanonical]
  cases readTree source with
  | ok tree => simp [code_ofMessage]
  | error problem => simp [code_ofMessage]

/-- **The two ways agree.**  The strict way gives a tree just where the analysis is valid, and just
where it shows nothing; then it is the annotated tree of the analysis, and its root has a nature of
the kind that is asked for.  The strict way fails with the fault of the first stage that has one.  So
the command that checks succeeds just where the strict way does, and the command that prints a text
in canonical form succeeds just where the command that prints its tree does. -/
theorem checkText_agrees (library : Library) (schema : Schema) (expected : Option Kind)
    (source : String) :
    ((∃ tree, checkText schema expected source = .ok tree) ↔
      (analyze schema expected source).isValid = true) ∧
    ((analyze schema expected source).isValid = true ↔
      (analyze schema expected source).diagnostic? = none) ∧
    (∀ tree, checkText schema expected source = .ok tree →
      (analyze schema expected source).tree = some tree ∧
      ∃ nature, (analyze schema expected source).nature = some nature ∧
        ∀ kind ∈ expected, nature.kind = kind) ∧
    (∀ fault, checkText schema expected source = .error (.scan fault) ↔
      (analyze schema expected source).scanFault = some fault) ∧
    (∀ fault, checkText schema expected source = .error (.parse fault) ↔
      (analyze schema expected source).scanFault = none ∧
      (analyze schema expected source).parseFault = some fault) ∧
    (∀ fault, checkText schema expected source = .error (.check fault) ↔
      (analyze schema expected source).scanFault = none ∧
      (analyze schema expected source).parseFault = none ∧
      (analyze schema expected source).checkFault = some fault) ∧
    (∀ options : Options, options.expect = expected →
      ((Command.check.run library options schema source).code = 0 ↔
        ∃ tree, checkText schema expected source = .ok tree)) ∧
    ∀ options : Options, (Command.format.run library options schema source).code = 0 ↔
      (Command.parse.run library options schema source).code = 0 := by
  refine ⟨?_, ?_, fun tree htree => ?_, fun fault => ?_, fun fault => ?_, fun fault => ?_, ?_,
    fun options => ?_⟩
  · rw [exists_checkText_iff, Analysis.isValid_iff]
  · rw [Analysis.isValid_iff, Analysis.diagnostic?_eq_none_iff]
  · obtain ⟨found, nature, hok, hanalyzed, hnature, hkind⟩ :=
      checkText_of_sound (exists_checkText_iff.mp ⟨tree, htree⟩)
    rw [htree] at hok
    cases hok
    exact ⟨hanalyzed, nature, hnature, hkind⟩
  · rw [checkText_eq_error_iff, Analysis.problem?_eq_scan_iff]
  · rw [checkText_eq_error_iff, Analysis.problem?_eq_parse_iff]
  · rw [checkText_eq_error_iff, Analysis.problem?_eq_check_iff]
  · rintro options rfl
    rw [exists_checkText_iff]
    exact code_reportNature library.format schema options.expect source
  · exact (code_reportCanonical source).trans (code_reportTree library.format source).symm

end FilterLang
