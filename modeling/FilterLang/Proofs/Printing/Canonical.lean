import FilterLang.Proofs.Printing.Dots
import FilterLang.Proofs.Printing.RoundTrip
import FilterLang.Proofs.Scanner.Spelling

/-!
# Canonical texts are read again

The text of a tree is canonical: where its dots are still dots, it is read to the same tree, and so
its own canonical text is itself.  Where a dot is lost, it is not.

* `legible_of_reads` — every tree that is read from the tokens of a text is legible, by induction on
  the rules of the grammar.
* `Expr.print_bare` — the text of a tree does not show its places and natures.
* `readTree_print_iff` — the canonical text of what is read is read again just where its dots are
  still dots.
* `readTree_print_constant` — the field of a constant in brackets, whose text is not read again.
-/

namespace FilterLang

open Scanner Grammar

/-! ### What is read is legible -/

/-- What a production has at hand is legible. -/
def Grammar.Goal.Legible : Goal → Prop
  | .operators _ left | .fields left => left.Legible
  | .chain _ left token before =>
    (Operator.binaryPower token.value).isSome ∧ left.Legible ∧ ∀ e ∈ before, e.Legible
  | .expression _ | .operand => True

/-- Whether a production goes on behind a tree.  The last token may have been a pointer sign. -/
def Grammar.Goal.Trails : Goal → Prop
  | .operators .. | .fields _ => True
  | .expression _ | .operand | .chain .. => False

section

variable {p : Prop} {t : Token} {ts us : List Token}

theorem Lexical.tail (h : Lexical p (t :: ts)) : Lexical True ts :=
  h.2.mono fun _ => trivial

/-- Behind a token that is no pointer sign every token says what it may. -/
theorem Lexical.behind (h : Lexical p (t :: ts)) (ht : ¬ t.IsPointer) : Lexical False ts :=
  h.2.mono ht

theorem Token.IsPointer.value (h : t.IsPointer) : t.value = "#" ∨ t.value = "##" :=
  h.imp (congrArg Prod.snd) (congrArg Prod.snd)

theorem not_isPointer_of_kind (h : t.kind ≠ .operator) : ¬ t.IsPointer :=
  fun hpointer => h (hpointer.elim (congrArg Prod.fst) (congrArg Prod.fst))

theorem not_isPointer_of_binaryPower {power : Nat}
    (h : Operator.binaryPower t.value = some power) : ¬ t.IsPointer := by
  intro hpointer
  rcases hpointer.value with hvalue | hvalue <;> rw [hvalue] at h <;> cases h

theorem not_isPointer_of_value {value : String} (h : t.value = value)
    (hvalue : value ≠ "#" ∧ value ≠ "##") : ¬ t.IsPointer :=
  fun hpointer => hpointer.value.elim (fun hsign => hvalue.1 (h.symm.trans hsign))
    fun hsign => hvalue.2 (h.symm.trans hsign)

/-- Behind a binary operator every token says what it may. -/
theorem Grammar.Offers.lexical {least : Nat} {ahead : Ahead} (h : Offers least ts ahead us)
    (hts : Lexical p ts) : Lexical False us := by
  cases h with
  | plain _ _ hahead =>
    exact hts.behind (not_isPointer_of_binaryPower (token_of_ofToken? hahead).2.2.2)
  | negated _ _ _ hahead =>
    exact hts.tail.behind (not_isPointer_of_binaryPower (token_of_ofToken? hahead).2.2.2)

theorem Grammar.Offers.binaryPower {least : Nat} {ahead : Ahead} (h : Offers least ts ahead us) :
    (Operator.binaryPower ahead.token.value).isSome := by
  cases h with
  | plain _ _ hahead =>
    obtain ⟨htoken, -, -, hpower⟩ := token_of_ofToken? hahead
    rw [htoken, hpower]
    rfl
  | negated _ _ _ hahead =>
    obtain ⟨htoken, -, -, hpower⟩ := token_of_ofToken? hahead
    rw [htoken, hpower]
    rfl

theorem legible_join {ahead : Ahead} {left right : Expr}
    (hpower : (Operator.binaryPower ahead.token.value).isSome) (hleft : left.Legible)
    (hright : right.Legible) : (ahead.join left right).Legible := by
  rw [Ahead.join]
  cases ahead.negation with
  | none => exact ⟨hpower, hleft, hright⟩
  | some => exact ⟨.head _, hpower, hleft, hright⟩

theorem legible_conjoin {before : Option Expr} {left right : Expr}
    (hpower : (Operator.binaryPower t.value).isSome) (hleft : left.Legible)
    (hright : right.Legible) (hbefore : ∀ e ∈ before, e.Legible) :
    (conjoin before t left right).Legible := by
  cases before with
  | none => exact ⟨hpower, hleft, hright⟩
  | some e => exact ⟨rfl, hbefore e rfl, hpower, hleft, hright⟩

theorem legible_constant {e : Expr} (h : constant? t = some e) : e.Legible := by
  rw [constant?] at h
  split_ifs at h <;> cases h <;> trivial

/-- Where no pointer sign is in front of it, a token says what it may. -/
theorem Lexical.spelling (h : Lexical False (t :: ts)) {kind : TokenKind} (hkind : t.kind = kind) :
    IsSpelling (kind, t.value) := by
  obtain ⟨hspelling | ⟨hfalse, -⟩, -⟩ := h
  · rwa [Token.word, hkind] at hspelling
  · exact hfalse.elim

theorem mem_keywords {name : String} (h : name ∈ keywords) :
    kindOfWord name = .operator ∨ name ∈ ["true", "false", "nil"] := by
  have hall : ∀ name ∈ keywords,
      kindOfWord name = .operator ∨ name ∈ ["true", "false", "nil"] := by decide
  exact hall name h

/-- A name that is no constant. -/
theorem legible_name (hts : Lexical False (t :: ts)) (hkind : t.kind = .identifier)
    (hconstant : constant? t = none) :
    (Expr.identifier (.at t.location) t.value).Legible := by
  obtain ⟨hword, hidentifier⟩ := hts.spelling hkind
  refine ⟨hword, fun hkeyword => ?_⟩
  rcases mem_keywords hkeyword with hoperator | hmem
  · rw [hidentifier] at hoperator
    cases hoperator
  · obtain ⟨e, he⟩ := (isConstant_iff hkind).mp ⟨hkind, hmem⟩
    rw [hconstant] at he
    cases he

theorem legible_number (hts : Lexical False (t :: ts)) (hkind : t.kind = .number) {value : Int}
    (hvalue : Numeral.readInteger? t.value = some value) :
    (Expr.integer (.at t.location) value).Legible :=
  Numeral.readInteger?_bounds (hts.spelling hkind) hvalue

/-- The name of a field may be any operator as well. -/
theorem legible_field (hts : Lexical False (t :: ts))
    (hkind : t.kind = .identifier ∨ t.kind = .operator) {object : Expr} (hobject : object.Legible) :
    (Expr.member (.at t.location) object (.identifier (.at t.location) t.value) false).Legible := by
  refine ⟨hobject, ?_⟩
  rcases hkind with hkind | hkind
  · exact .inl (hts.spelling hkind).1
  · exact (hts.spelling hkind).imp_left And.left

theorem prefix_of_power {power : Nat} (h : t.prefixPower? = some power) :
    t.value ∈ ["not", "!", "-", "+"] ∧ ¬ t.IsPointer := by
  obtain ⟨-, hmem⟩ := (isPrefix_iff t).mpr ⟨power, h⟩
  have hall : ∀ operator ∈ ["not", "!", "+", "-"],
      operator ∈ ["not", "!", "-", "+"] ∧ operator ≠ "#" ∧ operator ≠ "##" := by decide
  obtain ⟨hoperator, hsign⟩ := hall _ hmem
  exact ⟨hoperator, not_isPointer_of_value rfl hsign⟩

/-- **What the rules read from the tokens of a text is legible.** -/
theorem legible_of_reads {g : Goal} {e : Expr} (h : Reads g ts e us) (hts : Lexical g.Trails ts)
    (hg : g.Legible) : e.Legible ∧ Lexical True us := by
  induction h with
  | expression _ _ ihoperand ihoperators =>
    obtain ⟨hleft, hus⟩ := ihoperand hts trivial
    exact ihoperators hus hleft
  | stop _ => exact ⟨hg, hts⟩
  | binary hoffers _ _ _ ihright ihoperators =>
    obtain ⟨hright, hvs⟩ := ihright (hoffers.lexical hts) trivial
    exact ihoperators hvs (legible_join hoffers.binaryPower hg hright)
  | comparison hoffers _ _ _ ihchain ihoperators =>
    obtain ⟨hjoined, hvs⟩ := ihchain (hoffers.lexical hts) ⟨hoffers.binaryPower, hg, nofun⟩
    exact ihoperators hvs hjoined
  | prefixed hpower _ _ ihinner ihfields =>
    obtain ⟨hoperator, hpointer⟩ := prefix_of_power hpower
    obtain ⟨hinner, hvs⟩ := ihinner (hts.behind hpointer) trivial
    exact ihfields hvs ⟨hoperator, hinner⟩
  | bracketed hopen _ hclose _ ihinner ihfields =>
    have hopen := not_isPointer_of_kind (kind_ne (kind_of_is hopen))
    obtain ⟨hinner, hvs⟩ := ihinner (hts.behind hopen) trivial
    exact ihfields hvs.tail hinner
  | constant _ hconstant => exact ⟨legible_constant hconstant, hts.tail⟩
  | name hkind hconstant _ ihfields => exact ihfields hts.tail (legible_name hts hkind hconstant)
  | number hkind hvalue => exact ⟨legible_number hts hkind hvalue, hts.tail⟩
  | string _ _ ihfields => exact ihfields hts.tail trivial
  | chainEnd _ _ ihright =>
    obtain ⟨hpower, hleft, hbefore⟩ := hg
    obtain ⟨hright, hus⟩ := ihright hts trivial
    exact ⟨legible_conjoin hpower hleft hright hbefore, hus⟩
  | chainMore _ hnext _ ihright ihchain =>
    obtain ⟨hpower, hleft, hbefore⟩ := hg
    obtain ⟨hright, hus⟩ := ihright hts trivial
    rw [Grammar.isComparison, Bool.and_eq_true] at hnext
    have hpowerNext := Operator.binaryPower_of_isComparison hnext.2
    refine ihchain (hus.behind (not_isPointer_of_binaryPower hpowerNext))
      ⟨by rw [hpowerNext]; rfl, hright, fun e he => ?_⟩
    cases he
    exact legible_conjoin hpower hleft hright hbefore
  | field hdot hproperty _ ihfields =>
    have hdot : ¬ Token.IsPointer _ := not_isPointer_of_value ((isDot_iff _).mpr hdot).2 (by decide)
    have hproperties := hts.behind hdot
    exact ihfields hproperties.tail (legible_field hproperties hproperty hg)
  | noField _ => exact ⟨hg, hts⟩

end

/-- The tree of a text is legible. -/
theorem legible_of_readTree {source : String} {t : Expr} (h : readTree source = .ok t) :
    t.Legible := by
  obtain ⟨front, close, hsolid, -, -, hreads⟩ := reads_of_readTree h
  exact (legible_of_reads hreads (hsolid ▸ (lexical_scan source).solid) trivial).1

/-! ### Places and natures -/

namespace Expr

@[simp]
theorem binding_bare (t : Expr) : t.bare.binding = t.binding := by
  cases t with
  | unary note operator operand => cases operand <;> rfl
  | _ => rfl

@[simp]
theorem needsBracketsBeforeDot_bare (t : Expr) :
    t.bare.needsBracketsBeforeDot = t.needsBracketsBeforeDot := by
  cases t <;> rfl

theorem Plain.bare {operator : String} {operand : Expr} (h : Plain operator operand) :
    Plain operator operand.bare := by
  intro inner relation left right hoperand
  cases operand with
  | binary =>
    cases hoperand
    exact h _ _ _ _ rfl
  | _ => cases hoperand

/-- The text of a tree does not show its places and natures. -/
theorem print_bare (t : Expr) : t.bare.print = t.print := by
  fun_induction print t with
  | case1 note operator inner relation left right hnegates ihleft ihright =>
    rw [bare, bare, print, if_pos hnegates, printBinary, printBinary, binding_bare, binding_bare,
      ihleft, ihright]
  | case2 note operator inner relation left right hnegates ih =>
    rw [bare] at ih
    rw [bare, bare, print, if_neg hnegates, ih]
  | case3 note operator operand hbinary ih =>
    have hplain : Plain operator operand := fun _ _ _ _ h => (hbinary _ _ _ _ h).elim
    rw [bare, print_of_plain hplain.bare, binding_bare, ih]
  | case4 note operator left right ihleft ihright =>
    rw [bare, print, printBinary, printBinary, binding_bare, binding_bare, ihleft, ihright]
  | case5 note object property method ihobject ihproperty =>
    rw [bare, print, needsBracketsBeforeDot_bare, ihobject, ihproperty]
  | case6 note callee ih => rw [bare, print, ih]
  | case11 note value hvalue =>
    rw [Bool.not_eq_true] at hvalue
    subst hvalue
    rfl
  | _ => rfl

end Expr

/-! ### Canonical texts -/

/-- Trees that differ in places and natures only have the same text. -/
theorem print_of_bare_eq {e t : Expr} (h : e.bare = t.bare) : e.print = t.print := by
  rw [← e.print_bare, h, t.print_bare]

/-- A canonical text whose dots are still dots is read again, to the same tree. -/
theorem exists_readTree_print {t : Expr} (h : t.Printable) :
    ∃ e, readTree t.print = .ok e ∧ e.bare = t.bare := by
  obtain ⟨hfault, e, hparse, hbare⟩ := parse_of_printable h
  exact ⟨e, readTree_of_parse hfault hparse, hbare⟩

/-- A tree that is read from its own text keeps its dots. -/
theorem printable_of_readTree_print {e : Expr} (h : readTree e.print = .ok e) : e.Printable := by
  have hlegible := legible_of_readTree h
  refine ⟨hlegible, ?_⟩
  by_contra hdots
  rw [Bool.not_eq_true] at hdots
  exact not_stumbles_of_readTree h (stumbles_print hlegible hdots [] nofun)

/-- Of the trees with the same text either all keep their dots, or none. -/
theorem keepsDots_of_print_eq {e t : Expr} (he : e.Printable) (ht : t.Legible)
    (htext : e.print = t.print) : t.keepsDots = true := by
  by_contra hdots
  rw [Bool.not_eq_true] at hdots
  have hstumbles := stumbles_print ht hdots [] nofun
  rw [← htext] at hstumbles
  exact not_stumbles_of_printable he _ hstumbles

/-- **When a canonical text is read again.**  It is read to a tree with the same text just where its
dots are still dots, and just then to the same tree but for places and natures. -/
theorem readTree_print_iff {source : String} {t : Expr} (h : readTree source = .ok t) :
    ((∃ e, readTree t.print = .ok e ∧ e.print = t.print) ↔ t.keepsDots = true) ∧
      ((∃ e, readTree t.print = .ok e ∧ e.bare = t.bare) ↔ t.keepsDots = true) := by
  have hlegible := legible_of_readTree h
  have hkeeps : ∀ e, readTree t.print = .ok e → e.print = t.print → t.keepsDots = true := by
    intro e hread htext
    have hprintable := printable_of_readTree_print (htext.symm ▸ hread)
    exact keepsDots_of_print_eq hprintable hlegible htext
  refine ⟨⟨fun ⟨e, hread, htext⟩ => hkeeps e hread htext, fun hdots => ?_⟩,
    fun ⟨e, hread, hbare⟩ => hkeeps e hread (print_of_bare_eq hbare), fun hdots => ?_⟩
  · obtain ⟨e, hread, hbare⟩ := exists_readTree_print ⟨hlegible, hdots⟩
    exact ⟨e, hread, print_of_bare_eq hbare⟩
  · exact exists_readTree_print ⟨hlegible, hdots⟩

/-- The text `(a.not) in -b . and`, with fields that are called like operators. -/
theorem readTree_print_iff_fields :
    ∃ t, readTree "(a.not) in -b . and" = .ok t ∧ t.keepsDots = true ∧
      (∃ e, readTree t.print = .ok e ∧ e.print = t.print) ∧
      ∃ e, readTree t.print = .ok e ∧ e.bare = t.bare := by
  have hany : (readTree "(a.not) in -b . and").toOption.any Expr.keepsDots = true := by
    decide +kernel
  obtain ⟨t, ht, hdots⟩ := exists_readTree hany
  obtain ⟨htext, htree⟩ := readTree_print_iff ht
  exact ⟨t, ht, hdots, htext.mpr hdots, htree.mpr hdots⟩

/-- **A canonical text that is not read again.**  The field of a constant in brackets is written
without them, and behind the constant no field is read. -/
theorem readTree_print_constant :
    (readTree "(true).x").toOption.map Expr.print = some "true.x" ∧
      (readTree "true.x").toOption.isNone = true := by
  decide +kernel

end FilterLang
