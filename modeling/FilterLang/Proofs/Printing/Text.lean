import FilterLang.Expr.Printer
import FilterLang.Proofs.Scanner.Words

/-!
# The text of a tree is cut into its words

* `Expr.WellFormed` — the trees that have a text of their own.
* `Expr.Legible` — the trees that texts are read to.  Their fields may be called like any operator,
  and so `Expr.keepsDots` says whether every dot of the text is still a dot when it is read.
* `Expr.Printable` — the trees with both, and the well-formed ones among them.
* `Expr.words` — the words of the text of a tree, with its brackets.
* `Opens`, `MayFollow` — what may stand at the start of a text, and behind it.
* `takes_print` — the scanner cuts the text of a printable tree into its words.
-/

namespace FilterLang

open Scanner

/-- The words that are never names of variables. -/
def keywords : List String :=
  ["and", "or", "in", "matches", "contains", "startsWith", "endsWith", "let", "not", "true", "false",
    "nil"]

namespace Expr

/-- Whether the tree is a truth value or `nil`. -/
def isConstant : Expr → Bool
  | bool .. | nil .. => true
  | _ => false

/-- The trees that have a text of their own.  Names are words and no keywords, but every word may
be the name of a field; an integer is not negative and not too great. -/
def WellFormed : Expr → Prop
  | unary _ operator operand => operator ∈ ["not", "!", "-", "+"] ∧ operand.WellFormed
  | binary _ operator left right =>
    (Operator.binaryPower operator).isSome ∧ left.WellFormed ∧ right.WellFormed
  | member _ object (identifier _ name) false =>
    object.WellFormed ∧ object.isConstant = false ∧ IsWord name.toList
  | member .. => False
  | call .. | pointer .. => False
  | string .. | bool .. | nil .. => True
  | integer _ value => 0 ≤ value ∧ value ≤ Numeral.integerMax
  | identifier _ name => IsWord name.toList ∧ name ∉ keywords

/-- The trees that texts are read to.  Every word may be the name of a field, also an operator, and
so may every sign. -/
def Legible : Expr → Prop
  | unary _ operator operand => operator ∈ ["not", "!", "-", "+"] ∧ operand.Legible
  | binary _ operator left right =>
    (Operator.binaryPower operator).isSome ∧ left.Legible ∧ right.Legible
  | member _ object (identifier _ name) false =>
    object.Legible ∧ (IsWord name.toList ∨ IsSign name.toList)
  | member .. => False
  | call .. | pointer .. => False
  | string .. | bool .. | nil .. => True
  | integer _ value => 0 ≤ value ∧ value ≤ Numeral.integerMax
  | identifier _ name => IsWord name.toList ∧ name ∉ keywords

/-- Whether the text ends in a question mark, which takes a dot behind it along. -/
def endsInMark : Expr → Bool
  | member _ _ (identifier _ name) _ => name == "?"
  | _ => false

/-- Whether a dot behind the text is read as that. -/
def takesDot (t : Expr) : Bool := !t.needsBracketsBeforeDot && !t.endsInMark

/-- Whether the name consists of dots, which a dot in front of them joins. -/
def isDots : Expr → Bool
  | identifier _ name => name == "." || name == ".."
  | _ => false

/-- Whether every dot in front of a field is read as that: it stands neither behind a constant nor
at a sign that it belongs to. -/
def keepsDots : Expr → Bool
  | unary _ _ operand => operand.keepsDots
  | binary _ _ left right => left.keepsDots && right.keepsDots
  | member _ object property _ =>
    object.keepsDots && !object.isConstant && !object.endsInMark && !property.isDots
  | _ => true

/-- The trees whose texts are read to them again. -/
structure Printable (t : Expr) : Prop where
  legible : t.Legible
  keepsDots : t.keepsDots = true

/-- The names of fields that a dot may stand in front of. -/
def IsFieldName (name : String) : Prop :=
  (IsWord name.toList ∨ IsSign name.toList) ∧ name ≠ "." ∧ name ≠ ".."

theorem ne_of_isWord {name sign : String} (h : IsWord name.toList)
    (hsign : ¬ IsWord sign.toList) : name ≠ sign :=
  fun heq => hsign (heq ▸ h)

theorem WellFormed.endsInMark {t : Expr} (h : t.WellFormed) : t.endsInMark = false := by
  cases t with
  | member note object property method =>
    cases property with
    | identifier inner name =>
      cases method with
      | false => exact beq_false_of_ne (ne_of_isWord h.2.2 (by decide))
      | true => exact h.elim
    | _ => exact h.elim
  | _ => rfl

/-- A name that is a word is no sign, and no dot is lost at it. -/
theorem WellFormed.printable {t : Expr} (h : t.WellFormed) : t.Printable := by
  induction t with
  | unary note operator operand ih =>
    obtain ⟨hoperator, hoperand⟩ := h
    exact ⟨⟨hoperator, (ih hoperand).legible⟩, (ih hoperand).keepsDots⟩
  | binary note operator left right ihleft ihright =>
    obtain ⟨hoperator, hleft, hright⟩ := h
    refine ⟨⟨hoperator, (ihleft hleft).legible, (ihright hright).legible⟩, ?_⟩
    rw [Expr.keepsDots, (ihleft hleft).keepsDots, (ihright hright).keepsDots]
    rfl
  | member note object property method ihobject _ =>
    cases property with
    | identifier inner name =>
      cases method with
      | false =>
        obtain ⟨hobject, hconstant, hname⟩ := h
        refine ⟨⟨(ihobject hobject).legible, .inl hname⟩, ?_⟩
        rw [Expr.keepsDots, (ihobject hobject).keepsDots, hconstant, hobject.endsInMark, isDots,
          beq_false_of_ne (ne_of_isWord hname (by decide)),
          beq_false_of_ne (ne_of_isWord hname (by decide))]
        rfl
      | true => exact h.elim
    | _ => exact h.elim
  | call => exact h.elim
  | pointer => exact h.elim
  | string => exact ⟨trivial, rfl⟩
  | integer => exact ⟨h, rfl⟩
  | bool => exact ⟨trivial, rfl⟩
  | nil => exact ⟨trivial, rfl⟩
  | identifier => exact ⟨h, rfl⟩

namespace Printable

variable {note inner : Note} {operator name : String} {operand left right object : Expr}

theorem of_unary (h : (unary note operator operand).Printable) :
    operator ∈ ["not", "!", "-", "+"] ∧ operand.Printable :=
  ⟨h.legible.1, h.legible.2, h.keepsDots⟩

theorem of_binary (h : (binary note operator left right).Printable) :
    (Operator.binaryPower operator).isSome ∧ left.Printable ∧ right.Printable := by
  obtain ⟨⟨hoperator, hleft, hright⟩, hdots⟩ := h
  rw [Expr.keepsDots, Bool.and_eq_true] at hdots
  exact ⟨hoperator, ⟨hleft, hdots.1⟩, hright, hdots.2⟩

theorem of_member (h : (member note object (identifier inner name) false).Printable) :
    object.Printable ∧ object.isConstant = false ∧ object.endsInMark = false ∧
      IsFieldName name := by
  obtain ⟨⟨hobject, hname⟩, hdots⟩ := h
  simp only [Expr.keepsDots, isDots, Bool.and_eq_true, Bool.not_eq_true', Bool.or_eq_false_iff,
    beq_eq_false_iff_ne] at hdots
  obtain ⟨⟨⟨hobjectDots, hconstant⟩, hmark⟩, hdot, hdots⟩ := hdots
  exact ⟨⟨hobject, hobjectDots⟩, hconstant, hmark, hname, hdot, hdots⟩

end Printable

/-! ### Words -/

/-- The kind of the token that a name becomes.  What is no word is a sign. -/
def kindOfName (name : String) : TokenKind :=
  if IsWord name.toList then kindOfWord name else .operator

theorem kindOfName_of_isWord {name : String} (h : IsWord name.toList) :
    kindOfName name = kindOfWord name :=
  if_pos h

theorem kindOfName_of_isSign {name : String} (h : IsSign name.toList) :
    kindOfName name = .operator :=
  if_neg h.not_isWord

/-- A name that is no keyword is no operator. -/
theorem kindOfWord_of_notMem {name : String} (h : name ∉ keywords) :
    kindOfWord name = .identifier := by
  have hsub : ∀ word ∈ "not" :: Operator.words, word ∈ keywords := by decide
  rw [kindOfWord, if_neg]
  rintro (rfl | hword)
  · exact h (hsub _ (.head _))
  · rw [Operator.isOperatorWord, List.contains_eq_mem, decide_eq_true_eq] at hword
    exact h (hsub _ (.tail _ hword))

/-- The name of a field may be a name or an operator. -/
theorem kindOfName_cases (name : String) :
    kindOfName name = .identifier ∨ kindOfName name = .operator := by
  rw [kindOfName, kindOfWord]
  split_ifs
  · exact .inr rfl
  · exact .inl rfl
  · exact .inr rfl

/-- Words in brackets where they are due. -/
def bracketWords (due : Bool) (ws : List Word) : List Word :=
  if due then (.bracket, "(") :: (ws ++ [(.bracket, ")")]) else ws

/-- The words of a prefix operator as it stands in front of its operand. -/
def prefixWords (gap : List Word) (operator : String) : List Word :=
  (.operator, operator) :: if operator.toList.all Text.isAlphabetic then gap else []

/-- The words of a binary operator between two operands and their words. -/
def binaryWords (gap symbol : List Word) (operator : String) (left right : Expr)
    (leftWords rightWords : List Word) : List Word :=
  bracketWords (left.binding.needsBracketsLeftOf operator) leftWords ++ (gap ++ (symbol ++ (gap ++
    bracketWords (right.binding.needsBracketsRightOf operator) rightWords)))

/-- The words of the canonical text, with `gap` for each of its spaces. -/
def words (gap : List Word) : Expr → List Word
  | unary _ operator (binary note relation left right) =>
    if negates operator relation then
      binaryWords gap ((.operator, "not") :: (gap ++ [(.operator, relation)])) relation left right
        (left.words gap) (right.words gap)
    else
      prefixWords gap operator ++
        bracketWords ((Binding.ofOperator relation).needsBracketsBehind operator)
          ((binary note relation left right).words gap)
  | unary _ operator operand =>
    prefixWords gap operator ++
      bracketWords (operand.binding.needsBracketsBehind operator) (operand.words gap)
  | binary _ operator left right =>
    binaryWords gap [(.operator, operator)] operator left right (left.words gap) (right.words gap)
  | member _ object property _ =>
    bracketWords object.needsBracketsBeforeDot (object.words gap) ++
      ((.operator, ".") :: property.words gap)
  | call _ callee => callee.words gap ++ [(.bracket, "("), (.bracket, ")")]
  | pointer _ name => [(.operator, "#"), (.identifier, name)]
  | string _ value => [(.string, value)]
  | integer _ value => [(.number, toString value)]
  | bool _ value => [(.identifier, if value then "true" else "false")]
  | nil _ => [(.identifier, "nil")]
  | identifier _ name => [(kindOfName name, name)]

theorem prefixWords_nil (operator : String) : prefixWords [] operator = [(.operator, operator)] := by
  rw [prefixWords, ite_self]

theorem solidWords_append (ws vs : List Word) :
    solidWords (ws ++ vs) = solidWords ws ++ solidWords vs :=
  List.filter_append ws vs

theorem solidWords_cons {w : Word} (h : w.1 ≠ .whitespace) (ws : List Word) :
    solidWords (w :: ws) = w :: solidWords ws :=
  List.filter_cons_of_pos (bne_iff_ne.mpr h)

theorem solidWords_bracketWords (due : Bool) (ws : List Word) :
    solidWords (bracketWords due ws) = bracketWords due (solidWords ws) := by
  cases due with
  | false => rfl
  | true =>
    rw [bracketWords, if_pos rfl, solidWords_cons (by decide), solidWords_append]
    rfl

theorem solidWords_binaryWords (symbol : List Word) (operator : String) (left right : Expr)
    (leftWords rightWords : List Word) :
    solidWords (binaryWords [space] symbol operator left right leftWords rightWords) =
      binaryWords [] (solidWords symbol) operator left right (solidWords leftWords)
        (solidWords rightWords) := by
  have hspace : solidWords [space] = [] := rfl
  simp only [binaryWords, solidWords_append, solidWords_bracketWords, hspace]

theorem solidWords_prefixWords (operator : String) :
    solidWords (prefixWords [space] operator) = prefixWords [] operator := by
  rw [prefixWords, prefixWords]
  split_ifs
  · rfl
  · rfl

/-! ### One case for each form of text -/

/-- The operator stands in front of its operand, and not inside of it. -/
def Plain (operator : String) (operand : Expr) : Prop :=
  ∀ note relation left right, operand = binary note relation left right →
    negates operator relation = false

variable {operator : String} {operand : Expr}

theorem print_of_plain (h : Plain operator operand) (note : Note) :
    (unary note operator operand).print = printPrefix operator ++
      bracket (operand.binding.needsBracketsBehind operator) operand.print := by
  cases operand with
  | binary note relation left right =>
    rw [print, h _ _ _ _ rfl]
    rfl
  | _ => rfl

theorem words_of_plain (h : Plain operator operand) (gap : List Word) (note : Note) :
    (unary note operator operand).words gap = prefixWords gap operator ++
      bracketWords (operand.binding.needsBracketsBehind operator) (operand.words gap) := by
  cases operand with
  | binary note relation left right =>
    rw [words, h _ _ _ _ rfl]
    rfl
  | _ => rfl

theorem binding_of_plain (h : Plain operator operand) (note : Note) :
    (unary note operator operand).binding = .unary (Binding.prefixPower operator) := by
  cases operand with
  | binary note relation left right =>
    rw [binding, h _ _ _ _ rfl]
    rfl
  | _ => rfl

theorem negates_not {relation : String} (h : Operator.isNegatable relation) :
    negates "not" relation = true := h

theorem print_negation {relation : String} (h : Operator.isNegatable relation) (note inner : Note)
    (left right : Expr) : (unary note "not" (binary inner relation left right)).print =
      printBinary ("not " ++ relation) relation left right left.print right.print := by
  rw [print, if_pos (negates_not h)]

theorem words_negation {relation : String} (h : Operator.isNegatable relation) (gap : List Word)
    (note inner : Note) (left right : Expr) :
    (unary note "not" (binary inner relation left right)).words gap =
      binaryWords gap ((.operator, "not") :: (gap ++ [(.operator, relation)])) relation left right
        (left.words gap) (right.words gap) := by
  rw [words, if_pos (negates_not h)]

theorem binding_negation {relation : String} (h : Operator.isNegatable relation) (note inner : Note)
    (left right : Expr) : (unary note "not" (binary inner relation left right)).binding =
      .ofOperator relation := by
  rw [binding, if_pos (negates_not h)]

/-- The words without the spaces between them. -/
theorem solidWords_words (t : Expr) : solidWords (t.words [space]) = t.words [] := by
  fun_induction words [space] t with
  | case1 note operator inner relation left right hnegates ihleft ihright =>
    rw [words, if_pos hnegates, solidWords_binaryWords, ihleft, ihright]
    rfl
  | case2 note operator inner relation left right hnegates ih =>
    rw [words, if_neg hnegates, solidWords_append, solidWords_prefixWords, solidWords_bracketWords,
      ih]
  | case3 note operator operand hbinary ih =>
    have hplain : Plain operator operand := fun _ _ _ _ h => (hbinary _ _ _ _ h).elim
    rw [words_of_plain hplain, solidWords_append, solidWords_prefixWords, solidWords_bracketWords,
      ih]
  | case4 note operator left right ihleft ihright =>
    rw [words, solidWords_binaryWords, ihleft, ihright]
    rfl
  | case5 note object property method ihobject ihproperty =>
    rw [words, solidWords_append, solidWords_bracketWords, solidWords_cons (by decide), ihobject,
      ihproperty]
  | case6 note callee ih =>
    rw [words, solidWords_append, ih]
    rfl
  | case12 note name =>
    refine solidWords_cons (fun hblank => ?_) []
    rcases kindOfName_cases name with h | h <;> cases h.symm.trans hblank
  | _ => rfl

/-- **Induction over the legible trees**, with one case for each form that a text has. -/
theorem Legible.induction {motive : Expr → Prop}
    (negation : ∀ note inner relation left right, Operator.isNegatable relation →
      left.Legible → right.Legible → motive left → motive right →
      motive (.unary note "not" (.binary inner relation left right)))
    (unary : ∀ note operator operand, operator ∈ ["not", "!", "-", "+"] → Plain operator operand →
      operand.Legible → motive operand → motive (.unary note operator operand))
    (binary : ∀ note operator left right, (Operator.binaryPower operator).isSome →
      left.Legible → right.Legible → motive left → motive right →
      motive (.binary note operator left right))
    (member : ∀ note object inner name, object.Legible → IsWord name.toList ∨ IsSign name.toList →
      motive object → motive (.member note object (.identifier inner name) false))
    (string : ∀ note value, motive (.string note value))
    (integer : ∀ note (n : Nat), (n : Int) ≤ Numeral.integerMax → motive (.integer note n))
    (bool : ∀ note value, motive (.bool note value))
    (nil : ∀ note, motive (.nil note))
    (identifier : ∀ note name, IsWord name.toList → name ∉ keywords →
      motive (.identifier note name))
    (t : Expr) (h : t.Legible) : motive t := by
  -- the operands of a relation are held ready for the `not` that may be in front of it
  suffices hboth : motive t ∧ ∀ note relation left right, t = .binary note relation left right →
      motive left ∧ motive right from hboth.1
  induction t with
  | unary note operator operand ih =>
    obtain ⟨hoperator, hoperand⟩ := h
    obtain ⟨hmotive, hoperands⟩ := ih hoperand
    refine ⟨?_, nofun⟩
    by_cases hplain : Plain operator operand
    · exact unary note operator operand hoperator hplain hoperand hmotive
    · simp only [Plain, not_forall, Bool.not_eq_false] at hplain
      obtain ⟨inner, relation, left, right, rfl, hnegates⟩ := hplain
      rw [negates, Bool.and_eq_true, beq_iff_eq] at hnegates
      obtain ⟨rfl, hrelation⟩ := hnegates
      obtain ⟨hleft, hright⟩ := hoperands _ _ _ _ rfl
      exact negation note inner relation left right hrelation hoperand.2.1 hoperand.2.2 hleft hright
  | binary note operator left right ihleft ihright =>
    have hleft := (ihleft h.2.1).1
    have hright := (ihright h.2.2).1
    refine ⟨binary note operator left right h.1 h.2.1 h.2.2 hleft hright, ?_⟩
    intro _ _ _ _ hcons
    cases hcons
    exact ⟨hleft, hright⟩
  | member note object property method ihobject _ =>
    refine ⟨?_, nofun⟩
    cases property with
    | identifier inner name =>
      cases method with
      | false => exact member note object inner name h.1 h.2 (ihobject h.1).1
      | true => exact h.elim
    | _ => exact h.elim
  | call => exact h.elim
  | pointer => exact h.elim
  | string note value => exact ⟨string note value, nofun⟩
  | integer note value =>
    obtain ⟨n, rfl⟩ := Int.eq_ofNat_of_zero_le h.1
    exact ⟨integer note n h.2, nofun⟩
  | bool note value => exact ⟨bool note value, nofun⟩
  | nil note => exact ⟨nil note, nofun⟩
  | identifier note name => exact ⟨identifier note name h.1 h.2, nofun⟩

/-- **Induction over the printable trees**, with one case for each form that a text has. -/
theorem Printable.induction {motive : Expr → Prop}
    (negation : ∀ note inner relation left right, Operator.isNegatable relation →
      left.Printable → right.Printable → motive left → motive right →
      motive (.unary note "not" (.binary inner relation left right)))
    (unary : ∀ note operator operand, operator ∈ ["not", "!", "-", "+"] → Plain operator operand →
      operand.Printable → motive operand → motive (.unary note operator operand))
    (binary : ∀ note operator left right, (Operator.binaryPower operator).isSome →
      left.Printable → right.Printable → motive left → motive right →
      motive (.binary note operator left right))
    (member : ∀ note object inner name, object.Printable → object.isConstant = false →
      object.endsInMark = false → IsFieldName name → motive object →
      motive (.member note object (.identifier inner name) false))
    (string : ∀ note value, motive (.string note value))
    (integer : ∀ note (n : Nat), (n : Int) ≤ Numeral.integerMax → motive (.integer note n))
    (bool : ∀ note value, motive (.bool note value))
    (nil : ∀ note, motive (.nil note))
    (identifier : ∀ note name, IsWord name.toList → name ∉ keywords →
      motive (.identifier note name))
    (t : Expr) (h : t.Printable) : motive t := by
  refine Legible.induction (motive := fun t => t.Printable → motive t) ?negation ?unary ?binary
    ?member (fun note value _ => string note value) (fun note n hn _ => integer note n hn)
    (fun note value _ => bool note value) (fun note _ => nil note)
    (fun note name hname hkeyword _ => identifier note name hname hkeyword) t h.legible h
  case negation =>
    intro note inner relation left right hrelation _ _ ihleft ihright h
    obtain ⟨-, hleft, hright⟩ := h.of_unary.2.of_binary
    exact negation note inner relation left right hrelation hleft hright (ihleft hleft)
      (ihright hright)
  case unary =>
    intro note operator operand hoperator hplain _ ih h
    have hoperand := h.of_unary.2
    exact unary note operator operand hoperator hplain hoperand (ih hoperand)
  case binary =>
    intro note operator left right hoperator _ _ ihleft ihright h
    obtain ⟨-, hleft, hright⟩ := h.of_binary
    exact binary note operator left right hoperator hleft hright (ihleft hleft) (ihright hright)
  case member =>
    intro note object inner name _ _ ih h
    obtain ⟨hobject, hconstant, hmark, hname⟩ := h.of_member
    exact member note object inner name hobject hconstant hmark hname (ih hobject)

end Expr

/-! ### The first character -/

/-- A character that the text of a tree may start with. -/
def Opens (c : Char) : Prop := Text.isWordChar c ∨ c ∈ ['(', '"', '!', '+', '-']

theorem Opens.not_isBlank {c : Char} (h : Opens c) : ¬ Text.isBlank c := by
  intro hblank
  rcases h with h | h
  · rw [Text.isWordChar_of_isBlank hblank] at h
    cases h
  · have hno : Text.isBlank c = false :=
      eq_false_of_contains (List.contains_iff_mem.mpr h) (by decide)
    rw [hno] at hblank
    cases hblank

theorem Opens.not_isOperatorTail {c : Char} (h : Opens c) : ¬ isOperatorTail c := by
  intro htail
  rcases h with h | h
  · have hno : Text.isWordChar c = false := eq_false_of_contains htail (by decide)
    rw [hno] at h
    cases h
  · have hno : isOperatorTail c = false :=
      eq_false_of_contains (List.contains_iff_mem.mpr h) (by decide)
    rw [hno] at htail
    cases htail

/-- Whether a text may stand in front of what follows. -/
def Starts (text : List Char) : Prop := ∃ c cs, text = c :: cs ∧ Opens c

theorem Starts.append {text : List Char} (h : Starts text) (rest : List Char) :
    Starts (text ++ rest) := by
  obtain ⟨c, cs, rfl, hc⟩ := h
  exact ⟨c, cs ++ rest, rfl, hc⟩

theorem Starts.takes_space {rest : List Char} (h : Starts rest) : Takes [' '] [space] rest := by
  obtain ⟨c, cs, rfl, hc⟩ := h
  refine Scanner.takes_space fun d ds hd => ?_
  injection hd with hd
  exact hd ▸ hc.not_isBlank

theorem starts_of_isWord {cs : List Char} (h : IsWord cs) : Starts cs := by
  obtain ⟨hword, c, ds, rfl, -⟩ := h
  exact ⟨c, ds, rfl, .inl (hword c (.head _))⟩

theorem isWord_true : IsWord "true".toList := by decide

theorem isWord_false : IsWord "false".toList := by decide

theorem isWord_nil : IsWord "nil".toList := by decide

theorem isWord_not : IsWord "not".toList := by decide

theorem toList_append {a b : String} : (a ++ b).toList = a.toList ++ b.toList :=
  String.toList_append

theorem starts_bracket {text : String} (h : Starts text.toList) (due : Bool) :
    Starts (Expr.bracket due text).toList := by
  cases due with
  | false => exact h
  | true =>
    simp only [Expr.bracket, if_pos, toList_append, List.append_assoc]
    exact ⟨'(', _, rfl, .inr (by decide)⟩

theorem starts_printPrefix {operator : String} (h : operator ∈ ["not", "!", "-", "+"]) :
    Starts (Expr.printPrefix operator).toList := by
  simp only [List.mem_cons, List.not_mem_nil, or_false] at h
  rcases h with rfl | rfl | rfl | rfl
  · exact ⟨'n', _, rfl, .inl (by decide)⟩
  · exact ⟨'!', _, rfl, .inr (by decide)⟩
  · exact ⟨'-', _, rfl, .inr (by decide)⟩
  · exact ⟨'+', _, rfl, .inr (by decide)⟩

theorem starts_printBinary {symbol operator leftText rightText : String} {left right : Expr}
    (h : Starts leftText.toList) :
    Starts (Expr.printBinary symbol operator left right leftText rightText).toList := by
  rw [Expr.printBinary, String.append_assoc, String.append_assoc, String.append_assoc, toList_append]
  exact (starts_bracket h _).append _

theorem starts_toString (n : Nat) : Starts (toString (n : Int)).toList := by
  obtain ⟨c, cs, hcons⟩ := List.exists_cons_of_ne_nil (Nat.toDigits_ne_nil (n := n) (b := 10))
  have hmem : c ∈ Nat.toDigits 10 n := by rw [hcons]; exact .head _
  have hc : c.isDigit := Nat.isDigit_of_mem_toDigits (by omega) (by omega) hmem
  rw [Numeral.toList_toString, hcons]
  exact ⟨c, cs, rfl, .inl (Text.isWordChar_of_isDigit hc)⟩

/-- The text of a tree may stand behind a space or a prefix operator. -/
theorem starts_print {t : Expr} (h : t.Legible) : Starts t.print.toList := by
  refine Expr.Legible.induction (motive := fun t => Starts t.print.toList) ?negation ?unary
    ?binary ?member ?string ?integer ?bool ?nil ?identifier t h
  case negation =>
    intro note inner relation left right hrelation _ _ ihleft _
    rw [Expr.print_negation hrelation]
    exact starts_printBinary ihleft
  case unary =>
    intro note operator operand hoperator hplain _ _
    rw [Expr.print_of_plain hplain, toList_append]
    exact (starts_printPrefix hoperator).append _
  case binary =>
    intro note operator left right _ _ _ ihleft _
    exact starts_printBinary ihleft
  case member =>
    intro note object inner name _ _ ihobject
    rw [Expr.print, String.append_assoc, toList_append]
    exact (starts_bracket ihobject _).append _
  case string =>
    intro note value
    rw [Expr.print, Text.quote, String.toList_ofList]
    exact ⟨'"', _, rfl, .inr (by decide)⟩
  case integer => exact fun note n _ => starts_toString n
  case bool =>
    intro note value
    cases value
    · exact starts_of_isWord isWord_false
    · exact starts_of_isWord isWord_true
  case nil => exact fun _ => starts_of_isWord isWord_nil
  case identifier => exact fun note name hname _ => starts_of_isWord hname

/-! ### The pieces of a text -/

/-- What may be behind the text of a tree: the end, a space or a bracket, or a dot in front of one
of its fields. -/
def MayFollow (dotted : Bool) (rest : List Char) : Prop :=
  ∀ c ds, rest = c :: ds → c = ' ' ∨ c = ')' ∨ c = '.' ∧ dotted

theorem mayFollow_space (dotted : Bool) (rest : List Char) : MayFollow dotted (' ' :: rest) := by
  intro c ds hcons
  cases hcons
  exact .inl rfl

theorem mayFollow_bracket (dotted : Bool) (rest : List Char) : MayFollow dotted (')' :: rest) := by
  intro c ds hcons
  cases hcons
  exact .inr (.inl rfl)

theorem MayFollow.mono {dotted : Bool} {rest : List Char} (h : MayFollow false rest) :
    MayFollow dotted rest := by
  intro c ds hrest
  rcases h c ds hrest with h | h | ⟨-, h⟩
  · exact .inl h
  · exact .inr (.inl h)
  · cases h

theorem MayFollow.dotted {dotted : Bool} {rest : List Char} (h : MayFollow dotted rest) :
    MayFollow true rest :=
  fun c ds hrest => (h c ds hrest).imp_right (.imp_right fun ⟨hc, _⟩ => ⟨hc, rfl⟩)

theorem MayFollow.endsPiece {rest : List Char} (h : MayFollow false rest) : EndsPiece rest := by
  intro c ds hrest
  rcases h c ds hrest with h | h | ⟨-, h⟩
  · exact .inl h
  · exact .inr h
  · cases h

theorem MayFollow.endsWord {dotted : Bool} {rest : List Char} (h : MayFollow dotted rest) :
    EndsWord rest := by
  intro c ds hrest
  rcases h c ds hrest with rfl | rfl | ⟨rfl, -⟩ <;> decide

variable {rest : List Char} {ws : List Word}

/-- A text in brackets, where they are due. -/
theorem takes_bracket {dotted : Bool} (due : Bool) {text : String}
    (h : ∀ rest, MayFollow dotted rest → Takes text.toList ws rest)
    (hrest : due = false → MayFollow dotted rest) :
    Takes (Expr.bracket due text).toList (Expr.bracketWords due ws) rest := by
  cases due with
  | false => exact h rest (hrest rfl)
  | true =>
    have hopen : ∀ rest, Takes ['('] [(.bracket, "(")] rest :=
      takes_sign fun _ => rfl
    have hclose : Takes [')'] [(.bracket, ")")] rest := takes_sign (fun _ => rfl) _
    have hinside := (h _ (mayFollow_bracket dotted rest)).append hclose
    simp only [Expr.bracket, if_pos, toList_append, List.append_assoc]
    exact (hopen _).append hinside

/-- A prefix operator, in front of a text. -/
theorem takes_printPrefix {operator : String} (hoperator : operator ∈ ["not", "!", "-", "+"])
    (hrest : Starts rest) :
    Takes (Expr.printPrefix operator).toList (Expr.prefixWords [space] operator) rest := by
  simp only [List.mem_cons, List.not_mem_nil, or_false] at hoperator
  rcases hoperator with rfl | rfl | rfl | rfl
  · have hnot : Takes "not".toList [(.operator, "not")] (' ' :: rest) :=
      takes_word isWord_not (mayFollow_space false rest).endsWord
    exact hnot.append hrest.takes_space
  · refine takes_one (c := '!') (fun _ => rfl) ?_
    obtain ⟨c, cs, rfl, hc⟩ := hrest
    intro d ds hcons
    cases hcons
    exact hc.not_isOperatorTail
  · exact takes_sign (fun _ => rfl) _
  · exact takes_sign (fun _ => rfl) _

/-- The binary operators that are words. -/
def wordOperators : List String :=
  ["or", "and", "in", "matches", "contains", "startsWith", "endsWith"]

/-- The binary operators are symbols and words. -/
theorem mem_of_binaryPower {operator : String} (h : (Operator.binaryPower operator).isSome) :
    operator ∈ symbols ∨ operator ∈ wordOperators := by
  unfold Operator.binaryPower at h
  split at h
  all_goals first
    | exact .inl (by decide)
    | exact .inr (by decide)
    | cases h

/-- A binary operator does not start with a blank. -/
theorem takes_space_operator {operator : String} (h : (Operator.binaryPower operator).isSome)
    (rest : List Char) : Takes [' '] [space] (operator.toList ++ rest) := by
  have hall : ∀ operator ∈ symbols ++ wordOperators,
      operator.toList.head?.any (fun c => !Text.isBlank c) := by decide
  have hhead := hall operator (List.mem_append.mpr (mem_of_binaryPower h))
  refine takes_space fun c ds hcons => ?_
  cases hchars : operator.toList with
  | nil =>
    rw [hchars] at hhead
    cases hhead
  | cons d ds =>
    rw [hchars] at hhead hcons
    injection hcons with hd
    subst hd
    simpa using hhead

/-- A binary operator, in front of a space. -/
theorem takes_operator {operator : String} (h : (Operator.binaryPower operator).isSome)
    (rest : List Char) : Takes operator.toList [(.operator, operator)] (' ' :: rest) := by
  rcases mem_of_binaryPower h with h | h
  · exact takes_symbol h rest
  · have hall : ∀ operator ∈ wordOperators,
        IsWord operator.toList ∧ kindOfWord operator = .operator := by decide
    obtain ⟨hisWord, hkind⟩ := hall operator h
    have hchars : String.ofList operator.toList = operator := String.ofList_toList
    have htakes := takes_word hisWord (mayFollow_space false rest).endsWord
    rwa [hchars, hkind] at htakes

/-- A binary operator as it is written: it does not start with a blank, and it becomes these words
in front of a space. -/
structure Symbol (symbol : String) (ws : List Word) : Prop where
  behind : ∀ rest, Takes [' '] [space] (symbol.toList ++ rest)
  takes : ∀ rest, Takes symbol.toList ws (' ' :: rest)

theorem symbol_operator {operator : String} (h : (Operator.binaryPower operator).isSome) :
    Symbol operator [(.operator, operator)] :=
  ⟨takes_space_operator h, takes_operator h⟩

/-- A relation with a `not` in front of it. -/
theorem symbol_negation {relation : String} (h : Operator.isNegatable relation) :
    Symbol ("not " ++ relation) [(.operator, "not"), space, (.operator, relation)] := by
  have hpower : (Operator.binaryPower relation).isSome := by
    rw [Operator.binaryPower_of_isNegatable h]
    rfl
  have hchars : "not ".toList = "not".toList ++ [' '] := rfl
  constructor
  · intro rest
    rw [toList_append, hchars, List.append_assoc, List.append_assoc]
    exact (starts_of_isWord isWord_not).append _ |>.takes_space
  · intro rest
    have hnot : Takes "not".toList [(.operator, "not")] (' ' :: (relation.toList ++ ' ' :: rest)) :=
      takes_word isWord_not (mayFollow_space false _).endsWord
    have hrelation := (takes_space_operator hpower _).append (takes_operator hpower rest)
    rw [toList_append, hchars, List.append_assoc]
    exact hnot.append hrelation

/-- A binary operator and its left operand, in front of the right one. -/
theorem Symbol.left {symbol leftText : String} {symbolWords leftWords : List Word} {dotted : Bool}
    (h : Symbol symbol symbolWords) (due : Bool)
    (hleft : ∀ rest, MayFollow dotted rest → Takes leftText.toList leftWords rest)
    (hrest : Starts rest) :
    Takes ((Expr.bracket due leftText).toList ++ ([' '] ++ (symbol.toList ++ [' '])))
      (Expr.bracketWords due leftWords ++ ([space] ++ (symbolWords ++ [space]))) rest := by
  have hsymbol := Takes.append (h.takes rest) hrest.takes_space
  have hbehind := h.behind ([' '] ++ rest)
  rw [← List.append_assoc] at hbehind
  exact (takes_bracket due hleft fun _ => mayFollow_space _ _).append (hbehind.append hsymbol)

theorem toList_printBinary (symbol operator leftText rightText : String) (left right : Expr) :
    (Expr.printBinary symbol operator left right leftText rightText).toList =
      (Expr.bracket (left.binding.needsBracketsLeftOf operator) leftText).toList ++
        ([' '] ++ (symbol.toList ++ [' '])) ++
        (Expr.bracket (right.binding.needsBracketsRightOf operator) rightText).toList := by
  have hchars : " ".toList = [' '] := rfl
  simp only [Expr.printBinary, toList_append, hchars, List.append_assoc]

/-- A binary operator and its operands. -/
theorem Symbol.printBinary {symbol operator leftText rightText : String}
    {symbolWords leftWords rightWords : List Word} {left right : Expr}
    {leftDotted rightDotted : Bool} (h : Symbol symbol symbolWords)
    (hleft : ∀ rest, MayFollow leftDotted rest → Takes leftText.toList leftWords rest)
    (hright : ∀ rest, MayFollow rightDotted rest → Takes rightText.toList rightWords rest)
    (hstarts : Starts rightText.toList) (hrest : MayFollow false rest) :
    Takes (Expr.printBinary symbol operator left right leftText rightText).toList
      (Expr.binaryWords [space] symbolWords operator left right leftWords rightWords) rest := by
  have hlast := takes_bracket (right.binding.needsBracketsRightOf operator) hright
    fun _ => hrest.mono
  have hfirst := h.left (left.binding.needsBracketsLeftOf operator) hleft
    ((starts_bracket hstarts (right.binding.needsBracketsRightOf operator)).append rest)
  have hall := hfirst.append hlast
  rw [toList_printBinary, Expr.binaryWords]
  simpa only [List.append_assoc] using hall

/-- The text of a tree in front of a dot, in the brackets that it needs there. -/
theorem takes_object {object : Expr} (hmark : object.endsInMark = false)
    (h : ∀ rest, MayFollow object.takesDot rest → Takes object.print.toList ws rest)
    (rest : List Char) :
    Takes (Expr.bracket object.needsBracketsBeforeDot object.print).toList
      (Expr.bracketWords object.needsBracketsBeforeDot ws) ('.' :: rest) := by
  refine takes_bracket _ h fun hdue c ds hcons => ?_
  cases hcons
  exact .inr (.inr ⟨rfl, by rw [Expr.takesDot, hdue, hmark]; rfl⟩)

/-- The dot in front of the name of a field. -/
theorem takes_dot_name {name : String} (h : Expr.IsFieldName name) (rest : List Char) :
    Takes ['.'] [(.operator, ".")] (name.toList ++ rest) := by
  obtain ⟨c, ds, hcons, hdigit, hdot⟩ : ∃ c ds, name.toList = c :: ds ∧ ¬ c.isDigit ∧ c ≠ '.' := by
    obtain ⟨⟨hall, c, ds, hcons, hdigit⟩ | hsign, hdot, hdots⟩ := h
    · refine ⟨c, ds, hcons, hdigit, ?_⟩
      rintro rfl
      exact absurd (hall '.' (hcons ▸ .head _)) (by decide)
    · obtain ⟨c, ds, hcons, hword, hdotted⟩ := hsign.head
      refine ⟨c, ds, hcons, fun hdigit => ?_, fun hc => ?_⟩
      · rw [Text.isWordChar_of_isDigit hdigit] at hword
        cases hword
      · rcases hdotted hc with hchars | hchars
        · exact hdot (String.toList_inj.mp hchars)
        · exact hdots (String.toList_inj.mp hchars)
  refine takes_dot fun d es hd => ?_
  rw [hcons] at hd
  cases hd
  exact ⟨hdigit, hdot⟩

/-- The name of a field is one token. -/
theorem takes_name {name : String} (h : Expr.IsFieldName name)
    (hrest : MayFollow (name != "?") rest) :
    Takes name.toList [(Expr.kindOfName name, name)] rest := by
  have hchars : String.ofList name.toList = name := String.ofList_toList
  obtain ⟨hword | hsign, hdot, -⟩ := h
  · have htakes := takes_word hword hrest.endsWord
    rwa [hchars, ← Expr.kindOfName_of_isWord hword] at htakes
  · have hends : EndsSign name.toList rest := by
      intro d ds hcons
      refine (hrest d ds hcons).imp_right (.imp_right fun ⟨hd, hmark⟩ => ⟨hd, ?_, ?_⟩)
      · exact fun hchars => hdot (String.toList_inj.mp hchars)
      · exact fun hchars => bne_iff_ne.mp hmark (String.toList_inj.mp hchars)
    have htakes := takes_of_isSign hsign hends
    rwa [hchars, ← Expr.kindOfName_of_isSign hsign] at htakes

/-- **The text of a tree is cut into its words.** -/
theorem takes_print {t : Expr} (h : t.Printable) :
    ∀ rest, MayFollow t.takesDot rest → Takes t.print.toList (t.words [space]) rest := by
  refine Expr.Printable.induction
    (motive := fun t => ∀ rest, MayFollow t.takesDot rest →
      Takes t.print.toList (t.words [space]) rest)
    ?negation ?unary ?binary ?member ?string ?integer ?bool ?nil ?identifier t h
  case negation =>
    intro note inner relation left right hrelation _ hright ihleft ihright rest hrest
    rw [Expr.print_negation hrelation, Expr.words_negation hrelation]
    exact (symbol_negation hrelation).printBinary ihleft ihright (starts_print hright.legible) hrest
  case unary =>
    intro note operator operand hoperator hplain hoperand ih rest hrest
    rw [Expr.print_of_plain hplain, Expr.words_of_plain hplain, toList_append]
    have hbracket := takes_bracket (operand.binding.needsBracketsBehind operator) ih
      fun _ => MayFollow.mono hrest
    exact (takes_printPrefix hoperator
      ((starts_bracket (starts_print hoperand.legible) _).append _)).append hbracket
  case binary =>
    intro note operator left right hpower _ hright ihleft ihright rest hrest
    exact (symbol_operator hpower).printBinary ihleft ihright (starts_print hright.legible) hrest
  case member =>
    intro note object inner name _ _ hmark hname ih rest hrest
    have hall := (takes_object hmark ih (name.toList ++ rest)).append
      ((takes_dot_name hname rest).append (takes_name hname hrest))
    rw [Expr.print, toList_append, toList_append, List.append_assoc]
    exact hall
  case string => exact fun note value rest _ => takes_quote value rest
  case integer => exact fun note n _ rest hrest => takes_number n hrest.endsPiece
  case bool =>
    intro note value rest hrest
    cases value
    · exact takes_word isWord_false hrest.endsWord
    · exact takes_word isWord_true hrest.endsWord
  case nil =>
    intro note rest hrest
    exact takes_word isWord_nil hrest.endsWord
  case identifier =>
    intro note name hname _ rest hrest
    have htakes := takes_word hname hrest.endsWord
    rw [String.ofList_toList, ← Expr.kindOfName_of_isWord hname] at htakes
    exact htakes

end FilterLang
