import FilterLang.Proofs.Grammar.Language
import FilterLang.Proofs.Printing.Text

/-!
# What reading keeps of the words

A tree shows its words in another order than its text may have them: brackets go and come, a `not`
moves to its relation, and a chain of comparisons repeats its operands.  What is left is kept as it
is, and where a field of a constant is read, a bracket has been closed in front of its dot.

* `Mark`, `marks`, `Expr.marks` — what is kept of words and of a tree, each with whether a bracket
  is closed in front of it, or has to be.
* `Agrees` — the marks of a tree are those of words, up to the second comparison of a chain.
* `agrees_of_reads` — the tree that is read agrees with its tokens.
* `Clashes` — the marks of a tree that are not those of words.
-/

namespace FilterLang

open Scanner Grammar

/-! ### Marks -/

/-- What is kept of a word, and whether a bracket is closed in front of it. -/
abbrev Mark := String × Bool

/-- What is kept of a word.  Brackets and `not` may be anywhere, and numbers are written anew. -/
def keptOf? : Word → Option String
  | (.bracket, _) | (.eof, _) => none
  | (.number, _) => some ""
  | (.string, value) => some value
  | (_, value) => if value = "not" then none else some value

/-- The mark of a word, if anything is kept of it. -/
def markOf (w : Word) (closed : Bool) : List Mark :=
  ((keptOf? w).map fun kept => (kept, closed)).toList

/-- Whether the word closes a bracket. -/
def closes (w : Word) : Bool := w == (.bracket, ")")

/-- The marks of words.  A bracket may be closed in front of them. -/
def marks (closed : Bool) : List Word → List Mark
  | [] => []
  | w :: ws => markOf w closed ++ marks (closes w) ws

/-- Whether a bracket is closed at the end of words. -/
def closesAfter (closed : Bool) : List Word → Bool
  | [] => closed
  | w :: ws => closesAfter (closes w) ws

theorem marks_append (closed : Bool) (ws vs : List Word) :
    marks closed (ws ++ vs) = marks closed ws ++ marks (closesAfter closed ws) vs := by
  induction ws generalizing closed with
  | nil => rfl
  | cons w ws ih => rw [List.cons_append, marks, ih, marks, closesAfter, List.append_assoc]

theorem marks_singleton (closed : Bool) (w : Word) : marks closed [w] = markOf w closed :=
  List.append_nil _

theorem map_fst_markOf (w : Word) (closed : Bool) :
    (markOf w closed).map Prod.fst = (keptOf? w).toList := by
  rw [markOf]
  cases keptOf? w <;> rfl

theorem map_fst_marks (closed : Bool) (ws : List Word) :
    (marks closed ws).map Prod.fst = ws.filterMap keptOf? := by
  induction ws generalizing closed with
  | nil => rfl
  | cons w ws ih =>
    rw [marks, List.map_append, ih, map_fst_markOf, List.filterMap_cons]
    cases keptOf? w <;> rfl

namespace Expr

/-- The marks of a tree.  A bracket has to be closed in front of the dot behind a constant. -/
def marks : Expr → List Mark
  | unary _ operator operand => markOf (.operator, operator) false ++ operand.marks
  | binary _ operator left right =>
    left.marks ++ (markOf (.operator, operator) false ++ right.marks)
  | member _ object property _ =>
    object.marks ++ ((".", object.isConstant) :: property.marks)
  | call _ callee => callee.marks
  | pointer _ name => markOf (.operator, "#") false ++ markOf (.identifier, name) false
  | string _ value => [(value, false)]
  | integer .. => [("", false)]
  | bool _ value => [(if value then "true" else "false", false)]
  | nil _ => [("nil", false)]
  | identifier _ name => markOf (.identifier, name) false

theorem filterMap_bracketWords (due : Bool) (ws : List Word) :
    (bracketWords due ws).filterMap keptOf? = ws.filterMap keptOf? := by
  cases due with
  | false => rfl
  | true =>
    rw [bracketWords, if_pos rfl, List.filterMap_cons, List.filterMap_append]
    exact List.append_nil _

theorem filterMap_binaryWords (symbol : List Word) (operator : String) (left right : Expr)
    (leftWords rightWords : List Word) :
    (binaryWords [] symbol operator left right leftWords rightWords).filterMap keptOf? =
      leftWords.filterMap keptOf? ++
        (symbol.filterMap keptOf? ++ rightWords.filterMap keptOf?) := by
  simp only [binaryWords, List.filterMap_append, filterMap_bracketWords, List.nil_append]

theorem filterMap_singleton (w : Word) : [w].filterMap keptOf? = (keptOf? w).toList := by
  rw [List.filterMap_cons]
  cases keptOf? w <;> rfl

theorem keptOf?_kindOfName (name : String) :
    keptOf? (kindOfName name, name) = keptOf? (.identifier, name) := by
  rcases kindOfName_cases name with h | h
  · rw [h]
  · rw [h]
    rfl

/-- A tree keeps of its words what reading keeps. -/
theorem filterMap_words (t : Expr) : (t.words []).filterMap keptOf? = t.marks.map Prod.fst := by
  fun_induction words [] t with
  | case1 note operator inner relation left right hnegates ihleft ihright =>
    obtain ⟨rfl, -⟩ : operator = "not" ∧ _ := by simpa [negates] using hnegates
    have hsymbol : [(.operator, "not"), (.operator, relation)].filterMap keptOf? =
        (keptOf? (.operator, relation)).toList := filterMap_singleton _
    rw [filterMap_binaryWords, ihleft, ihright, List.nil_append, hsymbol, marks, marks]
    simp only [List.map_append, map_fst_markOf]
    rfl
  | case2 note operator inner relation left right hnegates ih =>
    rw [prefixWords_nil, List.filterMap_append, filterMap_singleton, filterMap_bracketWords, ih,
      marks, List.map_append, map_fst_markOf]
  | case3 note operator operand hbinary ih =>
    rw [prefixWords_nil, List.filterMap_append, filterMap_singleton, filterMap_bracketWords, ih,
      marks, List.map_append, map_fst_markOf]
  | case4 note operator left right ihleft ihright =>
    rw [filterMap_binaryWords, ihleft, ihright, marks, filterMap_singleton]
    simp only [List.map_append, map_fst_markOf]
  | case5 note object property method ihobject ihproperty =>
    rw [List.filterMap_append, filterMap_bracketWords, ihobject, List.filterMap_cons, ihproperty,
      marks, List.map_append]
    rfl
  | case6 note callee ih =>
    rw [List.filterMap_append, ih, marks]
    exact List.append_nil _
  | case7 note name =>
    rw [marks, List.map_append, map_fst_markOf, map_fst_markOf, ← filterMap_singleton,
      ← filterMap_singleton, ← List.filterMap_append]
    rfl
  | case12 note name =>
    rw [filterMap_singleton, keptOf?_kindOfName, marks, map_fst_markOf]
  | case10 note value => cases value <;> rfl
  | _ => rfl

/-- The spaces and brackets of a text leave no marks. -/
theorem filterMap_within (t : Expr) (due : Bool) :
    (solidWords (bracketWords due (t.words [space]))).filterMap keptOf? = t.marks.map Prod.fst := by
  rw [solidWords_bracketWords, filterMap_bracketWords, solidWords_words, filterMap_words]

end Expr

/-! ### Agreement -/

/-- A mark of a tree and one of words are the same, and a bracket is closed where it has to be. -/
def Admits (v w : Mark) : Prop := v.1 = w.1 ∧ (v.2 = true → w.2 = true)

/-- The marks of a tree are those of words, up to the place where the second comparison of a chain
becomes a conjunction. -/
inductive Agrees : List Mark → List Mark → Prop where
  | nil : Agrees [] []
  | cons {v w : Mark} {vs ws : List Mark} (h : Admits v w) (hrest : Agrees vs ws) :
      Agrees (v :: vs) (w :: ws)
  | chain {w : Mark} {vs ws : List Mark} (h : Operator.isComparison w.1) :
      Agrees (("&&", false) :: vs) (w :: ws)

theorem Agrees.append {vs ws vs' ws' : List Mark} (h : Agrees vs ws) (h' : Agrees vs' ws') :
    Agrees (vs ++ vs') (ws ++ ws') := by
  induction h with
  | nil => exact h'
  | cons hadmits _ ih => exact .cons hadmits ih
  | chain hcomparison => exact .chain hcomparison

/-- What a mark of no constant admits is any mark of the same text. -/
theorem admits_open (kept : String) (closed : Bool) : Admits (kept, false) (kept, closed) :=
  ⟨rfl, nofun⟩

theorem agrees_markOf {v w : Word} (h : keptOf? v = keptOf? w) (closed : Bool) :
    Agrees (markOf v false) (markOf w closed) := by
  rw [markOf, markOf, h]
  cases keptOf? w with
  | none => exact .nil
  | some kept => exact .cons (admits_open kept closed) .nil

/-! ### What is read agrees with its tokens -/

/-- The marks of what a production has at hand. -/
def Grammar.Goal.marks : Goal → List Mark
  | .operators _ left | .fields left => left.marks
  | .chain _ left token none => left.marks ++ markOf (.operator, token.value) false
  | .chain _ left token (some before) =>
    before.marks ++ (("&&", false) :: (left.marks ++ markOf (.operator, token.value) false))
  | .expression _ | .operand => []

/-- Whether a production reads the fields of a constant. -/
def Grammar.Goal.isConstant : Goal → Bool
  | .fields value => value.isConstant
  | _ => false

theorem marks_conjoin (before : Option Expr) (power : Nat) (t : Token) (left right : Expr) :
    (conjoin before t left right).marks =
      (Goal.chain power left t before).marks ++ right.marks := by
  cases before with
  | none => simp [conjoin, Goal.marks, Expr.marks]
  | some before =>
    have hand : markOf (.operator, "&&") false = [("&&", false)] := rfl
    simp [conjoin, Goal.marks, Expr.marks, hand]

/-- The `not` in front of an operator leaves no mark. -/
theorem marks_join (ahead : Ahead) (left right : Expr) : (ahead.join left right).marks =
    left.marks ++ markOf (.operator, ahead.token.value) false ++ right.marks := by
  rw [Ahead.join, List.append_assoc]
  cases ahead.negation with
  | none => rfl
  | some => rfl

theorem keptOf?_word {t : Token} (h : t.kind = .identifier ∨ t.kind = .operator) :
    keptOf? (.operator, t.value) = keptOf? t.word := by
  rw [Token.word]
  rcases h with h | h
  · rw [h]
    rfl
  · rw [h]

/-- A word that is kept leaves its own mark. -/
theorem markOf_word {t : Token} (h : t.kind = .identifier ∨ t.kind = .operator)
    (hnot : t.value ≠ "not") (closed : Bool) : markOf t.word closed = [(t.value, closed)] := by
  have hkept : keptOf? t.word = some t.value := by
    rw [← keptOf?_word h]
    exact if_neg hnot
  rw [markOf, hkept]
  rfl

theorem Grammar.Offers.agrees {least : Nat} {ts us : List Token} {ahead : Ahead}
    (h : Offers least ts ahead us) : ∃ op, ts = op ++ us ∧
      ∀ closed, Agrees (markOf (.operator, ahead.token.value) false)
        (FilterLang.marks closed (op.map Token.word)) := by
  cases h with
  | @plain t us ahead hkind _ hahead =>
    obtain ⟨rfl, -⟩ := token_of_ofToken? hahead
    refine ⟨[ahead.token], rfl, fun closed => ?_⟩
    rw [List.map_singleton, marks_singleton]
    exact agrees_markOf (keptOf?_word (.inr hkind)) closed
  | @negated t relation us ahead hkind hnot hrelation hahead =>
    obtain ⟨rfl, -⟩ := token_of_ofToken? hahead
    have hword : t.word = (.operator, "not") := by rw [Token.word, hkind, hnot]
    rw [isNegatable, Bool.and_eq_true, beq_iff_eq] at hrelation
    refine ⟨[t, ahead.token], rfl, fun closed => ?_⟩
    rw [List.map_cons, FilterLang.marks, hword, List.map_singleton, marks_singleton]
    exact agrees_markOf (keptOf?_word (.inr hrelation.1)) _

theorem marks_of_constant? {t : Token} {e : Expr} (h : constant? t = some e) :
    e.marks = [(t.value, false)] := by
  rw [constant?] at h
  split_ifs at h with htrue hfalse hnil <;> cases h
  · rw [htrue]
    rfl
  · rw [hfalse]
    rfl
  · rw [hnil]
    rfl

/-- A constant is not called `not`. -/
theorem markOf_constant {t : Token} {e : Expr} (hkind : t.kind = .identifier)
    (h : constant? t = some e) (closed : Bool) : markOf t.word closed = [(t.value, closed)] := by
  have hnot : t.value ≠ "not" := by
    intro hnot
    rw [constant?, hnot] at h
    cases h
  exact markOf_word (.inl hkind) hnot closed

theorem markOf_of_isComparison {t : Token} (h : Grammar.isComparison t) (closed : Bool) :
    markOf t.word closed = [(t.value, closed)] ∧ Operator.isComparison t.value := by
  rw [Grammar.isComparison, Bool.and_eq_true, beq_iff_eq] at h
  have hnot : t.value ≠ "not" := by
    intro hnot
    rw [hnot] at h
    cases h.2
  exact ⟨markOf_word (.inr h.1) hnot closed, h.2⟩

/-- What has no constant in front of it asks for nothing. -/
theorem of_not_constant {p : Prop} (h : false = true) : p := absurd h Bool.false_ne_true

/-- **The tree that is read agrees with its tokens.** -/
theorem agrees_of_reads {g : Goal} {ts us : List Token} {e : Expr} (h : Reads g ts e us) :
    ∃ front, ts = front ++ us ∧ ∀ closed vs, (g.isConstant = true → closed = true) →
      Agrees g.marks vs → Agrees e.marks (vs ++ marks closed (front.map Token.word)) := by
  induction h with
  | expression _ _ ihoperand ihoperators =>
    obtain ⟨front, rfl, hleft⟩ := ihoperand
    obtain ⟨behind, rfl, he⟩ := ihoperators
    refine ⟨front ++ behind, (List.append_assoc ..).symm, fun closed vs _ hvs => ?_⟩
    rw [List.map_append, marks_append, ← List.append_assoc]
    exact he _ _ of_not_constant (hleft closed vs of_not_constant hvs)
  | stop _ =>
    refine ⟨[], rfl, fun closed vs _ hvs => ?_⟩
    rw [List.map_nil, marks, List.append_nil]
    exact hvs
  | binary hoffers _ _ _ ihright ihoperators =>
    obtain ⟨op, rfl, hop⟩ := hoffers.agrees
    obtain ⟨front, rfl, hright⟩ := ihright
    obtain ⟨behind, rfl, he⟩ := ihoperators
    refine ⟨op ++ front ++ behind, by simp, fun closed vs _ hvs => ?_⟩
    rw [List.map_append, List.map_append, marks_append, marks_append, ← List.append_assoc,
      ← List.append_assoc]
    refine he _ _ of_not_constant ?_
    rw [Goal.marks, marks_join]
    exact (hvs.append (hop closed)).append (hright _ [] of_not_constant .nil)
  | comparison hoffers _ _ _ ihchain ihoperators =>
    obtain ⟨op, rfl, hop⟩ := hoffers.agrees
    obtain ⟨front, rfl, hchain⟩ := ihchain
    obtain ⟨behind, rfl, he⟩ := ihoperators
    refine ⟨op ++ front ++ behind, by simp, fun closed vs _ hvs => ?_⟩
    rw [List.map_append, List.map_append, marks_append, marks_append, ← List.append_assoc,
      ← List.append_assoc]
    exact he _ _ of_not_constant (hchain _ _ of_not_constant (hvs.append (hop closed)))
  | @prefixed t _ _ _ _ _ _ hpower _ _ ihinner ihfields =>
    obtain ⟨front, rfl, hinner⟩ := ihinner
    obtain ⟨behind, rfl, he⟩ := ihfields
    refine ⟨t :: (front ++ behind), by simp, fun closed vs _ hvs => ?_⟩
    rw [List.map_cons, List.map_append, marks, marks_append, ← List.append_assoc,
      ← List.append_assoc]
    refine he _ _ of_not_constant ?_
    have hkind : t.kind = .operator := ((isPrefix_iff t).mpr ⟨_, hpower⟩).1
    have hoperator := hvs.append (agrees_markOf (keptOf?_word (.inr hkind)) closed)
    exact hoperator.append (hinner (closes t.word) [] of_not_constant .nil)
  | @bracketed t close _ _ _ _ _ hopen _ hclose _ ihinner ihfields =>
    obtain ⟨front, hfront, hinner⟩ := ihinner
    obtain ⟨behind, rfl, he⟩ := ihfields
    -- the brackets themselves leave no marks, and the fields stand behind a closed one
    refine ⟨t :: (front ++ close :: behind), by simp [hfront], fun closed vs _ hvs => ?_⟩
    have hinside : marks closed ((t :: (front ++ close :: behind)).map Token.word) =
        marks false (front.map Token.word) ++ marks true (behind.map Token.word) := by
      rw [List.map_cons, marks, List.map_append, marks_append, List.map_cons, marks,
        Token.is_iff_word.mp hopen, Token.is_iff_word.mp hclose]
      rfl
    rw [hinside, ← List.append_assoc]
    exact he true _ (fun _ => rfl) (hvs.append (hinner false [] of_not_constant .nil))
  | constant hkind hconstant =>
    refine ⟨[_], rfl, fun closed vs _ hvs => ?_⟩
    rw [List.map_singleton, marks_singleton, marks_of_constant? hconstant,
      markOf_constant hkind hconstant]
    exact hvs.append (.cons (admits_open _ _) .nil)
  | @name t _ _ _ hkind hconstant _ ihfields =>
    obtain ⟨behind, rfl, he⟩ := ihfields
    refine ⟨t :: behind, rfl, fun closed vs _ hvs => ?_⟩
    rw [List.map_cons, marks, ← List.append_assoc]
    exact he _ _ of_not_constant (hvs.append (agrees_markOf (keptOf?_word (.inl hkind)) closed))
  | @number t _ _ _ hkind _ =>
    refine ⟨[t], rfl, fun closed vs _ hvs => hvs.append ?_⟩
    rw [List.map_singleton, marks_singleton, Token.word, hkind]
    exact .cons (admits_open _ _) .nil
  | @string t _ _ _ hkind _ ihfields =>
    obtain ⟨behind, rfl, he⟩ := ihfields
    refine ⟨t :: behind, rfl, fun closed vs _ hvs => ?_⟩
    rw [List.map_cons, marks, ← List.append_assoc, Token.word, hkind]
    exact he _ _ of_not_constant (hvs.append (.cons (admits_open _ _) .nil))
  | @chainEnd power t _ _ _ left right before _ _ ihright =>
    obtain ⟨front, rfl, hright⟩ := ihright
    refine ⟨front, rfl, fun closed vs _ hvs => ?_⟩
    rw [marks_conjoin before power]
    exact hvs.append (hright closed [] of_not_constant .nil)
  | @chainMore power t next _ _ _ left right _ before _ hnext _ ihright ihchain =>
    obtain ⟨front, rfl, hright⟩ := ihright
    obtain ⟨behind, rfl, he⟩ := ihchain
    refine ⟨front ++ next :: behind, by simp, fun closed vs _ hvs => ?_⟩
    obtain ⟨hmark, hcomparison⟩ :=
      markOf_of_isComparison hnext (closesAfter closed (front.map Token.word))
    rw [List.map_append, marks_append, List.map_cons, marks, hmark, ← List.append_assoc,
      ← List.append_assoc]
    refine he _ _ of_not_constant ?_
    rw [Goal.marks, marks_conjoin before power]
    exact (hvs.append (hright closed [] of_not_constant .nil)).append (.chain hcomparison)
  | @field t property _ _ value _ hdot hproperty _ ihfields =>
    obtain ⟨behind, rfl, he⟩ := ihfields
    refine ⟨t :: property :: behind, rfl, fun closed vs hclosed hvs => ?_⟩
    have hdotted : marks closed ((t :: property :: behind).map Token.word) =
        (".", closed) :: markOf property.word false ++
          marks (closes property.word) (behind.map Token.word) := by
      rw [List.map_cons, List.map_cons, marks, marks, Token.is_iff_word.mp hdot]
      rfl
    rw [hdotted, ← List.append_assoc]
    exact he _ _ of_not_constant
      (hvs.append (.cons ⟨rfl, hclosed⟩ (agrees_markOf (keptOf?_word hproperty) false)))
  | noField _ =>
    refine ⟨[], rfl, fun closed vs _ hvs => ?_⟩
    rw [List.map_nil, marks, List.append_nil]
    exact hvs

/-! ### Clashes -/

/-- The marks of a tree that are not those of words. -/
inductive Clashes : List Mark → List Mark → Prop where
  | here {v w : Mark} {vs ws : List Mark} (h : ¬ Admits v w) (hchain : v.1 ≠ "&&") :
      Clashes (v :: vs) (w :: ws)
  | behind {v w : Mark} {vs ws : List Mark} (h : v.1 = w.1) (hrest : Clashes vs ws) :
      Clashes (v :: vs) (w :: ws)

theorem Clashes.not_agrees {vs ws : List Mark} (h : Clashes vs ws) : ¬ Agrees vs ws := by
  induction h with
  | here hadmits hchain =>
    intro hagrees
    cases hagrees with
    | cons h => exact hadmits h
    | chain => exact hchain rfl
  | behind hkept _ ih =>
    intro hagrees
    cases hagrees with
    | cons _ hrest => exact ih hrest
    | chain hcomparison =>
      rw [← hkept] at hcomparison
      exact absurd hcomparison (by decide)

theorem Clashes.append {vs ws : List Mark} (h : Clashes vs ws) (vs' ws' : List Mark) :
    Clashes (vs ++ vs') (ws ++ ws') := by
  induction h with
  | here hadmits hchain => exact .here hadmits hchain
  | behind hkept _ ih => exact .behind hkept ih

theorem Clashes.prepend {us us' vs ws : List Mark} (hkept : us.map Prod.fst = us'.map Prod.fst)
    (h : Clashes vs ws) : Clashes (us ++ vs) (us' ++ ws) := by
  induction us generalizing us' with
  | nil =>
    obtain rfl := List.map_eq_nil_iff.mp hkept.symm
    exact h
  | cons u us ih =>
    obtain ⟨u', vs', rfl, hu, hus⟩ := List.map_eq_cons_iff.mp hkept.symm
    exact .behind hu.symm (ih hus.symm)

end FilterLang
