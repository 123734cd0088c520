import FilterLang.Proofs.Grammar.Lookahead
import FilterLang.Proofs.Pipelines
import FilterLang.Proofs.Printing.Marks

/-!
# Where a dot is lost

Where a dot of the text of a tree is not read as that, the words of the text go another way than the
words of any tree that has a text of its own.

* `Place`, `Place.run` — a machine that follows the words of a text.  It goes along with the words
  of every printable tree: `run_words`.
* `Stumbles` — some words at the start of a text lead the machine nowhere, and they keep something
  else than the tree does.
* `stumbles_print` — the text of a tree that loses a dot stumbles.
* `not_stumbles_of_printable` — the text of a printable tree does not.
* `not_stumbles_of_readTree` — the text that a tree is read from does not.
-/

namespace FilterLang

open Scanner

/-! ### Places -/

/-- Where the words of a text may stand: in front of an operand, behind one, or behind a dot. -/
inductive Place where
  | operand
  | closed (constant : Bool)
  | dot

namespace Place

/-- The place behind a word, if the word can stand here.  Behind an operand there is a space, a
bracket, the end, or a dot, and behind a constant no dot. -/
def next : Place → Word → Option Place
  | operand, (.identifier, name) => some (closed (name ∈ ["true", "false", "nil"]))
  | operand, (.number, _) | operand, (.string, _) => some (closed false)
  | operand, (.operator, _) | operand, (.bracket, _) | operand, (.whitespace, _) => some operand
  | closed _, (.whitespace, _) => some operand
  | closed _, (.bracket, _) | closed _, (.eof, _) => some (closed false)
  | closed constant, (.operator, name) => if name = "." ∧ constant = false then some dot else none
  | dot, (.identifier, _) | dot, (.operator, _) => some (closed false)
  | _, _ => none

/-- The place behind some words. -/
def run (place : Place) (ws : List Word) : Option Place := ws.foldlM next place

theorem run_append (place : Place) (ws vs : List Word) :
    place.run (ws ++ vs) = (place.run ws).bind fun behind => behind.run vs :=
  List.foldlM_append

theorem run_cons (place : Place) (w : Word) (ws : List Word) :
    place.run (w :: ws) = (place.next w).bind fun behind => behind.run ws :=
  rfl

variable {p q : Place} {ws vs : List Word} {constant : Bool}

theorem run_append_of (h : p.run ws = some q) (vs : List Word) : p.run (ws ++ vs) = q.run vs := by
  rw [run_append, h, Option.bind_some]

/-- Behind a bracket there is no constant. -/
theorem run_bracketWords (h : operand.run ws = some (closed constant)) (due : Bool) :
    operand.run (Expr.bracketWords due ws) = some (closed (!due && constant)) := by
  cases due with
  | false => exact h
  | true =>
    rw [Expr.bracketWords, if_pos rfl]
    exact run_append_of h _

theorem run_prefixWords (operator : String) :
    operand.run (Expr.prefixWords [space] operator) = some operand := by
  rw [Expr.prefixWords]
  split_ifs
  · rfl
  · rfl

/-- Behind a binary operator there is an operand. -/
theorem run_left {symbol : List Word} (hws : operand.run ws = some (closed constant))
    (hsymbol : operand.run symbol = some operand) (due : Bool) :
    operand.run (Expr.bracketWords due ws ++ ([space] ++ (symbol ++ [space]))) = some operand := by
  rw [run_append_of (run_bracketWords hws due), run_append_of (q := operand) rfl,
    run_append_of hsymbol]
  rfl

theorem run_binaryWords {symbol : List Word} (hsymbol : operand.run symbol = some operand)
    {rightConstant : Bool} (hws : operand.run ws = some (closed constant))
    (hvs : operand.run vs = some (closed rightConstant)) (operator : String) (left right : Expr) :
    ∃ behind, operand.run (Expr.binaryWords [space] symbol operator left right ws vs) =
      some (closed behind) := by
  have hleft := run_left hws hsymbol (left.binding.needsBracketsLeftOf operator)
  have hright := run_bracketWords hvs (right.binding.needsBracketsRightOf operator)
  have hall := (run_append_of hleft _).trans hright
  simp only [List.append_assoc] at hall
  exact ⟨_, hall⟩

/-- Behind a dot there is the name of a field. -/
theorem run_field (name : String) :
    (closed false).run [(.operator, "."), (Expr.kindOfName name, name)] = some (closed false) := by
  rcases Expr.kindOfName_cases name with h | h
  · rw [h]
    rfl
  · rw [h]
    rfl

end Place

open Place

/-- An object, in the brackets that it needs in front of a dot. -/
theorem run_object {object : Expr} {constant : Bool}
    (h : operand.run (object.words [space]) = some (closed constant))
    (hconstant : object.needsBracketsBeforeDot = false → constant = object.isConstant) :
    operand.run (Expr.bracketWords object.needsBracketsBeforeDot (object.words [space])) =
      some (closed object.isConstant) := by
  rw [run_bracketWords h]
  cases hdue : object.needsBracketsBeforeDot with
  | false => rw [hconstant hdue, Bool.not_false, Bool.true_and]
  | true =>
    cases object with
    | bool | nil => cases hdue
    | _ => rfl

/-- **The machine goes along with the words of a printable tree.** -/
theorem run_words {t : Expr} (h : t.Printable) : ∃ constant,
    operand.run (t.words [space]) = some (closed constant) ∧
      (t.needsBracketsBeforeDot = false → constant = t.isConstant) := by
  refine Expr.Printable.induction
    (motive := fun t => ∃ constant, operand.run (t.words [space]) = some (closed constant) ∧
      (t.needsBracketsBeforeDot = false → constant = t.isConstant))
    ?negation ?unary ?binary ?member ?string ?integer ?bool ?nil ?identifier t h
  case negation =>
    intro note inner relation left right hrelation _ _ ⟨_, hleft, _⟩ ⟨_, hright, _⟩
    have hsymbol : operand.run [(.operator, "not"), space, (.operator, relation)] = some operand :=
      rfl
    obtain ⟨behind, hbehind⟩ := run_binaryWords hsymbol hleft hright relation left right
    rw [Expr.words_negation hrelation]
    exact ⟨behind, hbehind, nofun⟩
  case unary =>
    intro note operator inner _ hplain _ ⟨_, hinner, _⟩
    rw [Expr.words_of_plain hplain, run_append_of (run_prefixWords operator)]
    exact ⟨_, run_bracketWords hinner _, nofun⟩
  case binary =>
    intro note operator left right _ _ _ ⟨_, hleft, _⟩ ⟨_, hright, _⟩
    have hsymbol : operand.run [(.operator, operator)] = some operand := rfl
    obtain ⟨behind, hbehind⟩ := run_binaryWords hsymbol hleft hright operator left right
    exact ⟨behind, hbehind, nofun⟩
  case member =>
    intro note object inner name _ hconstant _ _ ⟨constant, hobject, hbehind⟩
    have hshut := run_object hobject hbehind
    rw [hconstant] at hshut
    refine ⟨false, ?_, fun _ => rfl⟩
    rw [Expr.words, run_append_of hshut]
    exact run_field name
  case string => exact fun _ _ => ⟨false, rfl, fun _ => rfl⟩
  case integer => exact fun _ _ _ => ⟨false, rfl, fun _ => rfl⟩
  case bool => exact fun _ value => ⟨true, by cases value <;> rfl, fun _ => rfl⟩
  case nil => exact fun _ => ⟨true, rfl, fun _ => rfl⟩
  case identifier =>
    intro note name hname hkeyword
    have hsub : ∀ word ∈ ["true", "false", "nil"], word ∈ keywords := by decide
    have hconstant : name ∉ ["true", "false", "nil"] := fun hmem => hkeyword (hsub name hmem)
    refine ⟨false, ?_, fun _ => rfl⟩
    rw [Expr.words, Expr.kindOfName_of_isWord hname, Expr.kindOfWord_of_notMem hkeyword]
    show some (closed (decide _)) = _
    rw [decide_eq_false hconstant]

/-! ### Texts that lose a dot -/

/-- From here the words lead nowhere: one of them cannot stand where it does, or the text ends
behind a dot. -/
def Place.Astray (place : Place) (ws : List Word) (back : List Char) : Prop :=
  place.run ws = none ∨ back = [] ∧ place.run ws = some .dot

theorem Place.Astray.prepend {p q : Place} {ws vs : List Word} {back : List Char}
    (h : q.Astray vs back) (hws : p.run ws = some q) : p.Astray (ws ++ vs) back := by
  rwa [Astray, run_append_of hws]

/-- From here a text leads nowhere. -/
def Place.Lost (place : Place) (text : List Char) : Prop :=
  ∃ front back ws, text = front ++ back ∧ Takes front ws back ∧ place.Astray ws back

/-- **A text stumbles.**  Words at its start lead nowhere from this place, and they keep something
else than a tree with these marks. -/
def Stumbles (place : Place) (text rest : List Char) (ms : List Mark) : Prop :=
  ∃ front back ws, text ++ rest = front ++ back ∧ Takes front ws back ∧ place.Astray ws back ∧
    ∀ closed, Clashes ms (marks closed (solidWords ws))

variable {place : Place} {text rest : List Char} {ms : List Mark} {name : String}

/-- It does not matter what is behind the place where a text stumbles. -/
theorem Stumbles.append {behind : List Char} (h : Stumbles place text (behind ++ rest) ms)
    (ms' : List Mark) : Stumbles place (text ++ behind) rest (ms ++ ms') := by
  obtain ⟨front, back, ws, htext, htakes, hastray, hclashes⟩ := h
  refine ⟨front, back, ws, by rw [List.append_assoc, htext], htakes, hastray, fun closed => ?_⟩
  have happend := (hclashes closed).append ms' []
  rwa [List.append_nil] at happend

/-- Words in front of a text that stumbles, if they keep what the tree does. -/
theorem Stumbles.prepend {q : Place} {ahead : List Char} {ws : List Word}
    (h : Stumbles q text rest ms) (htakes : Takes ahead ws (text ++ rest))
    (hrun : place.run ws = some q) {ms' : List Mark}
    (hkept : (solidWords ws).filterMap keptOf? = ms'.map Prod.fst) :
    Stumbles place (ahead ++ text) rest (ms' ++ ms) := by
  obtain ⟨front, back, vs, htext, hfront, hastray, hclashes⟩ := h
  rw [htext] at htakes
  refine ⟨ahead ++ front, back, ws ++ vs, ?_, htakes.append hfront, hastray.prepend hrun,
    fun closed => ?_⟩
  · rw [List.append_assoc, htext, List.append_assoc]
  · rw [Expr.solidWords_append, marks_append]
    exact (hclashes _).prepend (by rw [map_fst_marks, hkept])

/-- A text that stumbles, in brackets where they are due. -/
theorem stumbles_bracket {text : String} (due : Bool)
    (h : ∀ rest, MayFollow true rest → Stumbles operand text.toList rest ms)
    (hrest : due = false → MayFollow true rest) :
    Stumbles operand (Expr.bracket due text).toList rest ms := by
  cases due with
  | false => exact h rest (hrest rfl)
  | true =>
    have hopen : ∀ rest, Takes ['('] [(.bracket, "(")] rest := takes_sign fun _ => rfl
    have hinside : Stumbles operand (text.toList ++ [')']) rest (ms ++ []) :=
      (h _ (mayFollow_bracket true rest)).append []
    have hall : Stumbles operand (['('] ++ (text.toList ++ [')'])) rest ([] ++ (ms ++ [])) :=
      hinside.prepend (hopen _) rfl rfl
    simp only [Expr.bracket, if_pos, toList_append, List.append_assoc]
    rwa [List.nil_append, List.append_nil] at hall

/-! ### The three ways to lose a dot -/

/-- A dot in front of a name that consists of dots belongs to them. -/
theorem stumbles_dots (hname : name = "." ∨ name = "..") (constant due : Bool) :
    Stumbles (closed constant) ('.' :: name.toList) rest ((".", due) :: ms) := by
  have htakes : ∀ back, Takes ['.', '.'] [(.operator, "..")] back := takes_dots
  obtain ⟨back, htext⟩ : ∃ back, '.' :: name.toList ++ rest = ['.', '.'] ++ back := by
    rcases hname with rfl | rfl
    · exact ⟨rest, rfl⟩
    · exact ⟨'.' :: rest, rfl⟩
  have hjoined : "." ≠ ".." := by decide
  have hdot : "." ≠ "&&" := by decide
  exact ⟨_, back, _, htext, htakes back, .inl rfl, fun closed => .here (hjoined ·.1) hdot⟩

/-- A dot has to be in front of a name. -/
theorem lost_dot (hrest : MayFollow true rest) : (closed false).Lost ('.' :: rest) := by
  cases rest with
  | nil => exact ⟨['.'], [], _, rfl, takes_dot nofun, .inr ⟨rfl, rfl⟩⟩
  | cons c ds =>
    rcases hrest c ds rfl with rfl | rfl | ⟨rfl, -⟩
    · obtain ⟨value, front, back, htext, hblanks⟩ := exists_takes_blanks (c := ' ') rfl ds
      have hdot : Takes ['.'] [(.operator, ".")] (front ++ back) := by
        rw [← htext]
        exact takes_dot (by rintro d es ⟨⟩; decide)
      exact ⟨_, back, _, by rw [htext]; rfl, hdot.append hblanks, .inl rfl⟩
    · have hdot : Takes ['.'] [(.operator, ".")] ([')'] ++ ds) :=
        takes_dot (by rintro d es ⟨⟩; decide)
      exact ⟨_, ds, _, rfl, hdot.append (takes_sign (fun _ => rfl) ds), .inl rfl⟩
    · exact ⟨_, ds, _, rfl, takes_dots ds, .inl rfl⟩

/-- No name may be behind an operand. -/
theorem lost_name (hname : IsWord name.toList ∨ IsSign name.toList)
    (hrest : MayFollow true rest) : (closed false).Lost (name.toList ++ rest) := by
  by_cases hdot : name = "."
  · subst hdot
    exact lost_dot hrest
  by_cases hdots : name = ".."
  · subst hdots
    exact ⟨_, rest, _, rfl, takes_dots rest, .inl rfl⟩
  by_cases hmark : name = "?" ∧ ∃ ds, rest = '.' :: ds
  · obtain ⟨rfl, ds, rfl⟩ := hmark
    exact ⟨['?', '.'], ds, _, rfl, takes_marks (.inl rfl) ds, .inl rfl⟩
  · have hends : MayFollow (name != "?") rest := by
      intro c ds hcons
      refine (hrest c ds hcons).imp_right (.imp_right fun ⟨hc, _⟩ => ⟨hc, ?_⟩)
      exact bne_iff_ne.mpr fun hname => hmark ⟨hname, ds, hc ▸ hcons⟩
    refine ⟨_, rest, _, rfl, takes_name ⟨hname, hdot, hdots⟩ hends, .inl ?_⟩
    have hnext : (closed false).next (Expr.kindOfName name, name) = none := by
      rcases Expr.kindOfName_cases name with h | h
      · rw [h]
        rfl
      · rw [h, next, if_neg fun hname => hdot hname.1]
    rw [run_cons, hnext]
    rfl

/-- A question mark takes the dot behind it along, and so no dot is in front of the next name. -/
theorem stumbles_mark (hname : IsWord name.toList ∨ IsSign name.toList)
    (hrest : MayFollow true rest) (due due' : Bool) :
    Stumbles (closed false) ('.' :: '?' :: '.' :: name.toList) rest
      ((".", due) :: ("?", due') :: ms) := by
  obtain ⟨front, back, ws, htext, htakes, hastray⟩ := lost_name hname hrest
  have hdot : Takes ['.'] [(.operator, ".")] ((['?', '.'] ++ front) ++ back) :=
    takes_dot (by rintro d ds ⟨⟩; decide)
  have hmark : Takes ['?', '.'] [(.operator, "?.")] (front ++ back) := takes_marks (.inl rfl) _
  have hjoined : "?" ≠ "?." := by decide
  have hquestion : "?" ≠ "&&" := by decide
  have hrun : (closed false).run [(.operator, "."), (.operator, "?.")] = some (closed false) := rfl
  refine ⟨_, back, _, ?_, hdot.append (hmark.append htakes), hastray.prepend hrun, fun closed => ?_⟩
  · rw [List.cons_append, List.cons_append, List.cons_append, htext]
    rfl
  · exact .behind rfl (.here (hjoined ·.1) hquestion)

/-- An object in the brackets that it needs in front of a dot, and what stumbles behind it. -/
theorem Stumbles.behind_object {object : Expr} (hobject : object.Printable)
    (hmark : object.endsInMark = false)
    (h : Stumbles (closed object.isConstant) ('.' :: text) rest ms) :
    Stumbles operand
      ((Expr.bracket object.needsBracketsBeforeDot object.print).toList ++ '.' :: text) rest
      (object.marks ++ ms) := by
  obtain ⟨_, hwords, hconstant⟩ := run_words hobject
  exact h.prepend (takes_object hmark (takes_print hobject) (text ++ rest))
    (run_object hwords hconstant) (Expr.filterMap_within object _)

/-- Behind a constant no dot is in its place. -/
theorem stumbles_behind_constant {object : Expr} (hobject : object.Printable)
    (hconstant : object.isConstant = true) (hname : IsWord name.toList ∨ IsSign name.toList) :
    Stumbles operand
      ((Expr.bracket object.needsBracketsBeforeDot object.print).toList ++ '.' :: name.toList) rest
      (object.marks ++ ((".", true) :: ms)) := by
  -- no bracket is closed behind the constant
  have hopen : object.endsInMark = false ∧ ∀ closed, closesAfter closed (solidWords
      (Expr.bracketWords object.needsBracketsBeforeDot (object.words [space]))) = false := by
    cases object with
    | bool | nil => exact ⟨rfl, fun _ => rfl⟩
    | _ => cases hconstant
  obtain ⟨hmark, hopen⟩ := hopen
  by_cases hdots : name = "." ∨ name = ".."
  · exact (stumbles_dots hdots _ _).behind_object hobject hmark
  · obtain ⟨hdot, hdots⟩ := not_or.mp hdots
    obtain ⟨_, hwords, hbehind⟩ := run_words hobject
    have hrun := run_object hwords hbehind
    rw [hconstant] at hrun
    have htakes := (takes_object hmark (takes_print hobject) (name.toList ++ rest)).append
      (takes_dot_name ⟨hname, hdot, hdots⟩ rest)
    refine ⟨_, name.toList ++ rest, _, ?_, htakes, .inl ?_, fun closed => ?_⟩
    · simp only [List.append_assoc]
      rfl
    · rw [run_append_of hrun]
      rfl
    · have hsign : "." ≠ "&&" := by decide
      rw [Expr.solidWords_append, marks_append, hopen]
      exact Clashes.prepend (by rw [map_fst_marks, Expr.filterMap_within])
        (.here (fun h => nomatch h.2 rfl) hsign)

/-- A field of a field that is called `?`. -/
theorem stumbles_behind_mark {object : Expr} (hobject : object.Printable)
    (hmark : object.endsInMark = true) (hname : IsWord name.toList ∨ IsSign name.toList)
    (hrest : MayFollow true rest) (due : Bool) :
    Stumbles operand
      ((Expr.bracket object.needsBracketsBeforeDot object.print).toList ++ '.' :: name.toList) rest
      (object.marks ++ ((".", due) :: ms)) := by
  cases object with
  | member note inner property method =>
    cases property with
    | identifier place sign =>
      obtain rfl : sign = "?" := eq_of_beq hmark
      obtain rfl : method = false := by
        cases method with
        | false => rfl
        | true => exact hobject.legible.elim
      obtain ⟨hinner, hconstant, hinnerMark, -⟩ := hobject.of_member
      have hbehind : Stumbles (closed inner.isConstant) ('.' :: '?' :: '.' :: name.toList) rest
          ((".", inner.isConstant) :: ("?", false) :: (".", due) :: ms) := by
        rw [hconstant]
        exact stumbles_mark hname hrest _ _
      have hall := hbehind.behind_object hinner hinnerMark
      have htext : (Expr.member note inner (.identifier place "?") false).print.toList =
          (Expr.bracket inner.needsBracketsBeforeDot inner.print).toList ++ ['.', '?'] := by
        have hsign : ".".toList ++ "?".toList = ['.', '?'] := by decide
        rw [Expr.print, toList_append, toList_append, List.append_assoc, Expr.print, hsign]
      have hmarks : (Expr.member note inner (.identifier place "?") false).marks =
          inner.marks ++ [(".", inner.isConstant), ("?", false)] := rfl
      rw [hmarks, List.append_assoc]
      show Stumbles operand ((Expr.member note inner (.identifier place "?") false).print.toList ++
        '.' :: name.toList) rest _
      rw [htext, List.append_assoc]
      exact hall
    | _ => cases hmark
  | _ => cases hmark

/-- A field whose dot is lost, of an object that keeps its own. -/
theorem stumbles_field {object : Expr} (hobject : object.Printable)
    (hname : IsWord name.toList ∨ IsSign name.toList)
    (hdots : object.isConstant = true ∨ object.endsInMark = true ∨ name = "." ∨ name = "..")
    (hrest : MayFollow true rest) :
    Stumbles operand
      ((Expr.bracket object.needsBracketsBeforeDot object.print).toList ++ '.' :: name.toList) rest
      (object.marks ++ ((".", object.isConstant) :: ms)) := by
  cases hmark : object.endsInMark with
  | true => exact stumbles_behind_mark hobject hmark hname hrest _
  | false =>
    cases hconstant : object.isConstant with
    | true => exact stumbles_behind_constant hobject hconstant hname
    | false =>
      rw [hmark, hconstant] at hdots
      have hjoined : name = "." ∨ name = ".." := by simpa using hdots
      exact (stumbles_dots hjoined _ _).behind_object hobject hmark

/-! ### Every tree that loses a dot -/

/-- A binary operator and its operands, one of which stumbles. -/
theorem Symbol.stumbles {symbol operator : String} {symbolWords : List Word} {left right : Expr}
    (h : Symbol symbol symbolWords) (hrun : operand.run symbolWords = some operand)
    (hkept : (solidWords symbolWords).filterMap keptOf? = (keptOf? (.operator, operator)).toList)
    (hleft : left.Legible) (hright : right.Legible)
    (ihleft : left.keepsDots = false → ∀ rest, MayFollow true rest →
      Stumbles operand left.print.toList rest left.marks)
    (ihright : right.keepsDots = false → ∀ rest, MayFollow true rest →
      Stumbles operand right.print.toList rest right.marks)
    (hdots : (left.keepsDots && right.keepsDots) = false) (hrest : MayFollow true rest) :
    Stumbles operand (Expr.printBinary symbol operator left right left.print right.print).toList
      rest (left.marks ++ (markOf (.operator, operator) false ++ right.marks)) := by
  rw [toList_printBinary]
  cases hl : left.keepsDots with
  | false =>
    rw [List.append_assoc]
    exact (stumbles_bracket _ (ihleft hl) fun _ => mayFollow_space true _).append _
  | true =>
    rw [hl, Bool.true_and] at hdots
    obtain ⟨_, hwords, -⟩ := run_words ⟨hleft, hl⟩
    have hbehind := stumbles_bracket (right.binding.needsBracketsRightOf operator) (ihright hdots)
      fun _ => hrest
    have hstarts := (starts_bracket (starts_print hright)
      (right.binding.needsBracketsRightOf operator)).append rest
    have htakes := h.left (left.binding.needsBracketsLeftOf operator) (takes_print ⟨hleft, hl⟩)
      hstarts
    rw [← List.append_assoc left.marks]
    refine hbehind.prepend htakes (run_left hwords hrun _) ?_
    have hspace : solidWords [space] = [] := rfl
    simp only [Expr.solidWords_append, List.filterMap_append, Expr.filterMap_within, hspace, hkept,
      List.map_append, map_fst_markOf, List.nil_append, List.append_nil]

/-- **The text of a tree that loses a dot stumbles.** -/
theorem stumbles_print {t : Expr} (h : t.Legible) (hdots : t.keepsDots = false) :
    ∀ rest, MayFollow true rest → Stumbles operand t.print.toList rest t.marks := by
  refine Expr.Legible.induction
    (motive := fun t => t.keepsDots = false → ∀ rest, MayFollow true rest →
      Stumbles operand t.print.toList rest t.marks)
    ?negation ?unary ?binary ?member nofun nofun nofun nofun nofun t h hdots
  case negation =>
    intro note inner relation left right hrelation hleft hright ihleft ihright hdots rest hrest
    rw [Expr.print_negation hrelation]
    exact (symbol_negation hrelation).stumbles rfl (Expr.filterMap_singleton _) hleft hright ihleft
      ihright hdots hrest
  case unary =>
    intro note operator inner hoperator hplain hinner ih hdots rest hrest
    have hbehind := stumbles_bracket (inner.binding.needsBracketsBehind operator) (ih hdots)
      fun _ => hrest
    have hstarts := (starts_bracket (starts_print hinner)
      (inner.binding.needsBracketsBehind operator)).append rest
    rw [Expr.print_of_plain hplain, toList_append]
    refine hbehind.prepend (takes_printPrefix hoperator hstarts) (run_prefixWords operator) ?_
    rw [Expr.solidWords_prefixWords, Expr.prefixWords_nil, Expr.filterMap_singleton, map_fst_markOf]
  case binary =>
    intro note operator left right hoperator hleft hright ihleft ihright hdots rest hrest
    exact (symbol_operator hoperator).stumbles rfl (Expr.filterMap_singleton _) hleft hright ihleft
      ihright hdots hrest
  case member =>
    intro note object inner name hobject hname ih hdots rest hrest
    rw [Expr.print, toList_append, toList_append, List.append_assoc]
    cases hkeeps : object.keepsDots with
    | false =>
      refine (stumbles_bracket _ (ih hkeeps) fun _ c ds hcons => ?_).append _
      cases hcons
      exact .inr (.inr ⟨rfl, rfl⟩)
    | true =>
      refine stumbles_field ⟨hobject, hkeeps⟩ hname ?_ hrest
      simp only [Expr.keepsDots, Expr.isDots, hkeeps, Bool.true_and, Bool.and_eq_false_iff,
        Bool.not_eq_false', Bool.or_eq_true, beq_iff_eq, or_assoc] at hdots
      exact hdots

/-! ### No text that is read stumbles over itself -/

/-- **The text of a printable tree does not stumble.** -/
theorem not_stumbles_of_printable {t : Expr} (h : t.Printable) (ms : List Mark) :
    ¬ Stumbles operand t.print.toList [] ms := by
  rintro ⟨front, back, ws, htext, htakes, hastray, -⟩
  rw [List.append_nil] at htext
  obtain ⟨constant, hrun, -⟩ := run_words h
  obtain ⟨-, before, last, htokens, hwords, hlast⟩ := scan_of_takes (takes_print h [] nofun)
  rcases hastray with hnone | ⟨rfl, hdot⟩
  · obtain ⟨more, hmore⟩ := exists_tokens_of_takes htakes htext
    have hend : operand.run ((scan t.print).tokens.map Token.word) = some (closed false) := by
      rw [htokens, List.map_append, hwords, run_append_of hrun, List.map_singleton, Token.word,
        hlast]
      rfl
    rw [hmore, run_append, hnone] at hend
    cases hend
  · rw [List.append_nil] at htext
    obtain ⟨-, before', last', htokens', hwords', -⟩ := scan_of_takes (htext ▸ htakes)
    obtain ⟨rfl, -⟩ := List.append_inj' (htokens.symm.trans htokens') rfl
    rw [← hwords', hwords, hrun] at hdot
    cases hdot

/-- Only the last token of a text ends it. -/
theorem scan_noEnd (source : String) : ∃ front last, (scan source).tokens = front ++ [last] ∧
    Grammar.NoEnd front ∧ last.kind = .eof := by
  have hstable : Stable fun s => Grammar.NoEnd s.tokens := {
    read := fun h _ => h
    noteAt := fun h _ _ => h
    emitValue := fun h _ hkind _ => h.cons_of_kind rfl hkind
    skip := fun _ h _ => h }
  obtain ⟨front, last, htokens, hlast⟩ := scan_ends source
  obtain ⟨t, hnoEnd, -, -, hend⟩ := hstable.whole (Grammar.noEnd_nil : Grammar.NoEnd [])
  have hreverse : (scan source).tokens.reverse = (t.emit .eof).tokens := by
    rw [scan, scanChars_eq, hend]
    exact List.reverse_reverse _
  rw [htokens, List.reverse_append] at hreverse
  injection hreverse with _ hfront
  exact ⟨front, last, htokens, fun u hu => hnoEnd u (hfront ▸ List.mem_reverse.mpr hu), hlast⟩

/-- **What is read of a text goes up to its end**, if there is no fault. -/
theorem reads_of_readTree {source : String} {e : Expr} (h : readTree source = .ok e) :
    ∃ front close, solid (scan source).tokens = front ++ [close] ∧ Grammar.NoEnd front ∧
      close.kind = .eof ∧ Grammar.Reads (.expression 0) (front ++ [close]) e [close] := by
  obtain ⟨-, hparse⟩ := readTree_eq_ok_iff.mp h
  obtain ⟨tree, last, us, htree, hreads, hlast⟩ :=
    reads_of_parse (terminates_scan source) (by rw [hparse])
  rw [hparse] at htree
  cases htree
  obtain ⟨front, close, htokens, hfront, hclose⟩ := scan_noEnd source
  have hsolid : solid (scan source).tokens = solid front ++ [close] := by
    rw [htokens, solid_append_end (.inl hclose)]
  -- the first end of the text is the last of its tokens
  obtain ⟨read, hread, hnoEnd, -⟩ := hreads.replace
  obtain ⟨-, rfl, rfl⟩ :=
    Grammar.eq_of_noEnd (hsolid.symm.trans hread) hfront.solid (.inl hclose) hnoEnd hlast
  rw [hsolid] at hreads
  exact ⟨_, _, hsolid, hfront.solid, hclose, hreads⟩

/-- The tree of a text agrees with its words. -/
theorem agrees_of_readTree {source : String} {e : Expr} (h : readTree source = .ok e) :
    Agrees e.marks (marks false (solidWords ((scan source).tokens.map Token.word))) := by
  obtain ⟨front, close, hsolid, -, hclose, hreads⟩ := reads_of_readTree h
  obtain ⟨read, hread, hagrees⟩ := agrees_of_reads hreads
  obtain rfl := List.append_cancel_right hread
  have hend : ∀ closed, marks closed [close.word] = [] := by
    rw [Token.word, hclose]
    exact fun _ => rfl
  have hall := hagrees false [] of_not_constant .nil
  rw [← map_word_solid, hsolid, List.map_append, marks_append, List.map_singleton, hend,
    List.append_nil]
  exact hall

/-- **The text that a tree is read from does not stumble.** -/
theorem not_stumbles_of_readTree {source : String} {e : Expr} (h : readTree source = .ok e) :
    ¬ Stumbles operand source.toList [] e.marks := by
  rintro ⟨front, back, ws, htext, htakes, -, hclashes⟩
  rw [List.append_nil] at htext
  obtain ⟨more, hmore⟩ := exists_tokens_of_takes htakes htext
  have hagrees := agrees_of_readTree h
  rw [hmore, Expr.solidWords_append, marks_append] at hagrees
  rw [← List.append_nil e.marks] at hagrees
  exact ((hclashes false).append _ _).not_agrees hagrees

end FilterLang
