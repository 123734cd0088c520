import FilterLang.Proofs.Printing.Canonical

/-!
# Operands and their brackets in a text

* `Piece` — a part of a text, with its words.
* `Joint` — a tree whose text is two operands with an operator between them.
* `Slot` — a place for an operand in the text of a tree: what is in front of it and behind it, and
  whether it is in brackets there.
* `Pair` — a pair of brackets around an operand, anywhere in a text.
* `Pair.piece` — the text of the tree, cut at the pair.
* `Pair.taken_before`, `Pair.taken_after` — what is around the pair is cut into its words, with the
  operand in brackets or without them.
-/

namespace FilterLang

open Scanner

/-! ### Pieces -/

/-- A part of a text, with its words. -/
@[ext]
structure Piece where
  text : String
  words : List Word

namespace Piece

instance : Append Piece := ⟨fun p q => ⟨p.text ++ q.text, p.words ++ q.words⟩⟩

/-- No text. -/
def empty : Piece := ⟨"", []⟩

/-- The space on either side of an operator. -/
def gap : Piece := ⟨" ", [space]⟩

/-- The text of a tree. -/
def ofTree (t : Expr) : Piece := ⟨t.print, t.words [space]⟩

/-- The opening bracket, where brackets are due. -/
def opened (due : Bool) : Piece := if due then ⟨"(", [(.bracket, "(")]⟩ else empty

/-- The closing bracket, where brackets are due. -/
def closed (due : Bool) : Piece := if due then ⟨")", [(.bracket, ")")]⟩ else empty

/-- A piece in brackets, where they are due. -/
def bracket (due : Bool) (p : Piece) : Piece :=
  ⟨Expr.bracket due p.text, Expr.bracketWords due p.words⟩

/-- The name of a field, behind its dot. -/
def field (name : String) : Piece := ⟨"." ++ name, [(.operator, "."), (Expr.kindOfName name, name)]⟩

variable {p q r : Piece} {rest : List Char}

@[simp] theorem text_append : (p ++ q).text = p.text ++ q.text := rfl

@[simp] theorem words_append : (p ++ q).words = p.words ++ q.words := rfl

theorem append_assoc (p q r : Piece) : p ++ q ++ r = p ++ (q ++ r) :=
  Piece.ext (String.append_assoc ..) (List.append_assoc ..)

@[simp] theorem empty_append (p : Piece) : empty ++ p = p := Piece.ext String.empty_append rfl

@[simp] theorem append_empty (p : Piece) : p ++ empty = p :=
  Piece.ext String.append_empty (List.append_nil _)

theorem bracket_eq (due : Bool) (p : Piece) : bracket due p = opened due ++ (p ++ closed due) := by
  cases due with
  | false => exact ((empty_append _).trans (append_empty p)).symm
  | true => exact Piece.ext (String.append_assoc ..) rfl

/-- The text of a piece is cut into its words, in front of that rest. -/
def Taken (p : Piece) (rest : List Char) : Prop := Takes p.text.toList p.words rest

theorem taken_empty (rest : List Char) : empty.Taken rest :=
  fun s hlexeme hrest => ⟨s, rfl, hlexeme, hrest, rfl, rfl⟩

theorem Taken.append (h : p.Taken (q.text.toList ++ rest)) (h' : q.Taken rest) :
    (p ++ q).Taken rest := by
  rw [Taken, text_append, toList_append]
  exact Takes.append h h'

theorem taken_opened (due : Bool) (rest : List Char) : (opened due).Taken rest := by
  cases due with
  | false => exact taken_empty rest
  | true => exact takes_sign (fun _ => rfl) rest

theorem taken_closed (due : Bool) (rest : List Char) : (closed due).Taken rest := by
  cases due with
  | false => exact taken_empty rest
  | true => exact takes_sign (fun _ => rfl) rest

theorem taken_field {name : String} (h : IsWord name.toList) (hrest : MayFollow true rest) :
    (field name).Taken rest := by
  have hname : Expr.IsFieldName name :=
    ⟨.inl h, Expr.ne_of_isWord h (by decide), Expr.ne_of_isWord h (by decide)⟩
  have hmark : name ≠ "?" := Expr.ne_of_isWord h (by decide)
  rw [Taken, field, toList_append]
  exact (takes_dot_name hname rest).append (takes_name hname (by rwa [bne_iff_ne.mpr hmark]))

/-- A field starts with a dot. -/
theorem mayFollow_field (name : String) (rest : List Char) :
    MayFollow true ((field name).text.toList ++ rest) := by
  intro c ds hcons
  rw [field, toList_append] at hcons
  cases hcons
  exact .inr (.inr ⟨rfl, rfl⟩)

end Piece

open Piece

/-! ### Joints -/

/-- The text of the tree is two operands with an operator between them, which may have a `not` in
front of it. -/
inductive Joint : Expr → Piece → String → Expr → Expr → Prop where
  | binary (note : Note) (operator : String) (left right : Expr) :
      Joint (.binary note operator left right) ⟨operator, [(.operator, operator)]⟩ operator left
        right
  | negation (note inner : Note) {relation : String} (left right : Expr)
      (h : Operator.isNegatable relation) :
      Joint (.unary note "not" (.binary inner relation left right))
        ⟨"not " ++ relation, [(.operator, "not"), space, (.operator, relation)]⟩ relation left right

/-- Whether the text of the tree is two operands with an operator between them. -/
def Expr.isJoint : Expr → Bool
  | .binary .. => true
  | .unary _ operator (.binary _ relation _ _) => negates operator relation
  | _ => false

namespace Joint

variable {t left right : Expr} {symbol : Piece} {operator : String}

theorem binding (h : Joint t symbol operator left right) :
    t.binding = .ofOperator operator := by
  cases h with
  | binary => rfl
  | negation _ _ _ _ h => exact Expr.binding_negation h ..

theorem bare (h : Joint t symbol operator left right) :
    Joint t.bare symbol operator left.bare right.bare := by
  cases h with
  | binary => exact .binary ..
  | negation _ _ _ _ h => exact .negation _ _ _ _ h

/-- A tree has one operator between its operands. -/
theorem unique {left' right' : Expr} {symbol' : Piece} {operator' : String}
    (h : Joint t symbol operator left right) (h' : Joint t symbol' operator' left' right') :
    symbol = symbol' ∧ operator = operator' ∧ left = left' ∧ right = right' := by
  cases h with
  | binary =>
    cases h'
    exact ⟨rfl, rfl, rfl, rfl⟩
  | negation =>
    cases h'
    exact ⟨rfl, rfl, rfl, rfl⟩

theorem needsBracketsBeforeDot (h : Joint t symbol operator left right) :
    t.needsBracketsBeforeDot = true := by
  cases h with
  | binary => rfl
  | negation => rfl

theorem takesDot (h : Joint t symbol operator left right) : t.takesDot = false := by
  rw [Expr.takesDot, h.needsBracketsBeforeDot]
  rfl

theorem wellFormed (h : Joint t symbol operator left right) (ht : t.WellFormed) :
    left.WellFormed ∧ right.WellFormed ∧ Symbol symbol.text symbol.words := by
  cases h with
  | binary => exact ⟨ht.2.1, ht.2.2, symbol_operator ht.1⟩
  | negation _ _ _ _ h => exact ⟨ht.2.2.1, ht.2.2.2, symbol_negation h⟩

/-- The text of such a tree. -/
theorem piece (h : Joint t symbol operator left right) :
    ofTree t = bracket (left.binding.needsBracketsLeftOf operator) (ofTree left) ++
      (gap ++ (symbol ++ (gap ++
        bracket (right.binding.needsBracketsRightOf operator) (ofTree right)))) := by
  cases h with
  | binary =>
    refine Piece.ext ?_ rfl
    simp only [ofTree, Expr.print, Expr.printBinary, bracket, gap, text_append, String.append_assoc]
  | negation note inner _ _ h =>
    refine Piece.ext ?_ (Expr.words_negation h _ note inner _ _)
    simp only [ofTree, Expr.print_negation h, Expr.printBinary, bracket, gap, text_append,
      String.append_assoc]

end Joint

theorem Expr.exists_joint {t : Expr} (h : t.isJoint = true) :
    ∃ symbol operator left right, Joint t symbol operator left right := by
  cases t with
  | binary note operator left right => exact ⟨_, _, _, _, .binary note operator left right⟩
  | unary note operator operand =>
    cases operand with
    | binary inner relation left right =>
      rw [isJoint, negates, Bool.and_eq_true, beq_iff_eq] at h
      obtain ⟨rfl, hrelation⟩ := h
      exact ⟨_, _, _, _, .negation note inner left right hrelation⟩
    | _ => cases h
  | _ => cases h

/-! ### Slots -/

/-- A place for an operand in the text of a tree: what is in front of it, whether it is in brackets
there, and what is behind it. -/
inductive Slot : Expr → Piece → Bool → Expr → Piece → Prop where
  | left {t left right : Expr} {symbol : Piece} {operator : String}
      (h : Joint t symbol operator left right) :
      Slot t empty (left.binding.needsBracketsLeftOf operator) left (gap ++ (symbol ++ (gap ++
        bracket (right.binding.needsBracketsRightOf operator) (ofTree right))))
  | right {t left right : Expr} {symbol : Piece} {operator : String}
      (h : Joint t symbol operator left right) :
      Slot t (bracket (left.binding.needsBracketsLeftOf operator) (ofTree left) ++
        (gap ++ (symbol ++ gap))) (right.binding.needsBracketsRightOf operator) right empty
  | prefixed (note : Note) {operator : String} {operand : Expr}
      (h : Expr.Plain operator operand) :
      Slot (.unary note operator operand)
        ⟨Expr.printPrefix operator, Expr.prefixWords [space] operator⟩
        (operand.binding.needsBracketsBehind operator) operand empty
  | object (note inner : Note) (object : Expr) (name : String) (method : Bool) :
      Slot (.member note object (.identifier inner name) method) empty
        object.needsBracketsBeforeDot object (field name)

namespace Slot

variable {t operand : Expr} {opening closing : Piece} {due : Bool} {rest : List Char}

/-- The text of the tree, cut at the operand. -/
theorem piece (h : Slot t opening due operand closing) :
    ofTree t = opening ++ (bracket due (ofTree operand) ++ closing) := by
  cases h with
  | left h => rw [empty_append, h.piece]
  | right h => simp only [h.piece, append_empty, append_assoc]
  | prefixed note h =>
    rw [append_empty]
    exact Piece.ext (Expr.print_of_plain h note) (Expr.words_of_plain h [space] note)
  | object note inner object name method =>
    rw [empty_append]
    refine Piece.ext ?_ rfl
    show Expr.bracket _ _ ++ "." ++ name = _
    exact String.append_assoc ..

theorem wellFormed (h : Slot t opening due operand closing) (ht : t.WellFormed) :
    operand.WellFormed := by
  cases h with
  | left h => exact (h.wellFormed ht).1
  | right h => exact (h.wellFormed ht).2.1
  | prefixed => exact ht.2
  | object note inner object name method =>
    cases method with
    | false => exact ht.1
    | true => exact ht.elim

/-- What is in front of an operand is cut into its words. -/
theorem taken_opening (h : Slot t opening due operand closing) (ht : t.WellFormed)
    (hrest : Starts rest) : Starts (opening.text.toList ++ rest) ∧ opening.Taken rest := by
  cases h with
  | left => exact ⟨hrest, taken_empty rest⟩
  | @right t left right symbol operator h =>
    obtain ⟨hleft, -, hsymbol⟩ := h.wellFormed ht
    have hstarts := starts_bracket (starts_print hleft.printable.legible)
      (left.binding.needsBracketsLeftOf operator)
    constructor
    · rw [text_append, toList_append, List.append_assoc]
      exact hstarts.append _
    · have hcut := hsymbol.left (left.binding.needsBracketsLeftOf operator)
        (takes_print hleft.printable) hrest
      simp only [Taken, text_append, words_append, toList_append]
      exact hcut
  | prefixed note h => exact ⟨(starts_printPrefix ht.1).append rest, takes_printPrefix ht.1 hrest⟩
  | object => exact ⟨hrest, taken_empty rest⟩

/-- What is behind an operand is cut into its words. -/
theorem taken_closing (h : Slot t opening due operand closing) (ht : t.WellFormed)
    (hrest : MayFollow t.takesDot rest) : closing.Taken rest := by
  cases h with
  | @left t left right symbol operator h =>
    obtain ⟨-, hright, hsymbol⟩ := h.wellFormed ht
    rw [h.takesDot] at hrest
    have hoperand : (bracket (right.binding.needsBracketsRightOf operator)
        (ofTree right)).Taken rest :=
      takes_bracket _ (takes_print hright.printable) fun _ => hrest.mono
    have hstarts := (starts_bracket (starts_print hright.printable.legible)
      (right.binding.needsBracketsRightOf operator)).append rest
    have hbehind : (gap ++ bracket (right.binding.needsBracketsRightOf operator)
        (ofTree right)).Taken rest := Taken.append hstarts.takes_space hoperand
    refine Taken.append ?_ (Taken.append ?_ hbehind)
    · rw [text_append, toList_append, List.append_assoc]
      exact hsymbol.behind _
    · show Takes symbol.text.toList symbol.words _
      rw [text_append, toList_append, List.append_assoc]
      exact hsymbol.takes _
  | right => exact taken_empty rest
  | prefixed => exact taken_empty rest
  | object note inner object name method =>
    cases method with
    | false => exact taken_field ht.2.2 (hrest.dotted)
    | true => exact ht.elim

/-- What is behind an operand starts with no dot, or it is a field.  In front of a field an operand
has brackets unless it may stand in front of a dot. -/
theorem noDot_or_field (h : Slot t opening due operand closing) (ht : t.WellFormed)
    (hrest : MayFollow t.takesDot rest) : MayFollow false (closing.text.toList ++ rest) ∨
      ∃ name, closing = field name ∧ IsWord name.toList ∧ MayFollow true rest ∧
        (due = false → operand.takesDot = true) := by
  cases h with
  | left =>
    rw [text_append, toList_append, List.append_assoc]
    exact .inl (mayFollow_space _ _)
  | right h =>
    rw [h.takesDot] at hrest
    exact .inl hrest
  | prefixed => exact .inl hrest
  | object note inner object name method =>
    cases method with
    | false =>
      refine .inr ⟨name, rfl, ht.2.2, hrest.dotted, fun hdue => ?_⟩
      rw [Expr.takesDot, hdue, ht.1.endsInMark]
      rfl
    | true => exact ht.elim

/-- What is behind an operand may be there. -/
theorem follows (h : Slot t opening due operand closing) (ht : t.WellFormed)
    (hrest : MayFollow t.takesDot rest) :
    MayFollow operand.takesDot ((closed due).text.toList ++ (closing.text.toList ++ rest)) := by
  cases due with
  | true => exact mayFollow_bracket _ _
  | false =>
    rcases h.noDot_or_field ht hrest with hfollow | ⟨name, rfl, -, -, hdot⟩
    · exact hfollow.mono
    · rw [hdot rfl]
      exact mayFollow_field name _

end Slot

/-! ### Pairs of brackets -/

/-- In the text of the tree `t` there are brackets around the operand `n`, with `before` in front of
them and `after` behind them. -/
inductive Pair : Expr → Piece → Expr → Piece → Prop where
  | here {t n : Expr} {opening closing : Piece} (h : Slot t opening true n closing) :
      Pair t opening n closing
  | inside {t operand n : Expr} {opening closing before after : Piece} {due : Bool}
      (h : Slot t opening due operand closing) (hpair : Pair operand before n after) :
      Pair t (opening ++ (opened due ++ before)) n (after ++ (closed due ++ closing))

namespace Pair

variable {t n : Expr} {before after : Piece} {rest : List Char}

/-- **The text of the tree, cut at a pair of its brackets.** -/
theorem piece (h : Pair t before n after) :
    ofTree t = before ++ (bracket true (ofTree n) ++ after) := by
  induction h with
  | here h => exact h.piece
  | inside h _ ih => simp only [h.piece, ih, bracket_eq, append_assoc]

theorem wellFormed (h : Pair t before n after) (ht : t.WellFormed) : n.WellFormed := by
  induction h with
  | here h => exact h.wellFormed ht
  | inside h _ ih => exact ih (h.wellFormed ht)

/-- What is in front of a pair of brackets is cut into its words, also in front of the operand
without them. -/
theorem taken_before (h : Pair t before n after) (ht : t.WellFormed) :
    ∀ {rest}, Starts rest → Starts (before.text.toList ++ rest) ∧ before.Taken rest := by
  induction h with
  | here h => exact fun hrest => h.taken_opening ht hrest
  | @inside t operand n opening closing before after due h _ ih =>
    intro rest hrest
    obtain ⟨hstarts, hcut⟩ := ih (h.wellFormed ht) hrest
    have hinside : Starts ((opened due ++ before).text.toList ++ rest) := by
      rw [text_append, toList_append, List.append_assoc]
      cases due with
      | false => exact hstarts
      | true => exact ⟨'(', _, rfl, .inr (by decide)⟩
    obtain ⟨hopening, hcutOpening⟩ := h.taken_opening ht hinside
    refine ⟨?_, hcutOpening.append ((taken_opened due _).append hcut)⟩
    rwa [text_append, toList_append, List.append_assoc]

/-- What is behind a pair of brackets is cut into its words.  It either starts with no dot, or with
the field of the operand. -/
theorem taken_after (h : Pair t before n after) (ht : t.WellFormed) :
    ∀ {rest}, MayFollow t.takesDot rest → after.Taken rest ∧
      (MayFollow false (after.text.toList ++ rest) ∨
        ∃ name more, after = field name ++ more ∧ IsWord name.toList ∧ more.Taken rest ∧
          MayFollow true (more.text.toList ++ rest)) := by
  induction h with
  | here h =>
    intro rest hrest
    refine ⟨h.taken_closing ht hrest, (h.noDot_or_field ht hrest).imp_right ?_⟩
    intro ⟨name, hfield, hname, hbehind, _⟩
    exact ⟨name, empty, by rw [hfield, append_empty], hname, taken_empty rest, hbehind⟩
  | @inside t operand n opening closing before after due h _ ih =>
    intro rest hrest
    have hbehind : (closed due ++ closing).text.toList ++ rest =
        (closed due).text.toList ++ (closing.text.toList ++ rest) := by
      rw [text_append, toList_append, List.append_assoc]
    have hcut : (closed due ++ closing).Taken rest :=
      (taken_closed due _).append (h.taken_closing ht hrest)
    obtain ⟨hafter, hfollow⟩ := ih (h.wellFormed ht) (h.follows ht hrest)
    rw [← hbehind] at hafter hfollow
    refine ⟨hafter.append hcut, ?_⟩
    rw [text_append, toList_append, List.append_assoc]
    rcases hfollow with hfollow | ⟨name, more, rfl, hname, hmore, hfollow⟩
    · exact .inl hfollow
    · refine .inr ⟨name, more ++ (closed due ++ closing), append_assoc .., hname,
        hmore.append hcut, ?_⟩
      rwa [text_append, toList_append, List.append_assoc]

end Pair

/-! ### All brackets of a text -/

/-- A place in two lists together is a place in one of them. -/
theorem append_eq_append_cons {α : Type} {as bs ws vs : List α} {a : α}
    (h : as ++ bs = ws ++ a :: vs) :
    (∃ us, as = ws ++ a :: us ∧ vs = us ++ bs) ∨ ∃ us, ws = as ++ us ∧ bs = us ++ a :: vs := by
  rcases List.append_eq_append_iff.mp h with ⟨us, rfl, hbs⟩ | ⟨us, rfl, hvs⟩
  · exact .inr ⟨us, rfl, hbs⟩
  · cases us with
    | nil => exact .inr ⟨[], (List.append_nil _).symm ▸ (List.append_nil _).symm, hvs.symm⟩
    | cons u us =>
      obtain ⟨rfl, rfl⟩ := List.cons.inj hvs
      exact .inl ⟨us, rfl, rfl⟩

/-- Every opening bracket among the words of the tree belongs to a pair. -/
def Paired (t : Expr) : Prop :=
  ∀ ws vs, t.words [space] = ws ++ (.bracket, "(") :: vs →
    ∃ before n after, Pair t before n after ∧ before.words = ws

section

variable {t operand left right : Expr} {opening closing symbol : Piece} {operator : String}
  {due : Bool} {ws vs : List Word}

/-- An opening bracket at an operand or within it. -/
theorem Slot.exists_pair (hslot : Slot t opening due operand closing) (hpaired : Paired operand)
    (h : Expr.bracketWords due (operand.words [space]) = ws ++ (.bracket, "(") :: vs) :
    ∃ before n after, Pair t before n after ∧ before.words = opening.words ++ ws := by
  cases due with
  | false =>
    obtain ⟨before, n, after, hpair, rfl⟩ := hpaired ws vs h
    exact ⟨_, n, _, .inside hslot hpair, rfl⟩
  | true =>
    rw [Expr.bracketWords, if_pos rfl] at h
    cases ws with
    | nil => exact ⟨opening, operand, closing, .here hslot, (List.append_nil _).symm⟩
    | cons w ws =>
      obtain ⟨rfl, htail⟩ := List.cons.inj h
      rcases append_eq_append_cons htail with ⟨us, hus, -⟩ | ⟨us, -, hend⟩
      · obtain ⟨before, n, after, hpair, rfl⟩ := hpaired ws us hus
        exact ⟨_, n, _, .inside hslot hpair, rfl⟩
      · have hmem : (.bracket, "(") ∈ [((TokenKind.bracket, ")") : Word)] :=
          hend ▸ List.mem_append_cons_self
        exact absurd hmem (by decide)

/-- Neither an operator nor the spaces around it are brackets. -/
theorem Joint.notMem (h : Joint t symbol operator left right) :
    (.bracket, "(") ∉ [space] ++ (symbol.words ++ [space]) := by
  cases h with
  | binary => simp [space]
  | negation => simp [space]

theorem Joint.paired (h : Joint t symbol operator left right) (hleft : Paired left)
    (hright : Paired right) : Paired t := by
  intro ws vs hwords
  have hcut : t.words [space] =
      Expr.bracketWords (left.binding.needsBracketsLeftOf operator) (left.words [space]) ++
        (([space] ++ (symbol.words ++ [space])) ++
          Expr.bracketWords (right.binding.needsBracketsRightOf operator)
            (right.words [space])) := by
    have hpiece := congrArg Piece.words h.piece
    simpa [ofTree, gap, bracket] using hpiece
  rw [hcut] at hwords
  rcases append_eq_append_cons hwords with ⟨us, hus, -⟩ | ⟨us, rfl, hbehind⟩
  · exact (Slot.left h).exists_pair hleft hus
  · rcases append_eq_append_cons hbehind with ⟨us', hus', -⟩ | ⟨us', rfl, hus'⟩
    · exact absurd (hus' ▸ List.mem_append_cons_self) h.notMem
    · obtain ⟨before, n, after, hpair, hbefore⟩ := (Slot.right h).exists_pair hright hus'
      exact ⟨before, n, after, hpair, by rw [hbefore]; simp [ofTree, gap, bracket]⟩

theorem notMem_field (name : String) : (.bracket, "(") ∉ (field name).words := by
  rcases Expr.kindOfName_cases name with h | h <;> simp [field, h]

/-- A word that is no bracket. -/
theorem paired_of_ne {kind : TokenKind} {value : String} (h : t.words [space] = [(kind, value)])
    (hkind : kind ≠ .bracket) : Paired t := by
  intro ws vs hwords
  have hmem : (.bracket, "(") ∈ [(kind, value)] :=
    (h.symm.trans hwords) ▸ List.mem_append_cons_self
  exact absurd (congrArg Prod.fst (List.mem_singleton.mp hmem)).symm hkind

/-- **The pairs are all the brackets of a text.** -/
theorem paired_of_legible (h : t.Legible) : Paired t := by
  refine Expr.Legible.induction (motive := Paired) ?negation ?unary ?binary ?member ?string ?integer
    ?bool ?nil ?identifier t h
  case negation =>
    intro note inner relation left right hrelation _ _ ihleft ihright
    exact (Joint.negation note inner left right hrelation).paired ihleft ihright
  case unary =>
    intro note operator operand _ hplain _ ih ws vs hwords
    rw [Expr.words_of_plain hplain] at hwords
    rcases append_eq_append_cons hwords with ⟨us, hus, -⟩ | ⟨us, rfl, hus⟩
    · have hmem : (.bracket, "(") ∈ Expr.prefixWords [space] operator :=
        hus ▸ List.mem_append_cons_self
      rw [Expr.prefixWords] at hmem
      split_ifs at hmem <;> simp [space] at hmem
    · exact (Slot.prefixed note hplain).exists_pair ih hus
  case binary =>
    intro note operator left right _ _ _ ihleft ihright
    exact (Joint.binary note operator left right).paired ihleft ihright
  case member =>
    intro note object inner name _ _ ih ws vs hwords
    rcases append_eq_append_cons hwords with ⟨us, hus, -⟩ | ⟨us, -, hus⟩
    · exact (Slot.object note inner object name false).exists_pair ih hus
    · have hfield : (field name).words = us ++ (.bracket, "(") :: vs := hus
      exact absurd (hfield ▸ List.mem_append_cons_self) (notMem_field name)
  case string => exact fun note value => paired_of_ne rfl (by decide)
  case integer => exact fun note n _ => paired_of_ne rfl (by decide)
  case bool => exact fun note value => paired_of_ne rfl (by decide)
  case nil => exact fun note => paired_of_ne rfl (by decide)
  case identifier =>
    intro note name _ _
    refine paired_of_ne rfl ?_
    rcases Expr.kindOfName_cases name with h | h <;> rw [h] <;> decide

end

end FilterLang
