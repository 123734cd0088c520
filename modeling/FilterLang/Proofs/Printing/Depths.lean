import FilterLang.Proofs.Printing.Slots

/-!
# How deep the words of a text stand

Brackets leave no words of their own in a tree.  They are told by how deep they put the other words
of the text, and by that a text can be held against any tree.

* `levels` — the words that show, each with the number of brackets around it.
* `Balanced` — words that close just the brackets that they open.
* `Expr.size` — how many words show in the text of a tree: `sized_words`.
* `Laid` — words with their depths are laid out as a tree.  An operand that needs brackets has its
  operator deeper than the operator around it.
* `Laid.of_prefixed`, `Laid.of_field`, `Laid.of_joint` — the parts of a layout.
-/

namespace FilterLang

open Scanner

/-! ### Depths -/

/-- Whether a word is neither a blank nor a bracket. -/
def shows (w : Word) : Bool :=
  w.1 != .whitespace && w != (.bracket, "(") && w != (.bracket, ")")

/-- The words that show, each with the number of brackets around it. -/
def levels : Nat → List Word → List (Word × Nat)
  | _, [] => []
  | depth, w :: ws =>
    if w = (.bracket, "(") then levels (depth + 1) ws
    else if w = (.bracket, ")") then levels (depth - 1) ws
    else if w.1 = .whitespace then levels depth ws
    else (w, depth) :: levels depth ws

/-- The words close just the brackets that they open. -/
def Balanced (ws : List Word) : Prop :=
  ∀ depth vs, levels depth (ws ++ vs) = levels depth ws ++ levels depth vs

variable {w : Word} {ws vs : List Word}

theorem shows_of_kind {kind : TokenKind} (hblank : kind ≠ .whitespace) (hbracket : kind ≠ .bracket)
    (value : String) : shows (kind, value) = true := by
  have hne : ∀ shown, (kind, value) ≠ (.bracket, shown) :=
    fun shown h => hbracket (congrArg Prod.fst h)
  rw [shows, bne_iff_ne.mpr hblank, bne_iff_ne.mpr (hne "("), bne_iff_ne.mpr (hne ")")]
  rfl

theorem shows_operator (value : String) : shows (.operator, value) = true :=
  shows_of_kind (by decide) (by decide) value

theorem levels_cons_of_shows (h : shows w = true) (depth : Nat) (ws : List Word) :
    levels depth (w :: ws) = (w, depth) :: levels depth ws := by
  simp only [shows, Bool.and_eq_true, bne_iff_ne] at h
  rw [levels, if_neg h.1.2, if_neg h.2, if_neg h.1.1]

theorem levels_singleton (h : shows w = true) (depth : Nat) : levels depth [w] = [(w, depth)] :=
  levels_cons_of_shows h depth []

theorem map_fst_levels (depth : Nat) (ws : List Word) :
    (levels depth ws).map Prod.fst = ws.filter shows := by
  fun_induction levels depth ws with
  | case1 => rfl
  | case2 depth ws ih => exact ih
  | case3 depth ws _ ih => exact ih
  | case4 depth w ws hopen hclose hblank ih =>
    rw [ih, List.filter_cons_of_neg (by simp [shows, hblank])]
  | case5 depth w ws hopen hclose hblank ih =>
    rw [List.filter_cons_of_pos (by simp [shows, hopen, hclose, hblank]), List.map_cons, ih]

theorem length_levels (depth : Nat) (ws : List Word) :
    (levels depth ws).length = (ws.filter shows).length := by
  rw [← map_fst_levels depth ws, List.length_map]

/-- Blanks do not show. -/
theorem levels_solidWords (depth : Nat) (ws : List Word) :
    levels depth (solidWords ws) = levels depth ws := by
  induction ws generalizing depth with
  | nil => rfl
  | cons w ws ih =>
    by_cases hblank : w.1 = .whitespace
    · have hopen : w ≠ (.bracket, "(") := fun h => by rw [h] at hblank; cases hblank
      have hclose : w ≠ (.bracket, ")") := fun h => by rw [h] at hblank; cases hblank
      rw [levels, if_neg hopen, if_neg hclose, if_pos hblank, ← ih]
      congr 1
      exact List.filter_cons_of_neg (by simp [hblank])
    · rw [Expr.solidWords_cons hblank, levels, levels, ih, ih, ih]

theorem balanced_nil : Balanced [] := fun _ _ => rfl

theorem Balanced.append (h : Balanced ws) (h' : Balanced vs) : Balanced (ws ++ vs) := by
  intro depth us
  rw [List.append_assoc, h, h', h, List.append_assoc]

theorem balanced_singleton (h : shows w = true) : Balanced [w] := by
  intro depth vs
  rw [levels_singleton h]
  exact levels_cons_of_shows h depth vs

theorem balanced_space : Balanced [space] := fun _ _ => rfl

/-- What is between brackets is one deeper. -/
theorem levels_bracketWords_append (h : Balanced ws) (due : Bool) (depth : Nat) (vs : List Word) :
    levels depth (Expr.bracketWords due ws ++ vs) =
      levels (depth + due.toNat) ws ++ levels depth vs := by
  cases due with
  | false => exact h depth vs
  | true =>
    rw [Expr.bracketWords, if_pos rfl, List.cons_append, List.append_assoc, levels, if_pos rfl, h]
    rfl

theorem levels_bracketWords (h : Balanced ws) (due : Bool) (depth : Nat) :
    levels depth (Expr.bracketWords due ws) = levels (depth + due.toNat) ws := by
  have hall := levels_bracketWords_append h due depth []
  rwa [List.append_nil, levels, List.append_nil] at hall

theorem Balanced.bracketWords (h : Balanced ws) (due : Bool) :
    Balanced (Expr.bracketWords due ws) := by
  intro depth vs
  rw [levels_bracketWords_append h, levels_bracketWords h]

/-! ### How many words show -/

namespace Expr

/-- How many words show in the text of a tree. -/
def size : Expr → Nat
  | unary _ _ operand => operand.size + 1
  | binary _ _ left right => left.size + (right.size + 1)
  | member _ object _ _ => object.size + 2
  | _ => 1

theorem size_pos (t : Expr) : 0 < t.size := by
  cases t <;> simp only [size] <;> omega

@[simp]
theorem size_bare (t : Expr) : t.bare.size = t.size := by
  induction t with
  | unary note operator operand ih => rw [bare, size, size, ih]
  | binary note operator left right ihleft ihright => rw [bare, size, size, ihleft, ihright]
  | member note object property method ih => rw [bare, size, size, ih]
  | _ => rfl

@[simp]
theorem isJoint_bare (t : Expr) : t.bare.isJoint = t.isJoint := by
  cases t with
  | unary note operator operand => cases operand <;> rfl
  | _ => rfl

/-- The name of the field that the text of a tree ends in. -/
def lastField : Expr → Option String
  | unary _ _ operand => operand.lastField
  | binary _ _ _ right => right.lastField
  | member _ _ (identifier _ name) _ => some name
  | _ => none

/-- Whether the text of a tree is one word. -/
def isLeaf : Expr → Bool
  | string .. | integer .. | bool .. | nil .. | identifier .. => true
  | _ => false

end Expr

namespace Joint

variable {t left right : Expr} {symbol : Piece} {operator : String}

theorem shows_symbol (h : Joint t symbol operator left right) :
    Balanced symbol.words ∧
      t.size = left.size + ((symbol.words.filter shows).length + right.size) := by
  have hspace : shows space = false := rfl
  cases h with
  | binary note operator left right =>
    refine ⟨balanced_singleton (shows_operator operator), ?_⟩
    rw [Expr.size, List.filter_singleton, shows_operator]
    simp only [cond_true, List.length_singleton]
    omega
  | negation note inner left right h =>
    refine ⟨(balanced_singleton (shows_operator _)).append (balanced_space.append
      (balanced_singleton (shows_operator operator))), ?_⟩
    simp only [Expr.size, List.filter_cons, shows_operator, hspace, List.filter_nil, if_true,
      Bool.false_eq_true, if_false, List.length_cons, List.length_nil]
    omega

/-- The depth of an operator shows. -/
theorem depth_eq (h : Joint t symbol operator left right) {depth outer : Nat}
    (hlevels : levels depth symbol.words = levels outer symbol.words) : depth = outer := by
  cases h with
  | binary =>
    rw [levels_singleton (shows_operator operator), levels_singleton (shows_operator operator)]
      at hlevels
    cases hlevels
    rfl
  | negation =>
    rw [levels_cons_of_shows (shows_operator _), levels_cons_of_shows (shows_operator _)] at hlevels
    injection hlevels with hfirst
    cases hfirst
    rfl

theorem lastField (h : Joint t symbol operator left right) : t.lastField = right.lastField := by
  cases h with
  | binary => rfl
  | negation => rfl

end Joint

/-- The words of a tree show as many words as the tree has. -/
structure Sized (t : Expr) (ws : List Word) : Prop where
  balanced : Balanced ws
  length : (ws.filter shows).length = t.size

theorem filter_bracketWords (due : Bool) (ws : List Word) :
    (Expr.bracketWords due ws).filter shows = ws.filter shows := by
  cases due with
  | false => rfl
  | true =>
    rw [Expr.bracketWords, if_pos rfl, List.filter_cons_of_neg (by decide), List.filter_append]
    exact List.append_nil _

theorem Sized.bracketWords {t : Expr} (h : Sized t ws) (due : Bool) :
    Sized t (Expr.bracketWords due ws) :=
  ⟨h.balanced.bracketWords due, by rw [filter_bracketWords, h.length]⟩

/-- Two operands with an operator between them. -/
theorem Joint.sized {t left right : Expr} {symbol : Piece} {operator : String}
    (h : Joint t symbol operator left right) (hleft : Sized left (left.words [space]))
    (hright : Sized right (right.words [space])) : Sized t (t.words [space]) := by
  obtain ⟨hsymbol, hsize⟩ := h.shows_symbol
  have hwords := congrArg Piece.words h.piece
  have hsizedLeft := hleft.bracketWords (left.binding.needsBracketsLeftOf operator)
  have hsizedRight := hright.bracketWords (right.binding.needsBracketsRightOf operator)
  have hspace : [space].filter shows = [] := rfl
  constructor
  · show Balanced (Piece.ofTree t).words
    rw [hwords]
    exact hsizedLeft.balanced.append (balanced_space.append (hsymbol.append
      (balanced_space.append hsizedRight.balanced)))
  · show ((Piece.ofTree t).words.filter shows).length = t.size
    rw [hwords, hsize, ← hsizedLeft.length, ← hsizedRight.length]
    simp only [Piece.words_append, Piece.gap, List.filter_append, hspace, List.nil_append,
      List.length_append]
    rfl

theorem shows_kindOfName (name : String) : shows (Expr.kindOfName name, name) = true := by
  rcases Expr.kindOfName_cases name with h | h
  · rw [h]
    exact shows_of_kind (by decide) (by decide) name
  · rw [h]
    exact shows_operator name

theorem balanced_prefixWords (operator : String) :
    Balanced (Expr.prefixWords [space] operator) := by
  rw [Expr.prefixWords]
  split_ifs
  · exact (balanced_singleton (shows_operator operator)).append balanced_space
  · exact balanced_singleton (shows_operator operator)

theorem filter_prefixWords (operator : String) :
    (Expr.prefixWords [space] operator).filter shows = [(.operator, operator)] := by
  rw [Expr.prefixWords, List.filter_cons_of_pos (shows_operator operator)]
  split_ifs
  · rfl
  · rfl

/-- A word by itself. -/
theorem sized_leaf {t : Expr} (ht : t.size = 1) (h : shows w = true) : Sized t [w] :=
  ⟨balanced_singleton h, by rw [List.filter_cons_of_pos h, ht]; rfl⟩

/-- **The text of a tree closes the brackets that it opens**, and shows as many words as the tree
has. -/
theorem sized_words {t : Expr} (h : t.Legible) : Sized t (t.words [space]) := by
  refine Expr.Legible.induction (motive := fun t => Sized t (t.words [space])) ?negation ?unary
    ?binary ?member ?string ?integer ?bool ?nil ?identifier t h
  case negation =>
    intro note inner relation left right hrelation _ _ ihleft ihright
    exact (Joint.negation note inner left right hrelation).sized ihleft ihright
  case unary =>
    intro note operator operand _ hplain _ ih
    have hoperand := ih.bracketWords (operand.binding.needsBracketsBehind operator)
    rw [Expr.words_of_plain hplain]
    refine ⟨(balanced_prefixWords operator).append hoperand.balanced, ?_⟩
    rw [List.filter_append, filter_prefixWords, List.length_append, hoperand.length, Expr.size,
      List.length_singleton, Nat.add_comm]
  case binary =>
    intro note operator left right _ _ _ ihleft ihright
    exact (Joint.binary note operator left right).sized ihleft ihright
  case member =>
    intro note object inner name _ _ ih
    have hobject := ih.bracketWords object.needsBracketsBeforeDot
    refine ⟨hobject.balanced.append ((balanced_singleton (shows_operator ".")).append
      (balanced_singleton (shows_kindOfName name))), ?_⟩
    rw [Expr.words, List.filter_append, List.length_append, hobject.length, Expr.size,
      List.filter_cons_of_pos (shows_operator "."), Expr.words,
      List.filter_cons_of_pos (shows_kindOfName name)]
    rfl
  case string => exact fun _ _ => sized_leaf rfl (shows_of_kind (by decide) (by decide) _)
  case integer => exact fun _ _ _ => sized_leaf rfl (shows_of_kind (by decide) (by decide) _)
  case bool => exact fun _ _ => sized_leaf rfl (shows_of_kind (by decide) (by decide) _)
  case nil => exact fun _ => sized_leaf rfl (shows_of_kind (by decide) (by decide) _)
  case identifier => exact fun _ name _ _ => sized_leaf rfl (shows_kindOfName name)

/-! ### Layouts -/

/-- An operand that needs brackets has its operator deeper than the operator around it. -/
def Deeper (due : Bool) (operand : Expr) (depth deep : Nat) : Prop :=
  due = true → operand.isJoint = true → depth < deep

/-- **Words with their depths are laid out as a tree**, whose operator is at the depth `depth`.  The
`not` of a relation is in front of the relation or in front of all of it. -/
inductive Laid : Expr → Nat → List (Word × Nat) → Prop where
  | leaf {t : Expr} {w : Word} {depth : Nat} (ht : t.isLeaf = true) (hw : w.1 ≠ .operator) :
      Laid t depth [(w, depth)]
  | field {note inner : Note} {object : Expr} {name : String} {method : Bool} {w : Word}
      {depth deep : Nat} {ls : List (Word × Nat)} (hobject : Laid object deep ls)
      (hdeep : Deeper true object depth deep) (hw : w.2 = name) :
      Laid (.member note object (.identifier inner name) method) depth
        (ls ++ [((.operator, "."), depth), (w, depth)])
  | prefixed {note : Note} {operator : String} {operand : Expr} {depth deep : Nat}
      {ls : List (Word × Nat)} (hplain : Expr.Plain operator operand)
      (hoperand : Laid operand deep ls)
      (hdeep : Deeper (operand.binding.needsBracketsBehind operator) operand depth deep) :
      Laid (.unary note operator operand) depth (((.operator, operator), depth) :: ls)
  | joint {t left right : Expr} {symbol : Piece} {operator : String} {depth deep deep' : Nat}
      {ls ls' : List (Word × Nat)} (h : Joint t symbol operator left right)
      (hleft : Laid left deep ls) (hright : Laid right deep' ls')
      (hdeep : Deeper (left.binding.needsBracketsLeftOf operator) left depth deep)
      (hdeep' : Deeper (right.binding.needsBracketsRightOf operator) right depth deep') :
      Laid t depth (ls ++ (levels depth symbol.words ++ ls'))
  | outside {note inner : Note} {relation : String} {left right : Expr} {depth outer : Nat}
      {ls : List (Word × Nat)} (hrelation : Operator.isNegatable relation)
      (h : Laid (.binary inner relation left right) depth ls) :
      Laid (.unary note "not" (.binary inner relation left right)) depth
        (((.operator, "not"), outer) :: ls)

/-- How words end: with the name of a field behind its dot, or else with no operator. -/
def EndsAs (field : Option String) (ws : List Word) : Prop :=
  match field with
  | some name => ∃ vs w, ws = vs ++ [(.operator, "."), w] ∧ w.2 = name
  | none => ∃ vs w, ws = vs ++ [w] ∧ w.1 ≠ .operator

theorem EndsAs.prepend {field : Option String} (h : EndsAs field ws) (vs : List Word) :
    EndsAs field (vs ++ ws) := by
  cases field with
  | some name =>
    obtain ⟨us, w, rfl, hw⟩ := h
    exact ⟨vs ++ us, w, (List.append_assoc ..).symm, hw⟩
  | none =>
    obtain ⟨us, w, rfl, hw⟩ := h
    exact ⟨vs ++ us, w, (List.append_assoc ..).symm, hw⟩

/-- Words that end alike do not both stand next to the same `not`, one in front and one behind. -/
theorem EndsAs.ne {field : Option String} (hws : EndsAs field ws) (hvs : EndsAs field vs) :
    (.operator, "not") :: ws ≠ vs ++ [(.operator, "not")] := by
  intro h
  cases field with
  | none =>
    obtain ⟨us, w, rfl, hw⟩ := hws
    have hlast := congrArg List.getLast? h
    rw [← List.cons_append, List.getLast?_concat, List.getLast?_concat] at hlast
    cases hlast
    exact hw rfl
  | some name =>
    obtain ⟨us, w, rfl, hw⟩ := hws
    obtain ⟨us', w', rfl, hw'⟩ := hvs
    have hcut : (.operator, "not") :: us ++ [(.operator, ".")] ++ [w] =
        us' ++ [(.operator, ".")] ++ [w'] ++ [(.operator, "not")] := by simpa using h
    obtain ⟨hcut, hlast⟩ := List.append_inj' hcut rfl
    obtain ⟨-, hlast'⟩ := List.append_inj' hcut rfl
    cases hlast
    cases hlast'
    rw [← hw'] at hw
    exact absurd hw (by decide)

namespace Laid

variable {t operand object left right : Expr} {depth : Nat} {ls ls' : List (Word × Nat)}
  {symbol : Piece} {operator name : String}

theorem length (h : Laid t depth ls) : ls.length = t.size := by
  induction h with
  | @leaf t w depth ht =>
    cases t with
    | string | integer | bool | nil | identifier => rfl
    | _ => cases ht
  | field _ _ _ ih => rw [List.length_append, ih, Expr.size]; rfl
  | prefixed _ _ _ ih => rw [List.length_cons, ih, Expr.size]
  | joint h _ _ _ _ ihleft ihright =>
    rw [h.shows_symbol.2, List.length_append, List.length_append, length_levels, ihleft, ihright]
  | outside _ _ ih => rw [List.length_cons, ih, Expr.size]

theorem endsAs (h : Laid t depth ls) : EndsAs t.lastField (ls.map Prod.fst) := by
  induction h with
  | @leaf t w depth ht hw =>
    cases t with
    | string | integer | bool | nil | identifier => exact ⟨[], w, rfl, hw⟩
    | _ => cases ht
  | @field _ _ _ name _ w depth _ ls _ _ hw => exact ⟨ls.map Prod.fst, w, by simp, hw⟩
  | prefixed _ _ _ ih => exact ih.prepend [_]
  | joint h _ _ _ _ _ ihright =>
    rw [List.map_append, List.map_append, h.lastField]
    exact (ihright.prepend _).prepend _
  | outside _ _ ih => exact ih.prepend [_]

/-- The operand of a prefix operator. -/
theorem of_prefixed {note : Note} {w : Word} {outer : Nat} (hplain : Expr.Plain operator operand)
    (h : Laid (.unary note operator operand) depth ((w, outer) :: ls)) :
    depth = outer ∧ ∃ deep, Laid operand deep ls ∧
      Deeper (operand.binding.needsBracketsBehind operator) operand depth deep := by
  generalize hls : (w, outer) :: ls = all at h
  cases h with
  | leaf ht => cases ht
  | prefixed _ hoperand hdeep =>
    cases hls
    exact ⟨rfl, _, hoperand, hdeep⟩
  | joint h =>
    cases h with
    | negation _ _ _ _ hrelation =>
      have hno := hplain _ _ _ _ rfl
      rw [Expr.negates_not hrelation] at hno
      cases hno
  | outside hrelation =>
    have hno := hplain _ _ _ _ rfl
    rw [Expr.negates_not hrelation] at hno
    cases hno

/-- The object of a field. -/
theorem of_field {note inner : Note} {method : Bool} {w w' : Word} {outer outer' : Nat}
    (h : Laid (.member note object (.identifier inner name) method) depth
      (ls ++ [(w, outer), (w', outer')])) :
    depth = outer ∧ ∃ deep, Laid object deep ls ∧ Deeper true object depth deep := by
  generalize hls : ls ++ [(w, outer), (w', outer')] = all at h
  cases h with
  | leaf ht => cases ht
  | field hobject hdeep =>
    obtain ⟨rfl, hend⟩ := List.append_inj' hls rfl
    cases hend
    exact ⟨rfl, _, hobject, hdeep⟩
  | joint h => cases h

/-- Where a relation has its `not` inside, that is not in front of all of it: the left operand would
have to end in a `not` that is no field. -/
theorem ne_outside {inner : Note} {relation : String}
    (h : Laid (.binary inner relation left right) depth ls') (hlength : ls.length = left.size)
    (hends : EndsAs left.lastField (ls.map Prod.fst)) (outer outer' : Nat)
    (behind : List (Word × Nat)) :
    ls ++ ((.operator, "not"), outer) :: behind ≠ ((.operator, "not"), outer') :: ls' := by
  intro hls
  generalize hbinary : Expr.binary inner relation left right = t at h
  cases h with
  | leaf ht =>
    subst hbinary
    cases ht
  | @joint _ _ _ _ _ _ deep _ ms _ h hleft =>
    subst hbinary
    obtain ⟨rfl, rfl, rfl, rfl⟩ := h.unique (.binary inner relation left right)
    rw [List.append_cons, ← List.cons_append] at hls
    have hlengths : (ls ++ [((TokenKind.operator, "not"), outer)]).length =
        (((TokenKind.operator, "not"), outer') :: ms).length := by
      simp [hlength, hleft.length]
    have hfront := congrArg (List.map Prod.fst) (List.append_inj_left hls hlengths)
    rw [List.map_append] at hfront
    exact hleft.endsAs.ne hends hfront.symm
  | _ => cases hbinary

/-- The two operands of an operator, with the operator behind as many words as the left one has. -/
theorem of_joint {outer : Nat} (hjoint : Joint t symbol operator left right)
    (h : Laid t depth (ls ++ (levels outer symbol.words ++ ls'))) (hlength : ls.length = left.size)
    (hends : EndsAs left.lastField (ls.map Prod.fst)) :
    depth = outer ∧
      (∃ deep, Laid left deep ls ∧
        Deeper (left.binding.needsBracketsLeftOf operator) left depth deep) ∧
      ∃ deep, Laid right deep ls' ∧
        Deeper (right.binding.needsBracketsRightOf operator) right depth deep := by
  generalize hls : ls ++ (levels outer symbol.words ++ ls') = all at h
  cases h with
  | leaf ht =>
    cases hjoint with
    | binary => cases ht
    | negation => cases ht
  | field => cases hjoint
  | prefixed hplain =>
    cases hjoint with
    | negation _ _ _ _ hrelation =>
      have hno := hplain _ _ _ _ rfl
      rw [Expr.negates_not hrelation] at hno
      cases hno
  | @joint _ left' right' symbol' operator' _ deep deep' _ _ h hleft hright hdeep hdeep' =>
    obtain ⟨rfl, rfl, rfl, rfl⟩ := hjoint.unique h
    obtain ⟨rfl, hbehind⟩ := List.append_inj hls (hlength.trans hleft.length.symm)
    obtain ⟨hsymbol, rfl⟩ := List.append_inj hbehind
      ((length_levels ..).trans (length_levels ..).symm)
    exact ⟨(hjoint.depth_eq hsymbol).symm, ⟨deep, hleft, hdeep⟩, deep', hright, hdeep'⟩
  | @outside note inner _ _ _ _ _ _ hrelation h =>
    obtain ⟨rfl, rfl, rfl, rfl⟩ := hjoint.unique (.negation note inner _ _ hrelation)
    rw [levels_cons_of_shows (shows_operator "not"), List.cons_append] at hls
    exact absurd hls (h.ne_outside hlength hends _ _ _)

end Laid

end FilterLang
