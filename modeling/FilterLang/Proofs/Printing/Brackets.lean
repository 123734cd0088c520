import FilterLang.Proofs.Grammar.Layouts
import FilterLang.Proofs.Printing.Points

/-!
# No bracket around an operator can be left out

Every pair of brackets that a canonical text has around two operands with an operator between them
is needed: without it the text is faulty, or it is the text of another tree.

* `Slot.laid` — the layout of an operand in the layout of a tree.
* `Pair.not_laid` — without the brackets the words are not laid out as the tree: the operator inside
  would have to be deeper than it is.
* `Pair.bare_ne_of_taken`, `Pair.bare_ne_of_point` — the text without the brackets, where it is cut
  into the same words, and where a number takes the dot behind the brackets along.
* `exists_pair` — the pairs are all the brackets of a canonical text.
* `brackets_needed` — each of those brackets is needed.
-/

namespace FilterLang

open Scanner Piece

/-! ### The layout of an operand -/

/-- How the words of a tree end. -/
theorem endsAs_words {t : Expr} (h : t.Printable) :
    EndsAs t.bare.lastField ((t.words [space]).filter shows) := by
  obtain ⟨depth, hlaid⟩ := laid_words h
  rw [← map_fst_levels 0]
  exact hlaid.endsAs

/-- Words that stand for those of an operand: they are in their own brackets and show the same. -/
structure StandsFor (operand : Expr) (ws : List Word) : Prop where
  balanced : Balanced ws
  shown : ws.filter shows = (operand.words [space]).filter shows

section

variable {t n left right operand : Expr} {symbol opening closing before after : Piece}
  {operator : String} {due : Bool} {depth outer : Nat} {ws vs : List Word}

theorem Sized.standsFor (h : Sized operand (operand.words [space])) :
    StandsFor operand (operand.words [space]) :=
  ⟨h.balanced, rfl⟩

theorem StandsFor.bracketWords (h : StandsFor operand ws) (due : Bool) :
    StandsFor operand (Expr.bracketWords due ws) :=
  ⟨h.balanced.bracketWords due, (filter_bracketWords due ws).trans h.shown⟩

/-- The words of a well-formed tree stand for it. -/
theorem standsFor_words (h : t.WellFormed) : StandsFor t (t.words [space]) :=
  (sized_words h.printable.legible).standsFor

/-- The layout of two operands with an operator between them. -/
theorem Joint.laid (hjoint : Joint t symbol operator left right) (ht : t.WellFormed)
    (hws : StandsFor left ws) (h : Laid t.bare depth
      (levels outer (ws ++ ([space] ++ (symbol.words ++ ([space] ++ vs)))))) :
    depth = outer ∧
      (∃ deep, Laid left.bare deep (levels outer ws) ∧
        Deeper (left.binding.needsBracketsLeftOf operator) left.bare depth deep) ∧
      ∃ deep, Laid right.bare deep (levels outer vs) ∧
        Deeper (right.binding.needsBracketsRightOf operator) right.bare depth deep := by
  have hleft := (hjoint.wellFormed ht).1.printable
  have hlevels : levels outer (ws ++ ([space] ++ (symbol.words ++ ([space] ++ vs)))) =
      levels outer ws ++ (levels outer symbol.words ++ levels outer vs) := by
    rw [hws.balanced, balanced_space, hjoint.shows_symbol.1, balanced_space]
    rfl
  have hlength : (levels outer ws).length = left.bare.size := by
    rw [length_levels, hws.shown, (sized_words hleft.legible).length, left.size_bare]
  have hends : EndsAs left.bare.lastField ((levels outer ws).map Prod.fst) := by
    rw [map_fst_levels, hws.shown]
    exact endsAs_words hleft
  rw [hlevels] at h
  have hparts := h.of_joint hjoint.bare hlength hends
  rwa [left.binding_bare, right.binding_bare] at hparts

/-- **The layout of an operand in the layout of a tree.**  Other words may stand for the operand. -/
theorem Slot.laid (hslot : Slot t opening due operand closing) (ht : t.WellFormed)
    (hws : StandsFor operand ws)
    (h : Laid t.bare depth (levels outer (opening.words ++ (ws ++ closing.words)))) :
    depth = outer ∧ ∃ deep, Laid operand.bare deep (levels outer ws) ∧
      Deeper due operand.bare outer deep := by
  cases hslot with
  | left hjoint =>
    obtain ⟨rfl, hleft, -⟩ := hjoint.laid ht hws h
    exact ⟨rfl, hleft⟩
  | @right t left right symbol operator hjoint =>
    have hleft := standsFor_words (hjoint.wellFormed ht).1
    have hwords : (Piece.bracket (left.binding.needsBracketsLeftOf operator) (ofTree left) ++
        (gap ++ (symbol ++ gap))).words ++ (ws ++ empty.words) =
        Expr.bracketWords (left.binding.needsBracketsLeftOf operator) (left.words [space]) ++
          ([space] ++ (symbol.words ++ ([space] ++ ws))) := by
      simp [Piece.bracket, ofTree, gap, empty]
    rw [hwords] at h
    obtain ⟨rfl, -, hright⟩ := hjoint.laid ht (hleft.bracketWords _) h
    exact ⟨rfl, hright⟩
  | @prefixed note operator operand hplain =>
    have hsign : shows (.operator, operator) = true := shows_operator operator
    have hlevels : levels outer (Expr.prefixWords [space] operator ++ (ws ++ [])) =
        ((.operator, operator), outer) :: levels outer ws := by
      rw [Expr.prefixWords, List.cons_append, levels_cons_of_shows hsign, List.append_nil]
      split_ifs
      · rfl
      · rfl
    have hall : Laid (.unary {} operator operand.bare) depth
        (levels outer (Expr.prefixWords [space] operator ++ (ws ++ []))) := h
    rw [hlevels] at hall
    obtain ⟨rfl, hoperand⟩ := hall.of_prefixed hplain.bare
    rw [operand.binding_bare] at hoperand
    exact ⟨rfl, hoperand⟩
  | object note inner object name method =>
    have hall : Laid (.member {} operand.bare (.identifier {} name) method) depth
        (levels outer ([] ++ (ws ++ [(.operator, "."), (Expr.kindOfName name, name)]))) := h
    rw [List.nil_append, hws.balanced, levels_cons_of_shows (shows_operator "."),
      levels_singleton (shows_kindOfName name)] at hall
    obtain ⟨rfl, deep, hobject, hdeep⟩ := hall.of_field
    exact ⟨rfl, deep, hobject, fun _ => hdeep rfl⟩

/-- The operator of a joint stands at the depth where its words begin. -/
theorem depth_eq_of_isJoint (hn : n.isJoint = true) (ht : n.WellFormed)
    (h : Laid n.bare depth (levels outer (n.words [space]))) : depth = outer := by
  obtain ⟨symbol, operator, left, right, hjoint⟩ := Expr.exists_joint hn
  have hleft := standsFor_words (hjoint.wellFormed ht).1
  have hwords : n.words [space] = _ := congrArg Piece.words hjoint.piece
  rw [hwords] at h
  exact (hjoint.laid ht (hleft.bracketWords _) h).1

/-! ### The layout without a pair of brackets -/

theorem words_inside (opening closing before after : Piece) (due : Bool) (ws : List Word) :
    (opening ++ (opened due ++ before)).words ++ (ws ++ (after ++ (closed due ++ closing)).words) =
      opening.words ++ (Expr.bracketWords due (before.words ++ (ws ++ after.words)) ++
        closing.words) := by
  cases due with
  | false => simp [opened, closed, empty, Expr.bracketWords]
  | true => simp [opened, closed, Expr.bracketWords]

theorem Slot.balanced (h : Slot t opening due operand closing) (ht : t.WellFormed) :
    Balanced opening.words ∧ Balanced closing.words := by
  cases h with
  | left h =>
    have hright := (standsFor_words (h.wellFormed ht).2.1).balanced
    exact ⟨balanced_nil, balanced_space.append (h.shows_symbol.1.append
      (balanced_space.append (hright.bracketWords _)))⟩
  | right h =>
    have hleft := (standsFor_words (h.wellFormed ht).1).balanced
    exact ⟨(hleft.bracketWords _).append (balanced_space.append
      (h.shows_symbol.1.append balanced_space)), balanced_nil⟩
  | prefixed => exact ⟨balanced_prefixWords _, balanced_nil⟩
  | object note inner object name method =>
    exact ⟨balanced_nil, (balanced_singleton (shows_operator ".")).append
      (balanced_singleton (shows_kindOfName name))⟩

/-- Without a pair of brackets the words still stand for the tree. -/
theorem Pair.standsFor (h : Pair t before n after) (ht : t.WellFormed) :
    StandsFor t (before.words ++ (n.words [space] ++ after.words)) := by
  constructor
  · induction h with
    | here h =>
      obtain ⟨hopening, hclosing⟩ := h.balanced ht
      exact hopening.append ((standsFor_words (h.wellFormed ht)).balanced.append hclosing)
    | @inside t operand n opening closing before after due h _ ih =>
      obtain ⟨hopening, hclosing⟩ := h.balanced ht
      have hinside := (ih (h.wellFormed ht)).bracketWords due
      rw [words_inside]
      exact hopening.append (hinside.append hclosing)
  · have hwords : t.words [space] = _ := congrArg Piece.words h.piece
    rw [hwords]
    simp only [words_append, List.filter_append]
    show _ = _ ++ ((Expr.bracketWords true (n.words [space])).filter shows ++ _)
    rw [filter_bracketWords]

/-- **Without a pair of brackets around a joint the words are not laid out as the tree.**  The
operator inside has no more brackets around it than the one outside. -/
theorem Pair.not_laid (h : Pair t before n after) (ht : t.WellFormed) (hn : n.isJoint = true) :
    ∀ {depth outer},
      ¬ Laid t.bare depth (levels outer (before.words ++ (n.words [space] ++ after.words))) := by
  induction h with
  | @here t n opening closing h =>
    intro depth outer hlaid
    obtain ⟨-, deep, hoperand, hdeep⟩ := h.laid ht (standsFor_words (h.wellFormed ht)) hlaid
    have hsame := depth_eq_of_isJoint hn (h.wellFormed ht) hoperand
    have hlt := hdeep rfl (by rw [n.isJoint_bare, hn])
    exact absurd hsame (Nat.ne_of_gt hlt)
  | @inside t operand n opening closing before after due h hpair ih =>
    intro depth outer hlaid
    have hstands := hpair.standsFor (h.wellFormed ht)
    rw [words_inside] at hlaid
    obtain ⟨-, deep, hoperand, -⟩ := h.laid ht (hstands.bracketWords due) hlaid
    rw [levels_bracketWords hstands.balanced] at hoperand
    exact ih (h.wellFormed ht) hn hoperand

/-! ### The text without a pair of brackets -/

/-- Where the text without a pair of brackets is cut into the same words, it is the text of another
tree. -/
theorem Pair.bare_ne_of_taken (h : Pair t before n after) (ht : t.WellFormed)
    (hn : n.isJoint = true) (htaken : (before ++ (ofTree n ++ after)).Taken []) {e : Expr}
    (hread : readTree (before ++ (ofTree n ++ after)).text = .ok e) : e.bare ≠ t.bare := by
  intro hbare
  have hsize : ((before ++ (ofTree n ++ after)).words.filter shows).length = e.size := by
    have hshown := (h.standsFor ht).shown
    rw [← e.size_bare, hbare, t.size_bare, ← (sized_words ht.printable.legible).length, ← hshown]
    rfl
  obtain ⟨depth, hlaid⟩ := laid_of_readTree hread htaken hsize
  rw [hbare] at hlaid
  exact h.not_laid ht hn hlaid

/-- Where a number takes the dot behind the brackets along, a field is lost. -/
theorem Pair.bare_ne_of_point (h : Pair t before n after) {front more : Piece} {k : Nat}
    {name : String} (hname : IsWord name.toList) (hafter : after = field name ++ more)
    (hmore : more.Taken []) (hfollow : MayFollow true more.text.toList)
    (hfront : ofTree n = front ++ number k)
    (htaken : ∀ rest, (before ++ front).Taken ((number k).text.toList ++ rest)) {e : Expr}
    (hread : readTree (before ++ (ofTree n ++ after)).text = .ok e) : e.bare ≠ t.bare := by
  intro hbare
  have hcut : before ++ (ofTree n ++ after) =
      (before ++ front) ++ (number k ++ (field name ++ more)) := by
    simp only [hfront, hafter, append_assoc]
  have hkept : e.marks.map Prod.fst = (before ++ (ofTree n ++ after)).kept := by
    rw [← e.marks_bare, hbare, t.marks_bare, ← kept_ofTree, h.piece]
    simp only [kept_append, kept_bracket]
  rw [hcut] at hread hkept
  exact kept_ne_of_point htaken hname hmore hfollow hread hkept

/-- **Without a pair of brackets around a joint the text is the text of another tree**, if it is
read at all. -/
theorem Pair.bare_ne (h : Pair t before n after) (ht : t.WellFormed) (hn : n.isJoint = true)
    {e : Expr} (hread : readTree (before ++ (ofTree n ++ after)).text = .ok e) :
    e.bare ≠ t.bare := by
  have hprintable := (h.wellFormed ht).printable
  have hend : MayFollow t.takesDot [] := nofun
  obtain ⟨hafter, hfollow⟩ := h.taken_after ht hend
  have hbefore : ∀ rest, before.Taken ((ofTree n).text.toList ++ rest) := fun rest =>
    (h.taken_before ht ((starts_print hprintable.legible).append rest)).2
  have hsame : (ofTree n).Taken (after.text.toList ++ []) → e.bare ≠ t.bare := by
    intro hoperand
    refine h.bare_ne_of_taken ht hn (Taken.append ?_ (hoperand.append hafter)) hread
    rw [text_append, toList_append, List.append_assoc]
    exact hbefore _
  rcases hfollow with hfollow | ⟨name, more, hfield, hname, hmore, hfollow⟩
  · exact hsame (takes_print hprintable _ hfollow.mono)
  · rcases trails_ofTree (h.wellFormed ht) with hdot | ⟨front, k, hnumber, hfront⟩
    · refine hsame (hdot _ ?_)
      rw [hfield, text_append, toList_append, List.append_assoc]
      exact mayFollow_field name _
    · rw [List.append_nil] at hfollow
      refine h.bare_ne_of_point hname hfield hmore hfollow hnumber (fun rest => ?_) hread
      refine Taken.append ?_ (hfront rest)
      have hall := hbefore rest
      rwa [hnumber, text_append, toList_append, List.append_assoc] at hall

end

/-- Every opening bracket of a canonical text belongs to a pair. -/
theorem exists_pair {t : Expr} (ht : t.WellFormed) {ws vs : List Word}
    (h : (scan t.print).tokens.map Token.word = ws ++ (.bracket, "(") :: vs) :
    ∃ before n after, Pair t before n after ∧ before.words = ws := by
  obtain ⟨-, front, last, htokens, hwords, hlast⟩ :=
    scan_of_takes (takes_print ht.printable [] nofun)
  rw [htokens, List.map_append, hwords, List.map_singleton] at h
  rcases append_eq_append_cons h with ⟨us, hus, -⟩ | ⟨us, -, hend⟩
  · exact paired_of_legible ht.printable.legible ws us hus
  · have hmem : (.bracket, "(") ∈ [last.word] := hend ▸ List.mem_append_cons_self
    have hkind : TokenKind.bracket = last.kind := congrArg Prod.fst (List.mem_singleton.mp hmem)
    rw [hlast] at hkind
    cases hkind

/-- **No bracket around an operator can be left out.**  The canonical text of a well-formed tree has
only brackets around operands: each opening one belongs to a pair.  Take any pair around two
operands with an operator between them, which may have a `not` in front of it.  Without that pair
the text has a fault, or the strict reading finds one, or it is read as another tree, places and
natures aside. -/
theorem brackets_needed {t : Expr} (ht : t.WellFormed) :
    (∀ ws vs, (scan t.print).tokens.map Token.word = ws ++ (.bracket, "(") :: vs →
      ∃ before n after, Pair t before n after ∧ before.words = ws) ∧
    ∀ before n after, Pair t before n after →
      t.print = before.text ++ ("(" ++ n.print ++ ")" ++ after.text) ∧
      (n.isJoint = true →
        let text := before.text ++ (n.print ++ after.text)
        (scan text).fault ≠ none ∨ (∃ stop, parseStrict (scan text).tokens = .error stop) ∨
          ∃ e, parseStrict (scan text).tokens = .ok e ∧ e.bare ≠ t.bare) := by
  refine ⟨fun ws vs h => exists_pair ht h, fun before n after hpair => ?_⟩
  refine ⟨congrArg Piece.text hpair.piece, ?_⟩
  intro hn text
  by_cases hfault : (scan text).fault = none
  · cases hparse : parseStrict (scan text).tokens with
    | error stop => exact .inr (.inl ⟨stop, rfl⟩)
    | ok e =>
      exact .inr (.inr ⟨e, rfl, hpair.bare_ne ht hn (readTree_of_parseStrict hfault hparse)⟩)
  · exact .inl hfault

/-- The brackets of `a not in (b or c)`. -/
theorem brackets_needed_or :
    let inner : Expr := .binary {} "or" (.identifier {} "b") (.identifier {} "c")
    let t : Expr := .unary {} "not" (.binary {} "in" (.identifier {} "a") inner)
    t.WellFormed ∧ t.print = "a not in (b or c)" ∧
      let text := "a not in b or c"
      (scan text).fault ≠ none ∨ (∃ stop, parseStrict (scan text).tokens = .error stop) ∨
        ∃ e, parseStrict (scan text).tokens = .ok e ∧ e.bare ≠ t.bare := by
  intro inner t
  have hname : ∀ name ∈ ["a", "b", "c"], IsWord name.toList ∧ name ∉ keywords := by decide
  have ht : t.WellFormed :=
    ⟨by decide, rfl, hname "a" (by decide), rfl, hname "b" (by decide), hname "c" (by decide)⟩
  have hin : Operator.isNegatable "in" = true := rfl
  have hpair : Pair t _ inner _ :=
    .here (Slot.right (.negation {} {} (.identifier {} "a") inner hin))
  obtain ⟨htext, hneeded⟩ := (brackets_needed ht).2 _ _ _ hpair
  exact ⟨ht, htext, hneeded rfl⟩

end FilterLang
