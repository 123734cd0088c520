import FilterLang.Proofs.Grammar.Language

/-!
# What a production sees of the tokens behind it

A production reads some tokens and looks one token further, or two where the first of them is a
`not`.  So it does the same in front of all lists that start alike, and it does the same in front of
all tokens that are no operators.

* `Replaces` — the productions that end in front of one list end in front of another as well.
* `replaces_plain`, `replaces_head`, `replaces_pair`, `replaces_dangling` — lists that replace each
  other.
* `Reads.replace` — what is read in front of a list is read in front of what replaces it, and holds
  no end of the text.
* `reads_in_front` — what is read as a whole text is read in front of any token that is no operator.
-/

namespace FilterLang

namespace Grammar

/-! ### Lists that replace each other -/

/-- Where a production ends in front of the tokens `us`, it ends in front of the tokens `vs`. -/
structure Replaces (us vs : List Token) : Prop where
  ne_nil : vs ≠ []
  refuses {least : Nat} : Refuses least us → Refuses least vs
  behind {least : Nat} {t : Token} : Refuses least (t :: us) → Refuses least (t :: vs)
  noDot : NoDot us → NoDot vs
  noComparison : (∀ u ∈ us.head?, ¬ isComparison u) → ∀ v ∈ vs.head?, ¬ isComparison v

/-- Whether a token is a `not`. -/
def IsNot (t : Token) : Prop := t.kind = .operator ∧ t.value = "not"

theorem IsNot.not_isNegatable {t : Token} (h : IsNot t) : isNegatable t = false := by
  rw [isNegatable, h.2]
  exact Bool.and_eq_false_imp.mpr fun _ => rfl

theorem not_isNot_of_isDot {t : Token} (h : IsDot t) : ¬ IsNot t := by
  intro hnot
  rw [IsDot, hnot.2] at h
  exact absurd h.2 (by decide)

theorem not_isNot_of_isComparison {t : Token} (h : isComparison t) : ¬ IsNot t := by
  intro hnot
  rw [isComparison, hnot.2, Bool.and_eq_true] at h
  exact absurd h.2 (by decide)

theorem not_isNegatable_of_kind {t : Token} (h : t.kind ≠ .operator) : isNegatable t = false := by
  rw [isNegatable, beq_eq_false_iff_ne.mpr h]
  rfl

theorem not_isComparison_of_kind {t : Token} (h : t.kind ≠ .operator) : ¬ isComparison t := by
  rw [isComparison, beq_eq_false_iff_ne.mpr h]
  exact Bool.false_ne_true

section Refuses

variable {least : Nat} {t u : Token} {us : List Token}

/-- What is behind two tokens does not count. -/
theorem Refuses.behind_pair (h : Refuses least (t :: u :: us)) (vs : List Token) :
    Refuses least (t :: u :: vs) := by
  cases h with
  | kind hkind => exact .kind hkind
  | plain hkind hnot hahead => exact .plain hkind hnot hahead
  | negated hkind hnot hrelation hahead => exact .negated hkind hnot hrelation hahead

/-- What is behind one token does not count, unless that is a `not`. -/
theorem Refuses.behind_head (h : Refuses least (t :: us)) (ht : ¬ IsNot t) (vs : List Token) :
    Refuses least (t :: vs) := by
  cases h with
  | kind hkind => exact .kind hkind
  | plain hkind hnot hahead => exact .plain hkind hnot hahead
  | negated hkind hnot => exact absurd ⟨hkind, hnot⟩ ht

/-- What is behind one token does not count, unless that is a relation. -/
theorem Refuses.behind_plain (h : Refuses least (t :: u :: us)) (hu : isNegatable u = false)
    (vs : List Token) : Refuses least (t :: vs) := by
  cases h with
  | kind hkind => exact .kind hkind
  | plain hkind hnot hahead => exact .plain hkind hnot hahead
  | negated _ _ hrelation =>
    rw [hu] at hrelation
    cases hrelation

end Refuses

namespace Replaces

variable {us vs : List Token}

/-- One token further, a production sees less. -/
theorem cons (h : Replaces us vs) (t : Token) : Replaces (t :: us) (t :: vs) where
  ne_nil := nofun
  refuses := h.behind
  behind hrefuses := hrefuses.behind_pair vs
  noDot := id
  noComparison := id

theorem append (h : Replaces us vs) (ws : List Token) : Replaces (ws ++ us) (ws ++ vs) := by
  induction ws with
  | nil => exact h
  | cons t ws ih => exact ih.cons t

end Replaces

/-- A token that is no operator replaces every token that is no relation. -/
theorem replaces_plain {u v : Token} (hu : isNegatable u = false) (hv : v.kind ≠ .operator)
    (us vs : List Token) : Replaces (u :: us) (v :: vs) where
  ne_nil := nofun
  refuses _ := .kind hv
  behind h := h.behind_plain hu _
  noDot _ hdot := hv hdot.1
  noComparison _ w hw := by
    cases hw
    exact not_isComparison_of_kind hv

/-- Behind one token other than a `not`, nothing is seen. -/
theorem replaces_head {t : Token} (ht : ¬ IsNot t) (us vs : List Token) :
    Replaces (t :: us) (t :: vs) where
  ne_nil := nofun
  refuses h := h.behind_head ht vs
  behind h := h.behind_pair vs
  noDot := id
  noComparison := id

/-- Behind two tokens nothing is seen. -/
theorem replaces_pair (t u : Token) (us vs : List Token) :
    Replaces (t :: u :: us) (t :: u :: vs) where
  ne_nil := nofun
  refuses h := h.behind_pair vs
  behind h := h.behind_pair _
  noDot := id
  noComparison := id

/-- No production ends in front of a `not` without a relation behind it. -/
theorem replaces_dangling {t u : Token} (ht : IsNot t) (hu : isNegatable u = false)
    (us vs : List Token) : Replaces (t :: u :: us) (t :: vs) where
  ne_nil := nofun
  refuses h := h.behind_plain hu vs
  behind h := h.behind_plain ht.not_isNegatable _
  noDot := id
  noComparison := id

/-! ### What is read -/

theorem not_endsText_of_kind {t : Token} {kind : TokenKind} (h : t.kind = kind)
    (hplain : kind ≠ .eof ∧ kind ≠ .caret := by decide) : ¬ t.EndsText := by
  rintro (ht | ht)
  · exact hplain.1 (h.symm.trans ht)
  · exact hplain.2 (h.symm.trans ht)

/-- No token of the list ends a text. -/
def NoEnd (ts : List Token) : Prop := ∀ t ∈ ts, ¬ t.EndsText

theorem noEnd_nil : NoEnd [] := nofun

theorem NoEnd.append {ts us : List Token} (hts : NoEnd ts) (hus : NoEnd us) : NoEnd (ts ++ us) := by
  intro t ht
  rcases List.mem_append.mp ht with ht | ht
  · exact hts t ht
  · exact hus t ht

theorem NoEnd.cons {t : Token} {ts : List Token} (h : NoEnd ts) (ht : ¬ t.EndsText) :
    NoEnd (t :: ts) := by
  rintro u (_ | ⟨_, hu⟩)
  · exact ht
  · exact h u hu

theorem NoEnd.cons_of_kind {t : Token} {ts : List Token} {kind : TokenKind} (h : NoEnd ts)
    (hkind : t.kind = kind) (hplain : kind ≠ .eof ∧ kind ≠ .caret := by decide) :
    NoEnd (t :: ts) :=
  h.cons (not_endsText_of_kind hkind hplain)

theorem kind_of_prefixPower? {t : Token} {power : Nat} (h : t.prefixPower? = some power) :
    t.kind = .operator := by
  rw [Token.prefixPower?] at h
  split at h
  · assumption
  · cases h

theorem kind_of_isNegatable {t : Token} (h : isNegatable t) : t.kind = .operator := by
  rw [isNegatable, Bool.and_eq_true, beq_iff_eq] at h
  exact h.1

theorem kind_of_isComparison {t : Token} (h : isComparison t) : t.kind = .operator := by
  rw [isComparison, Bool.and_eq_true, beq_iff_eq] at h
  exact h.1

/-- The tokens of an operator are one whatever is behind them, and what is behind them is not
seen. -/
theorem Offers.replace {least : Nat} {ts us : List Token} {ahead : Ahead}
    (h : Offers least ts ahead us) :
    ∃ op, ts = op ++ us ∧ NoEnd op ∧
      ∀ vs, Offers least (op ++ vs) ahead vs ∧ Replaces (op ++ us) (op ++ vs) := by
  cases h with
  | @plain t us ahead hkind hnot hahead =>
    exact ⟨[t], rfl, noEnd_nil.cons_of_kind hkind,
      fun vs => ⟨.plain hkind hnot hahead, replaces_head (hnot ·.2) us vs⟩⟩
  | @negated t relation us ahead hkind hnot hrelation hahead =>
    have hnoEnd : NoEnd [relation] := noEnd_nil.cons_of_kind (kind_of_isNegatable hrelation)
    exact ⟨[t, relation], rfl, hnoEnd.cons_of_kind hkind,
      fun vs => ⟨.negated hkind hnot hrelation hahead, replaces_pair t relation us vs⟩⟩

/-- **What is read depends on what is seen.**  A production reads some tokens, none of which ends the
text, and it reads them to the same tree in front of everything that replaces what it leaves. -/
theorem Reads.replace {g : Goal} {ts us : List Token} {e : Expr} (h : Reads g ts e us) :
    ∃ ws, ts = ws ++ us ∧ NoEnd ws ∧
      ∀ {vs}, Replaces us vs → Reads g (ws ++ vs) e vs := by
  induction h with
  | expression _ _ ihoperand ihoperators =>
    obtain ⟨ws, rfl, hws, hoperand⟩ := ihoperand
    obtain ⟨xs, rfl, hxs, hoperators⟩ := ihoperators
    -- the operand ends in front of the operators, which are the same in both lists
    refine ⟨ws ++ xs, (List.append_assoc _ _ _).symm, hws.append hxs, fun {vs} h => ?_⟩
    rw [List.append_assoc]
    exact .expression (hoperand (h.append xs)) (hoperators h)
  | stop hrefuses => exact ⟨[], rfl, noEnd_nil, fun h => .stop (h.refuses hrefuses)⟩
  | binary hoffers hplain _ _ ihright ihoperators =>
    obtain ⟨op, rfl, hop, hagain⟩ := hoffers.replace
    obtain ⟨ws, rfl, hws, hright⟩ := ihright
    obtain ⟨xs, rfl, hxs, hoperators⟩ := ihoperators
    refine ⟨op ++ (ws ++ xs), by simp only [List.append_assoc],
      hop.append (hws.append hxs), fun {vs} h => ?_⟩
    rw [List.append_assoc, List.append_assoc]
    exact .binary (hagain _).1 hplain (hright (h.append xs)) (hoperators h)
  | comparison hoffers hcomparison _ _ ihchain ihoperators =>
    obtain ⟨op, rfl, hop, hagain⟩ := hoffers.replace
    obtain ⟨ws, rfl, hws, hchain⟩ := ihchain
    obtain ⟨xs, rfl, hxs, hoperators⟩ := ihoperators
    refine ⟨op ++ (ws ++ xs), by simp only [List.append_assoc],
      hop.append (hws.append hxs), fun {vs} h => ?_⟩
    rw [List.append_assoc, List.append_assoc]
    exact .comparison (hagain _).1 hcomparison (hchain (h.append xs)) (hoperators h)
  | @prefixed t power us vs ws inner e hpower _ _ ihinner ihfields =>
    obtain ⟨xs, rfl, hxs, hinner⟩ := ihinner
    obtain ⟨ys, rfl, hys, hfields⟩ := ihfields
    refine ⟨t :: (xs ++ ys), by simp, (hxs.append hys).cons_of_kind (kind_of_prefixPower? hpower),
      fun {vs} h => ?_⟩
    rw [List.cons_append, List.append_assoc]
    exact .prefixed hpower (hinner (h.append ys)) (hfields h)
  | @bracketed t close us vs ws inner e hopen _ hclose _ ihinner ihfields =>
    obtain ⟨xs, rfl, hxs, hinner⟩ := ihinner
    obtain ⟨ys, rfl, hys, hfields⟩ := ihfields
    refine ⟨t :: (xs ++ close :: ys), by simp,
      (hxs.append (hys.cons_of_kind (kind_of_is hclose))).cons_of_kind (kind_of_is hopen),
      fun {vs} h => ?_⟩
    rw [List.cons_append, List.append_assoc]
    exact .bracketed hopen (hinner ((h.append ys).cons close)) hclose (hfields h)
  | @constant t u us e hkind hconstant =>
    refine ⟨[t], rfl, noEnd_nil.cons_of_kind hkind, fun {vs} h => ?_⟩
    obtain ⟨v, vs, rfl⟩ := List.exists_cons_of_ne_nil h.ne_nil
    exact .constant hkind hconstant
  | @name t us vs e hkind hconstant _ ih =>
    obtain ⟨ws, rfl, hws, hfields⟩ := ih
    exact ⟨t :: ws, rfl, hws.cons_of_kind hkind, fun h => .name hkind hconstant (hfields h)⟩
  | @number t u us value hkind hvalue =>
    refine ⟨[t], rfl, noEnd_nil.cons_of_kind hkind, fun {vs} h => ?_⟩
    obtain ⟨v, vs, rfl⟩ := List.exists_cons_of_ne_nil h.ne_nil
    exact .number hkind hvalue
  | @string t us vs e hkind _ ih =>
    obtain ⟨ws, rfl, hws, hfields⟩ := ih
    exact ⟨t :: ws, rfl, hws.cons_of_kind hkind, fun h => .string hkind (hfields h)⟩
  | @chainEnd power t next ts us left right before _ hnext ih =>
    obtain ⟨ws, rfl, hws, hright⟩ := ih
    refine ⟨ws, rfl, hws, fun {vs} h => ?_⟩
    -- the chain would go on in front of a comparison, even where the comparand ends
    have hcalm := h.noComparison fun u hu => by
      cases hu
      exact hnext
    obtain ⟨v, vs, rfl⟩ := List.exists_cons_of_ne_nil h.ne_nil
    exact .chainEnd (hright h) (hcalm v rfl)
  | @chainMore power t next ts us vs left right e before _ hnext _ ihright ihchain =>
    obtain ⟨ws, rfl, hws, hright⟩ := ihright
    obtain ⟨xs, rfl, hxs, hchain⟩ := ihchain
    refine ⟨ws ++ next :: xs, by simp,
      hws.append (hxs.cons_of_kind (kind_of_isComparison hnext)), fun {vs} h => ?_⟩
    rw [List.append_assoc]
    exact .chainMore (hright ((h.append xs).cons next)) hnext (hchain h)
  | @field t property us vs value e hdot hproperty _ ih =>
    obtain ⟨ws, rfl, hws, hfields⟩ := ih
    have hnoEnd : NoEnd (property :: ws) :=
      hproperty.elim (hws.cons_of_kind ·) (hws.cons_of_kind ·)
    exact ⟨t :: property :: ws, rfl, hnoEnd.cons_of_kind (kind_of_is hdot),
      fun h => .field hdot hproperty (hfields h)⟩
  | @noField t us value hdot =>
    refine ⟨[], rfl, noEnd_nil, fun {vs} h => ?_⟩
    have hnodot := h.noDot fun hdot' => hdot ((isDot_iff t).mp hdot')
    obtain ⟨v, vs, rfl⟩ := List.exists_cons_of_ne_nil h.ne_nil
    exact .noField fun hdot' => hnodot ((isDot_iff v).mpr hdot')

/-- The tree of a name that has no fields behind it. -/
def nameTree (t : Token) : Expr := (constant? t).getD (.identifier (.at t.location) t.value)

theorem reads_name {t : Token} {us : List Token} (hkind : t.kind = .identifier) (hdot : NoDot us)
    (hne : us ≠ []) : Reads .operand (t :: us) (nameTree t) us := by
  obtain ⟨u, us, rfl⟩ := List.exists_cons_of_ne_nil hne
  rw [nameTree]
  cases hconstant : constant? t with
  | some e => exact .constant hkind hconstant
  | none => exact .name hkind hconstant (.noField fun h => hdot ((isDot_iff u).mpr h))

/-! ### Whole texts -/

theorem solid_append (ts us : List Token) : solid (ts ++ us) = solid ts ++ solid us :=
  List.filter_append ts us

theorem solid_cons {t : Token} (h : t.kind ≠ .whitespace) (ts : List Token) :
    solid (t :: ts) = t :: solid ts := by
  rw [solid, List.filter_cons_of_pos (by simpa [Token.isBlank] using h)]
  rfl

/-- The first end of a text is behind all the tokens that do not end it. -/
theorem eq_of_noEnd {ts us vs ws : List Token} {t u : Token}
    (h : ts ++ t :: vs = us ++ u :: ws) (hts : NoEnd ts) (ht : t.EndsText) (hus : NoEnd us)
    (hu : u.EndsText) : ts = us ∧ t = u ∧ vs = ws := by
  induction ts generalizing us with
  | nil =>
    cases us with
    | nil =>
      rw [List.nil_append, List.nil_append, List.cons_eq_cons] at h
      exact ⟨rfl, h⟩
    | cons x us =>
      rw [List.nil_append, List.cons_append, List.cons_eq_cons] at h
      exact absurd ht (h.1 ▸ hus x List.mem_cons_self)
  | cons x ts ih =>
    cases us with
    | nil =>
      rw [List.nil_append, List.cons_append, List.cons_eq_cons] at h
      exact absurd hu (h.1 ▸ hts x List.mem_cons_self)
    | cons y us =>
      rw [List.cons_append, List.cons_append, List.cons_eq_cons] at h
      obtain ⟨rfl, h⟩ := h
      obtain ⟨rfl, htail⟩ := ih h (fun w hw => hts w (.tail _ hw)) fun w hw => hus w (.tail _ hw)
      exact ⟨rfl, htail⟩

theorem NoEnd.solid {ts : List Token} (h : NoEnd ts) : NoEnd (solid ts) :=
  fun t ht => h t (List.mem_of_mem_filter ht)

/-- **What is read as a whole text** is read in front of any token that is no operator. -/
theorem reads_in_front {ts : List Token} {last : Token} {e : Expr} (hlast : last.EndsText)
    (hts : NoEnd ts) (h : parse (ts ++ [last]) = ⟨some e, none⟩) {v : Token}
    (hv : v.kind ≠ .operator) (vs : List Token) :
    Reads (.expression 0) (FilterLang.solid ts ++ v :: vs) e (v :: vs) := by
  have hterminates : Terminates (ts ++ [last]) :=
    terminates_of_last List.getLast?_concat hlast.opens
  obtain ⟨tree, t, us, htree, hreads, ht⟩ := reads_of_parse hterminates (by rw [h])
  rw [h] at htree
  cases htree
  obtain ⟨ws, hws, hnoEnd, hreplace⟩ := hreads.replace
  -- what is read goes up to the first end, and that is the last token
  rw [solid_append_end hlast] at hws
  obtain ⟨rfl, rfl, -⟩ := eq_of_noEnd hws hts.solid hlast hnoEnd ht
  exact hreplace (replaces_plain (not_isNegatable_of_kind (hlast.closed [])) hv _ _)

end Grammar

end FilterLang
