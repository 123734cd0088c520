import FilterLang.Proofs.Grammar.Viable

/-!
# What a text waits for where it breaks off

Put the caret in place of the last name of a text.  Then a strict reading stops there, and the
innermost open production is the one that the name completed.

* `Expr.awaited` — the production that waits for the last leaf of a tree.
* `Rooted` — an unbracketed relation is no operand of a prefix operator.
* `Pauses` — at the caret, a production stops with the awaited one open.
* `Ends`, `Reads.ends` — it does so wherever it ends in a name.
* `accepted_or_reads` — the last name of a text is read, unless the text ends in front of it.
* `parseStrict_of_last_name` — with the caret in its place, the strict reading stops there.
* `Expr.EndsIn` — the nodes on the way to the last leaf, and what `Expr.awaited` says of them.
* `top_of_last_name` — the innermost open production in terms of these nodes.
-/

namespace FilterLang

namespace Expr

/-- The production that waits for the last leaf of the tree, unless the tree is just this leaf.  It
is negated where a relation is the operand of a `not`. -/
def awaited (negated : Bool) : Expr → Option Frame
  | .binary _ operator left right =>
    (awaited false right).or (some (.binary left operator (negated && Operator.isNegatable operator)))
  | .unary _ operator operand => (awaited (operator == "not") operand).or (some (.unary operator))
  | .member _ object _ _ => some (.binary object "." false)
  | _ => none

/-- The root is a relation that `not` may precede. -/
def IsRelation : Expr → Prop
  | .binary _ operator _ _ => Operator.isNegatable operator
  | _ => False

theorem awaited_of_not_isRelation {e : Expr} (h : ¬ e.IsRelation) (negated : Bool) :
    e.awaited negated = e.awaited false := by
  cases e with
  | binary _ operator _ _ =>
    rw [awaited, awaited, Bool.eq_false_iff.mpr h, Bool.and_false, Bool.and_false]
  | _ => rfl

theorem not_isRelation_of_awaited {e : Expr} {negated : Bool} (h : e.awaited negated = none) :
    ¬ e.IsRelation := by
  cases e with
  | binary => simp [awaited] at h
  | _ => exact id

theorem awaited_nameTree (t : Token) (negated : Bool) :
    (Grammar.nameTree t).awaited negated = none := by
  rw [Grammar.nameTree, Grammar.constant?]
  split_ifs <;> rfl

end Expr

namespace Grammar

/-! ### A caret in place of the last name -/

/-- What the root of a tree can be.  In an expression an unbracketed relation asks for a small
power, so that no prefix operator has one as its operand. -/
def Rooted : Goal → Expr → Prop
  | .expression least, e | .operators least _, e => e.IsRelation → least ≤ 20
  | .operand, e => ¬ e.IsRelation
  | .chain _ _ token _, e => Operator.isComparison token.value → ¬ e.IsRelation
  | .fields _, e => ∃ note object property method, e = .member note object property method

/-- With the caret behind the tokens `ws`, the production stops there, and the innermost open
production is the one that waits for the last leaf of `e`. -/
structure Pauses (caret : Token) (g : Goal) (ts : List Token) (e : Expr) (ws : List Token) :
    Prop where
  stops : ∃ frames, Stops g (ws ++ [caret]) frames [caret] ∧ frames.head? = e.awaited false
  starts : Starts g ts (ws ++ [caret])
  rooted : Rooted g e

/-- The production reads some token in front of `us`, and pauses in place of the last one if that is
a name. -/
def Ends (caret : Token) (g : Goal) (ts : List Token) (e : Expr) (us : List Token) : Prop :=
  ∃ ws v, ts = ws ++ v :: us ∧ (v.kind = .identifier → Pauses caret g ts e ws)

/-- The production reads no token. -/
def Idle : Goal → Expr → Prop
  | .operators _ left, e => e = left
  | .fields value, e => e = value
  | _, _ => False

/-- If the called production pauses, so does the calling one. -/
theorem Ends.call {caret : Token} {g g' : Goal} {ts us vs : List Token} {opened : List Frame}
    {e e' : Expr} (h : Ends caret g' us e vs) (hcall : Calls g ts opened g' us)
    (hawaited : Rooted g' e → (e.awaited false).or opened.head? = e'.awaited false)
    (hrooted : Rooted g' e → Rooted g e') : Ends caret g ts e' vs := by
  obtain ⟨ws, v, rfl, hpauses⟩ := h
  obtain ⟨xs, rfl, hagain⟩ := hcall.replace
  refine ⟨xs ++ ws, v, (List.append_assoc _ _ _).symm, fun hv => ?_⟩
  obtain ⟨⟨frames, hstops, hframes⟩, hstarts, hroot⟩ := hpauses hv
  obtain ⟨hcall', hstarts'⟩ := hagain _ hstarts
  refine ⟨⟨frames ++ opened, ?_, ?_⟩, by rwa [List.append_assoc], hrooted hroot⟩
  · rw [List.append_assoc]
    exact .call hcall' hstops
  rw [List.head?_append, hframes, hawaited hroot]

/-- A production that was open already does not wait for the last leaf. -/
theorem or_head?_nil (frame : Option Frame) : frame.or ([] : List Frame).head? = frame :=
  Option.or_none

/-- Where a production ends in an operand without fields. -/
theorem ends_operand {caret : Token} (hcaret : caret.kind = .caret) {e : Expr}
    (he : e.awaited false = none) (v : Token) (us : List Token) :
    Ends caret .operand (v :: us) e us := by
  have hstart : ¬ StartsOperand caret := by
    simp [StartsOperand, Token.prefixPower?, Token.is, hcaret]
  exact ⟨[], v, rfl, fun _ =>
    ⟨⟨[], .dead (.operand hstart), he.symm⟩, trivial, Expr.not_isRelation_of_awaited he⟩⟩

/-- Where a production ends in a field. -/
theorem ends_field {caret t property : Token} (hcaret : caret.kind = .caret)
    (hdot : t.is .operator ".") (value : Expr) (us : List Token) :
    Ends caret (.fields value) (t :: property :: us) (.member (.at property.location) value
      (.identifier (.at property.location) property.value) false) us := by
  have hname : ¬ (caret.kind = .identifier ∨ caret.kind = .operator) := by
    rw [hcaret]
    nofun
  exact ⟨[t], property, rfl, fun _ => ⟨⟨_, .dead (.property hdot hname), rfl⟩,
    replaces_head (not_isNot_of_isDot ((isDot_iff t).mpr hdot)) _ _, _, _, _, _, rfl⟩⟩

/-- The tree of an operator waits for what the tree of its right side waits for. -/
theorem awaited_join {least : Nat} {ts us : List Token} {ahead : Ahead}
    (h : Offers least ts ahead us) (left right : Expr) :
    (right.awaited false).or (some (.binary left ahead.token.value ahead.negation.isSome)) =
      (ahead.join left right).awaited false := by
  cases h with
  | plain _ _ hahead =>
    rw [Ahead.join, (token_of_ofToken? hahead).2.1]
    rfl
  | negated _ _ hrelation hahead =>
    obtain ⟨htoken, hnegation, -⟩ := token_of_ofToken? hahead
    rw [isNegatable, Bool.and_eq_true, ← htoken] at hrelation
    rw [Ahead.join, hnegation]
    simp only [Expr.awaited, beq_self_eq_true, Bool.true_and, hrelation.2, Option.isSome_some,
      Option.or_assoc, Option.some_or]

theorem power_of_isRelation_join {least : Nat} {ts us : List Token} {ahead : Ahead}
    (h : Offers least ts ahead us) {left right : Expr}
    (hrelation : (ahead.join left right).IsRelation) : least ≤ 20 := by
  have hleast : ∀ {t : Token} {negation : Option Location},
      Ahead.ofToken? least t negation = some ahead → Operator.isNegatable ahead.token.value →
      least ≤ 20 := by
    intro t negation hahead hnegatable
    obtain ⟨rfl, -, hle, hpower⟩ := token_of_ofToken? hahead
    rw [Operator.binaryPower_of_isNegatable hnegatable] at hpower
    injection hpower with hpower
    omega
  cases h with
  | plain _ _ hahead =>
    rw [Ahead.join, (token_of_ofToken? hahead).2.1] at hrelation
    exact hleast hahead hrelation
  | negated _ _ _ hahead =>
    rw [Ahead.join, (token_of_ofToken? hahead).2.1] at hrelation
    exact hrelation.elim

theorem awaited_conjoin (before : Option Expr) (t : Token) (left right : Expr) :
    (right.awaited false).or (some (.binary left t.value false)) =
      (conjoin before t left right).awaited false := by
  cases before with
  | none => rfl
  | some before => simp [conjoin, Expr.awaited]

theorem not_isRelation_conjoin {t : Token} (ht : Operator.isComparison t.value)
    (before : Option Expr) (left right : Expr) : ¬ (conjoin before t left right).IsRelation := by
  intro hrelation
  cases before with
  | none =>
    have hnegatable : Operator.isNegatable t.value := hrelation
    rw [Operator.isNegatable_of_isComparison ht] at hnegatable
    cases hnegatable
  | some before =>
    have hnegatable : Operator.isNegatable "&&" := hrelation
    exact absurd hnegatable (by decide)

theorem lt_prefixPower? {t : Token} {power : Nat} (h : t.prefixPower? = some power) :
    20 < power := by
  rw [Token.prefixPower?] at h
  split at h
  · unfold Operator.prefixPower at h
    split at h <;> cases h <;> decide
  · cases h

/-- A value with a field waits for the name of the field, whatever is around it. -/
theorem awaited_of_fields {value e : Expr} (opened : List Frame) (h : Rooted (.fields value) e) :
    (e.awaited false).or opened.head? = e.awaited false := by
  obtain ⟨note, object, property, method, rfl⟩ := h
  rfl

theorem not_isRelation_of_fields {value e : Expr} (h : Rooted (.fields value) e) :
    ¬ e.IsRelation := by
  obtain ⟨note, object, property, method, rfl⟩ := h
  exact id

/-- **Where a production ends in a name**, it pauses at a caret in place of that name. -/
theorem Reads.ends {caret : Token} (hcaret : caret.kind = .caret) {g : Goal} {ts us : List Token}
    {e : Expr} (h : Reads g ts e us) : ts = us ∧ Idle g e ∨ Ends caret g ts e us := by
  induction h with
  | expression hoperand _ ihoperand ihoperators =>
    have hends := ihoperand.resolve_left (·.2)
    right
    rcases ihoperators with ⟨rfl, rfl⟩ | hoperators
    · exact hends.call .operand (fun _ => or_head?_nil _) fun hroot h => (hroot h).elim
    · exact hoperators.call (.operators hoperand) (fun _ => or_head?_nil _) id
  | stop => exact .inl ⟨rfl, rfl⟩
  | binary hoffers hplain hright _ ihright ihoperators =>
    right
    rcases ihoperators with ⟨rfl, rfl⟩ | hoperators
    · exact (ihright.resolve_left (·.2)).call (.right hoffers hplain)
        (fun _ => awaited_join hoffers _ _) fun _ => power_of_isRelation_join hoffers
    · exact hoperators.call (.joined hoffers hplain hright) (fun _ => or_head?_nil _) id
  | comparison hoffers hcomparison hchain _ ihchain ihoperators =>
    right
    rcases ihoperators with ⟨rfl, rfl⟩ | hoperators
    · exact (ihchain.resolve_left (·.2)).call (.chain hoffers hcomparison)
        (fun _ => or_head?_nil _) fun hroot h => (hroot hcomparison h).elim
    · exact hoperators.call (.chained hoffers hcomparison hchain) (fun _ => or_head?_nil _) id
  | @prefixed t power us vs ws inner e hpower hinner _ ihinner ihfields =>
    right
    rcases ihfields with ⟨rfl, rfl⟩ | hfields
    · refine (ihinner.resolve_left (·.2)).call (.signed hpower) (fun hroot => ?_) fun _ => id
      -- the operand is no relation, so that a `not` in front of it negates nothing
      have hrelation : ¬ inner.IsRelation := fun h =>
        absurd (hroot h) (Nat.not_le_of_lt (lt_prefixPower? hpower))
      rw [Expr.awaited, Expr.awaited_of_not_isRelation hrelation (_ == _)]
      rfl
    · exact hfields.call (.prefixed hpower hinner) (awaited_of_fields _) not_isRelation_of_fields
  | @bracketed t close us vs ws inner e hopen hinner hclose _ ihinner ihfields =>
    right
    rcases ihfields with ⟨rfl, rfl⟩ | hfields
    · -- the last token is the closing bracket, and no name
      obtain ⟨xs, rfl, -⟩ := hinner.replace
      refine ⟨t :: xs, close, rfl, fun hname => ?_⟩
      rw [kind_of_is hclose] at hname
      cases hname
    · exact hfields.call (.bracketed hopen hinner hclose) (fun _ => or_head?_nil _)
        not_isRelation_of_fields
  | @constant t u us e hkind hconstant =>
    have he : nameTree t = e := by rw [nameTree, hconstant, Option.getD_some]
    exact .inr (ends_operand hcaret (he ▸ Expr.awaited_nameTree t false) _ _)
  | name hkind hconstant _ ih =>
    right
    rcases ih with ⟨rfl, rfl⟩ | hfields
    · exact ends_operand hcaret rfl _ _
    · exact hfields.call (.name hkind hconstant) (awaited_of_fields _) not_isRelation_of_fields
  | number => exact .inr (ends_operand hcaret rfl _ _)
  | string hkind _ ih =>
    right
    rcases ih with ⟨rfl, rfl⟩ | hfields
    · exact ends_operand hcaret rfl _ _
    · exact hfields.call (.string hkind) (awaited_of_fields _) not_isRelation_of_fields
  | @chainEnd power t next ts us left right before _ hnext ih =>
    right
    exact (ih.resolve_left (·.2)).call .comparand (fun _ => awaited_conjoin _ _ _ _)
      fun _ ht => not_isRelation_conjoin ht _ _ _
  | @chainMore power t next ts us vs left right e before hright hnext _ _ ihchain =>
    right
    rw [isComparison, Bool.and_eq_true] at hnext
    exact (ihchain.resolve_left (·.2)).call (.comparison hright (by simpa [isComparison] using hnext))
      (fun _ => or_head?_nil _) fun hroot _ => hroot hnext.2
  | field hdot hproperty _ ih =>
    right
    rcases ih with ⟨rfl, rfl⟩ | hfields
    · exact ends_field hcaret hdot _ _
    · exact hfields.call (.field hdot hproperty) (fun _ => or_head?_nil _) id
  | noField => exact .inl ⟨rfl, rfl⟩

end Grammar

/-! ### Whole texts -/

open Grammar

/-- The last name of a text is read, or the tokens in front of it are a text already, since they hold
the end of it. -/
theorem accepted_or_reads {ts : List Token} {v last : Token} {e : Expr}
    (hv : v.kind = .identifier) (hlast : last.EndsText)
    (hparse : parse (ts ++ [v, last]) = ⟨some e, none⟩) :
    Accepted ts ∨ Reads (.expression 0) (solid ts ++ [v, last]) e [last] := by
  obtain ⟨t, us, hreads, ht⟩ := readsText_of_parse hparse
  have hsolid : solid (ts ++ [v, last]) = solid ts ++ [v, last] := by
    rw [← List.singleton_append, ← List.append_assoc, solid_append_end hlast, solid_append,
      solid_cons (kind_ne hv), List.append_assoc]
    rfl
  rw [hsolid] at hreads
  obtain ⟨ws, hws, -, hagain⟩ := hreads.replace
  have htv : t ≠ v := by
    rintro rfl
    rw [Token.EndsText, hv] at ht
    simp at ht
  rcases List.append_eq_append_iff.mp hws with ⟨as, -, has⟩ | ⟨bs, hts, hbs⟩
  · rcases as with _ | ⟨a, _ | ⟨b, as⟩⟩
    · injection has with htv'
      exact absurd htv'.symm htv
    · cases has
      exact .inr hreads
    · simp at has
  · rcases bs with _ | ⟨b, bs⟩
    · injection hbs with htv'
      exact absurd htv' htv
    · injection hbs with htb
      subst htb
      have hagain := hagain (replaces_plain (not_isNegatable_of_kind (ht.closed [])) (ht.closed [])
        us bs)
      rw [← hts] at hagain
      exact .inl ⟨e, parse_of_reads hagain ht⟩

/-- **The strict reading of a text that breaks off in place of its last name** waits for that name. -/
theorem parseStrict_of_last_name {ts : List Token} {v last caret : Token} {e : Expr}
    (hv : v.kind = .identifier) (hlast : last.EndsText) (hcaret : caret.kind = .caret)
    (hparse : parse (ts ++ [v, last]) = ⟨some e, none⟩) (hopen : ¬ Accepted ts) :
    ∃ stop, parseStrict (ts ++ [caret]) = .error stop ∧ stop.top? = e.awaited false := by
  have hreads := (accepted_or_reads hv hlast hparse).resolve_left hopen
  obtain ⟨ws, v', hws, hpauses⟩ := (hreads.ends hcaret).resolve_left (·.2)
  obtain ⟨rfl, rfl⟩ : ws = solid ts ∧ v' = v := by
    have hwhole : solid ts ++ [v] ++ [last] = ws ++ [v'] ++ [last] := by simpa using hws
    have hinit : solid ts ++ [v] = ws ++ [v'] := List.append_cancel_right hwhole
    rw [← List.concat_eq_append, ← List.concat_eq_append, List.concat_inj] at hinit
    exact ⟨hinit.1.symm, hinit.2.symm⟩
  obtain ⟨frames, hstops, hframes⟩ := (hpauses hv).stops
  have hend : caret.EndsText := .inr hcaret
  have hblank : caret.isBlank = false := by
    rw [Token.isBlank, hcaret]
    rfl
  rw [← solid_append_end hend] at hstops
  obtain ⟨stop, hstrict, -, rfl⟩ :=
    parseStrict_of_halts List.getLast?_concat hblank (.inside hstops)
  exact ⟨stop, hstrict, hframes⟩

/-! ### The nodes on the way to the last leaf -/

namespace Expr

/-- The second tree is the first one or ends it, with every operand on the way the last one. -/
inductive EndsIn : Expr → Expr → Prop where
  | refl (e : Expr) : EndsIn e e
  | operand {note : Note} {operator : String} {e last : Expr} (h : EndsIn e last) :
      EndsIn (.unary note operator e) last
  | right {note : Note} {operator : String} {left e last : Expr} (h : EndsIn e last) :
      EndsIn (.binary note operator left e) last

theorem EndsIn.sizeOf_le {e last : Expr} (h : e.EndsIn last) : sizeOf last ≤ sizeOf e := by
  induction h with
  | refl => exact Nat.le_refl _
  | operand _ ih =>
    rw [unary.sizeOf_spec]
    omega
  | right _ ih =>
    rw [binary.sizeOf_spec]
    omega

theorem endsIn_unary_iff {note : Note} {operator : String} {e last : Expr} :
    (unary note operator e).EndsIn last ↔ last = .unary note operator e ∨ e.EndsIn last := by
  constructor
  · rintro (_ | h)
    · exact .inl rfl
    · exact .inr h
  · rintro (rfl | h)
    · exact .refl _
    · exact .operand h

theorem endsIn_binary_iff {note : Note} {operator : String} {left e last : Expr} :
    (binary note operator left e).EndsIn last ↔
      last = .binary note operator left e ∨ e.EndsIn last := by
  constructor
  · rintro (_ | _ | h)
    · exact .inl rfl
    · exact .inr h
  · rintro (rfl | h)
    · exact .refl _
    · exact .right h

theorem not_endsIn_unary (note : Note) (operator : String) (e : Expr) :
    ¬ e.EndsIn (.unary note operator e) := by
  intro h
  have hsize := h.sizeOf_le
  rw [unary.sizeOf_spec] at hsize
  omega

/-- The name of a field ends the tree. -/
theorem EndsIn.awaited_member {e object property : Expr} {note : Note} {method : Bool}
    (h : e.EndsIn (.member note object property method)) (negated : Bool) :
    e.awaited negated = some (.binary object "." false) := by
  generalize hlast : Expr.member note object property method = last at h
  induction h generalizing negated with
  | refl =>
    subst hlast
    rfl
  | operand _ ih | right _ ih => rw [awaited, ih _ hlast, Option.some_or]

/-- The tree ends in another one below a `not`.  With `negated`, there is such a `not` around it. -/
def EndsBelowNot (negated : Bool) (e last : Expr) : Prop :=
  negated = true ∧ e = last ∨ ∃ outer, e.EndsIn (.unary outer "not" last)

/-- A `not` at the root is around the operand. -/
theorem endsBelowNot_unary_iff {note : Note} {operator : String} {e last : Expr} {negated : Bool}
    (h : unary note operator e ≠ last) :
    e.EndsBelowNot (operator == "not") last ↔
      (unary note operator e).EndsBelowNot negated last := by
  constructor
  · rintro (⟨hnot, rfl⟩ | ⟨outer, hin⟩)
    · obtain rfl := beq_iff_eq.mp hnot
      exact .inr ⟨note, .refl _⟩
    · exact .inr ⟨outer, .operand hin⟩
  · rintro (⟨-, heq⟩ | ⟨outer, hin⟩)
    · exact absurd heq h
    · rcases endsIn_unary_iff.mp hin with heq | hin
      · cases heq
        exact .inl ⟨rfl, rfl⟩
      · exact .inr ⟨outer, hin⟩

/-- The right side of an operator ends the tree. -/
theorem EndsIn.awaited_binary {e left leaf : Expr} {note : Note} {operator : String}
    (h : e.EndsIn (.binary note operator left leaf)) (hleaf : leaf.awaited false = none)
    (negated : Bool) :
    ∃ negate, e.awaited negated = some (.binary left operator negate) ∧
      (negate = true ↔ Operator.isNegatable operator ∧
        e.EndsBelowNot negated (.binary note operator left leaf)) := by
  generalize hlast : Expr.binary note operator left leaf = last at h ⊢
  induction h generalizing negated with
  | refl e =>
    subst hlast
    refine ⟨negated && Operator.isNegatable operator, by rw [awaited, hleaf, Option.none_or], ?_⟩
    simp [EndsBelowNot, not_endsIn_unary, and_comm]
  | @operand note' operator' e last hin ih =>
    obtain ⟨negate, hawaited, hnegate⟩ := ih (operator' == "not") hlast
    refine ⟨negate, by rw [awaited, hawaited, Option.some_or], hnegate.trans ?_⟩
    have hne : unary note' operator' e ≠ last := by
      rw [← hlast]
      nofun
    exact and_congr_right fun _ => endsBelowNot_unary_iff hne
  | @right note' operator' left' e last hin ih =>
    obtain ⟨negate, hawaited, hnegate⟩ := ih false hlast
    refine ⟨negate, by rw [awaited, hawaited, Option.some_or], hnegate.trans ?_⟩
    have hne : binary note' operator' left' e ≠ last := by
      rintro rfl
      have hsize := hin.sizeOf_le
      rw [binary.sizeOf_spec] at hsize
      omega
    simp [EndsBelowNot, endsIn_binary_iff, hne]

end Expr

/-- Tokens without an end and without a caret are no text. -/
theorem not_accepted_of_noEnd {ts : List Token} (h : NoEnd ts) : ¬ Accepted ts := by
  rintro ⟨e, he⟩
  obtain ⟨t, us, hreads, ht⟩ := readsText_of_parse he
  obtain ⟨ws, hws, -⟩ := hreads.replace
  refine h.solid t ?_ ht
  rw [hws]
  simp

/-- **The innermost open production names the operand and the operator.**  Let a text end in a name
that is the right side of an operator, or the name of a field.  With the caret in place of that name
the strict reading stops, and the innermost open production is the operator with its left side, or
the dot with the value in front of it.  It is negated just where the operator has its `not` in front
of it: no prefix operator has an unbracketed relation as its operand, so that in the tree this is
where a relation is the operand of a `not`.

The tokens in front of the name are no text by themselves.  They would be one if they held the end
of the text, and then the name would not be read at all. -/
theorem top_of_last_name {ts : List Token} {v last caret : Token} {t : Expr}
    (hv : v.kind = .identifier) (hlast : last.kind = .eof) (hcaret : caret.kind = .caret)
    (hparse : parse (ts ++ [v, last]) = ⟨some t, none⟩) (hopen : ¬ Accepted ts) :
    (∀ note operator left, t.EndsIn (.binary note operator left (nameTree v)) →
      ∃ stop negate, parseStrict (ts ++ [caret]) = .error stop ∧
        stop.top? = some (.binary left operator negate) ∧
        (negate = true ↔ Operator.isNegatable operator ∧
          ∃ outer, t.EndsIn (.unary outer "not" (.binary note operator left (nameTree v))))) ∧
    ∀ note object method,
      t.EndsIn (.member note object (.identifier (.at v.location) v.value) method) →
      ∃ stop, parseStrict (ts ++ [caret]) = .error stop ∧
        stop.top? = some (.binary object "." false) := by
  obtain ⟨stop, hstop, htop⟩ := parseStrict_of_last_name hv (.inl hlast) hcaret hparse hopen
  constructor
  · intro note operator left h
    obtain ⟨negate, hawaited, hnegate⟩ := h.awaited_binary (Expr.awaited_nameTree v false) false
    refine ⟨stop, negate, hstop, htop.trans hawaited, hnegate.trans ?_⟩
    simp [Expr.EndsBelowNot]
  · intro note object method h
    exact ⟨stop, hstop, htop.trans (h.awaited_member false)⟩

/-- Behind `x not in` the strict reading waits for a right side of `not in`. -/
theorem top_of_last_name_negated :
    let x : Token := .ofText .identifier "x" ⟨1, 0⟩
    let v : Token := .ofText .identifier "v" ⟨1, 9⟩
    let ts : List Token := [x, .ofText .operator "not" ⟨1, 2⟩, .ofText .operator "in" ⟨1, 6⟩]
    let last : Token := .ofText .eof "" ⟨1, 10⟩
    let caret : Token := .ofText .caret "" ⟨1, 9⟩
    let t : Expr := .unary (.at ⟨1, 2⟩) "not" (.binary (.at ⟨1, 6⟩) "in" (nameTree x) (nameTree v))
    v.kind = .identifier ∧ last.kind = .eof ∧ caret.kind = .caret ∧
      parse (ts ++ [v, last]) = ⟨some t, none⟩ ∧ ¬ Accepted ts ∧
      ∃ stop, parseStrict (ts ++ [caret]) = .error stop ∧
        stop.top? = some (.binary (nameTree x) "in" true) := by
  intro x v ts last caret t
  have hcaret : caret.kind = .caret := rfl
  have hparse : parse (ts ++ [v, last]) = ⟨some t, none⟩ := rfl
  have hopen : ¬ Accepted ts :=
    not_accepted_of_noEnd (by simp [ts, NoEnd, Token.EndsText, Token.ofText, x])
  have hends : t.EndsIn (.binary (.at ⟨1, 6⟩) "in" (nameTree x) (nameTree v)) :=
    .operand (.refl _)
  obtain ⟨stop, negate, hstop, htop, hnegate⟩ :=
    (top_of_last_name rfl rfl hcaret hparse hopen).1 _ _ _ hends
  obtain rfl := hnegate.mpr ⟨rfl, _, .refl _⟩
  exact ⟨rfl, rfl, hcaret, hparse, hopen, stop, hstop, htop⟩

end FilterLang
