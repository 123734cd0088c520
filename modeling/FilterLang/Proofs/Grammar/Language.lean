import FilterLang.Proofs.Grammar.Reading
import Mathlib.Data.List.Chain

/-!
# The language of the grammar

The grammar climbs through binding powers, puts a `not` back and reads comparisons in chains.  The
texts that it accepts know of none of this: they are operands with binary operators between them.

* `IsBinary` — the tokens of a binary operator.
* `Phrase` — the lists of tokens that form an expression, an operand, its core or a value.
* `shape_of_reads` — what is read is a phrase, and what is left of it.
* `Tail` — operators with operands behind them, and `Tractable`, which says that the productions read
  on to the end of a tail or to an operator that binds too weakly for them.
* `parse_accepts_iff` — the texts without a fault.
-/

namespace FilterLang

namespace Grammar

/-! ### Phrases -/

/-- Whether a token is one of the prefix operators. -/
def IsPrefix (t : Token) : Prop := t.kind = .operator ∧ t.value ∈ ["not", "!", "+", "-"]

/-- Whether a token is a name that stands for a constant. -/
def IsConstant (t : Token) : Prop := t.kind = .identifier ∧ t.value ∈ ["true", "false", "nil"]

/-- Whether a token is a dot. -/
def IsDot (t : Token) : Prop := t.kind = .operator ∧ t.value = "."

/-- The tokens of a binary operator: one of the table of powers, or a relation behind a `not`. -/
inductive IsBinary : List Token → Prop where
  | plain {t : Token} (hkind : t.kind = .operator)
      (hpower : (Operator.binaryPower t.value).isSome) : IsBinary [t]
  | negated {t relation : Token} (hkind : t.kind = .operator) (hnot : t.value = "not")
      (hrelation : isNegatable relation) : IsBinary [t, relation]

/-- The kinds of phrases. -/
inductive Category where
  /-- operands with binary operators between them -/
  | expression
  /-- prefix operators and a core -/
  | operand
  /-- a constant, or a value -/
  | core
  /-- a name, a string or an expression in brackets, with fields behind it -/
  | value

/-- The tokens form a phrase. -/
inductive Phrase : Category → List Token → Prop where
  | operand {ts : List Token} (h : Phrase .operand ts) : Phrase .expression ts
  | binary {ts op us : List Token} (hleft : Phrase .expression ts) (hop : IsBinary op)
      (hright : Phrase .operand us) : Phrase .expression (ts ++ op ++ us)
  | core {ts : List Token} (h : Phrase .core ts) : Phrase .operand ts
  | prefixed {t : Token} {ts : List Token} (hsign : IsPrefix t) (h : Phrase .operand ts) :
      Phrase .operand (t :: ts)
  | number {t : Token} (hkind : t.kind = .number) (hvalue : (Numeral.readInteger? t.value).isSome) :
      Phrase .core [t]
  | constant {t : Token} (h : IsConstant t) : Phrase .core [t]
  | value {ts : List Token} (h : Phrase .value ts) : Phrase .core ts
  | name {t : Token} (hkind : t.kind = .identifier) (hconstant : ¬ IsConstant t) : Phrase .value [t]
  | string {t : Token} (hkind : t.kind = .string) : Phrase .value [t]
  | bracketed {t close : Token} {ts : List Token} (hopen : t.is .bracket "(")
      (h : Phrase .expression ts) (hclose : close.is .bracket ")") :
      Phrase .value (t :: (ts ++ [close]))
  | field {dot property : Token} {ts : List Token} (h : Phrase .value ts) (hdot : IsDot dot)
      (hproperty : property.kind = .identifier ∨ property.kind = .operator) :
      Phrase .value (ts ++ [dot, property])

/-- No dot directly follows a number or a constant. -/
def Undotted (ts : List Token) : Prop :=
  ts.IsChain fun t u => t.kind = .number ∨ IsConstant t → ¬ IsDot u

/-! ### Tokens -/

theorem isPrefix_iff (t : Token) : IsPrefix t ↔ ∃ power, t.prefixPower? = some power := by
  rw [IsPrefix, Token.prefixPower?]
  constructor
  · rintro ⟨hkind, hvalue⟩
    rw [if_pos hkind]
    simp only [List.mem_cons, List.not_mem_nil, or_false] at hvalue
    rcases hvalue with h | h | h | h <;> rw [h] <;> exact ⟨_, rfl⟩
  · rintro ⟨power, hpower⟩
    split at hpower
    · refine ⟨‹_›, ?_⟩
      unfold Operator.prefixPower at hpower
      split at hpower <;> simp_all
    · cases hpower

theorem isConstant_iff {t : Token} (hkind : t.kind = .identifier) :
    IsConstant t ↔ ∃ e, constant? t = some e := by
  rw [IsConstant, constant?]
  simp only [hkind, true_and, List.mem_cons, List.not_mem_nil, or_false]
  constructor
  · rintro (h | h | h) <;> rw [h] <;> exact ⟨_, rfl⟩
  · rintro ⟨e, he⟩
    split at he
    · exact .inl ‹_›
    split at he
    · exact .inr (.inl ‹_›)
    split at he
    · exact .inr (.inr ‹_›)
    cases he

theorem isDot_iff (t : Token) : IsDot t ↔ t.is .operator "." := by
  rw [IsDot, Token.is, Bool.and_eq_true, beq_iff_eq, beq_iff_eq]

/-- Neither the first token of a binary operator nor a token of another kind is a dot. -/
theorem IsBinary.head {op : List Token} (h : IsBinary op) :
    ∃ t us, op = t :: us ∧ t.kind = .operator ∧ ¬ IsDot t := by
  cases h with
  | @plain t hkind hpower =>
    refine ⟨t, [], rfl, hkind, fun hdot => ?_⟩
    rw [hdot.2] at hpower
    cases hpower
  | @negated t relation hkind hnot hrelation =>
    refine ⟨t, [relation], rfl, hkind, fun hdot => ?_⟩
    rw [hdot.2] at hnot
    exact absurd hnot (by decide)

theorem isBinary_of_isComparison {t : Token} (h : isComparison t) : IsBinary [t] := by
  rw [isComparison, Bool.and_eq_true, beq_iff_eq] at h
  exact .plain h.1 (by rw [Operator.binaryPower_of_isComparison h.2]; rfl)

/-! ### Phrases from phrases -/

/-- A prefix operator in front of an expression belongs to its first operand. -/
theorem Phrase.cons_sign {t : Token} {ts : List Token} (hsign : IsPrefix t)
    (h : Phrase .expression ts) : Phrase .expression (t :: ts) := by
  generalize hc : Category.expression = c at h
  induction h with
  | operand h => exact .operand (.prefixed hsign h)
  | binary _ hop hright ih => exact .binary (ih hc) hop hright
  | _ => cases hc

/-- Two expressions with a binary operator between them are an expression. -/
theorem Phrase.join {ts op us : List Token} (hleft : Phrase .expression ts) (hop : IsBinary op)
    (hright : Phrase .expression us) : Phrase .expression (ts ++ op ++ us) := by
  generalize hc : Category.expression = c at hright
  induction hright with
  | operand h => exact .binary hleft hop h
  | @binary vs op' ws _ hop' hws ih =>
    have hjoined := Phrase.binary (ih hc) hop' hws
    simpa only [List.append_assoc] using hjoined
  | _ => cases hc

/-! ### What is read is a phrase -/

/-- No dot is at hand. -/
def NoDot : List Token → Prop
  | [] => True
  | t :: _ => ¬ IsDot t

theorem Undotted.noDot {t : Token} {ts : List Token} (h : Undotted (t :: ts))
    (ht : t.kind = .number ∨ IsConstant t) : NoDot ts := by
  cases ts with
  | nil => trivial
  | cons u us => exact (List.isChain_cons_cons.mp h).1 ht

theorem Undotted.of_append {ts us : List Token} (h : Undotted (ts ++ us)) : Undotted us :=
  h.right_of_append

theorem Undotted.of_cons {t : Token} {ts : List Token} (h : Undotted (t :: ts)) : Undotted ts :=
  h.tail

/-- What a production makes of the tokens `ws` in front of the tokens `us` it leaves. -/
def Shape (g : Goal) (ws us : List Token) : Prop :=
  match g with
  | .operators _ _ => (∀ vs, Phrase .expression vs → Phrase .expression (vs ++ ws)) ∧
      (NoDot (ws ++ us) → NoDot us)
  | .fields _ => (∀ vs, Phrase .value vs → Phrase .value (vs ++ ws)) ∧ NoDot us
  | _ => Phrase .expression ws ∧ NoDot us

/-- Where no dot is at hand, a value has no fields. -/
theorem eq_of_noDot {ts us : List Token} {value e : Expr} (hdot : NoDot ts)
    (h : Reads (.fields value) ts e us) : us = ts := by
  cases h with
  | field hfield => exact absurd ((isDot_iff _).mpr hfield) hdot
  | noField => rfl

theorem Offers.isBinary {least : Nat} {ts us : List Token} {ahead : Ahead}
    (h : Offers least ts ahead us) : ∃ op, ts = op ++ us ∧ IsBinary op := by
  cases h with
  | @plain t us ahead hkind hnot hahead =>
    obtain ⟨-, -, -, hpower⟩ := token_of_ofToken? hahead
    exact ⟨[t], rfl, .plain hkind (by rw [hpower]; rfl)⟩
  | @negated t relation us ahead hkind hnot hrelation hahead =>
    exact ⟨[t, relation], rfl, .negated hkind hnot hrelation⟩

/-- An operand that is a value with its fields. -/
theorem shape_operand {ts ws us : List Token} (hts : Phrase .value ts)
    (h : (∀ vs, Phrase .value vs → Phrase .value (vs ++ ws)) ∧ NoDot us) :
    Shape .operand (ts ++ ws) us :=
  ⟨.operand (.core (.value (h.1 ts hts))), h.2⟩

/-- **What is read is a phrase.** -/
theorem shape_of_reads {g : Goal} {ts us : List Token} {e : Expr} (h : Reads g ts e us)
    (hdots : Undotted ts) : ∃ ws, ts = ws ++ us ∧ Shape g ws us := by
  induction h with
  | expression _ _ ihoperand ihoperators =>
    obtain ⟨ws, rfl, hws, hnodot⟩ := ihoperand hdots
    obtain ⟨vs, rfl, hvs, hleave⟩ := ihoperators hdots.of_append
    exact ⟨ws ++ vs, (List.append_assoc _ _ _).symm, hvs ws hws, hleave hnodot⟩
  | stop => exact ⟨[], rfl, fun vs hvs => by rwa [List.append_nil], id⟩
  | binary hoffers _ _ _ ihright ihoperators =>
    obtain ⟨op, rfl, hop⟩ := hoffers.isBinary
    obtain ⟨ws, rfl, hws, hnodot⟩ := ihright hdots.of_append
    obtain ⟨xs, rfl, hxs, hleave⟩ := ihoperators hdots.of_append.of_append
    refine ⟨op ++ (ws ++ xs), by simp only [List.append_assoc], fun vs hvs => ?_,
      fun _ => hleave hnodot⟩
    have hjoined := hxs _ (hvs.join hop hws)
    simpa only [List.append_assoc] using hjoined
  | comparison hoffers _ _ _ ihchain ihoperators =>
    obtain ⟨op, rfl, hop⟩ := hoffers.isBinary
    obtain ⟨ws, rfl, hws, hnodot⟩ := ihchain hdots.of_append
    obtain ⟨xs, rfl, hxs, hleave⟩ := ihoperators hdots.of_append.of_append
    refine ⟨op ++ (ws ++ xs), by simp only [List.append_assoc], fun vs hvs => ?_,
      fun _ => hleave hnodot⟩
    have hjoined := hxs _ (hvs.join hop hws)
    simpa only [List.append_assoc] using hjoined
  | @prefixed t power us vs ws inner e hpower _ hfields ihinner ihfields =>
    obtain ⟨xs, rfl, hxs, hnodot⟩ := ihinner hdots.of_cons
    obtain rfl := eq_of_noDot hnodot hfields
    exact ⟨t :: xs, rfl, hxs.cons_sign ((isPrefix_iff t).mpr ⟨power, hpower⟩), hnodot⟩
  | @bracketed t close us vs ws inner e hopen _ hclose _ ihinner ihfields =>
    obtain ⟨xs, rfl, hxs, -⟩ := ihinner hdots.of_cons
    obtain ⟨ys, rfl, hys⟩ := ihfields (hdots.of_cons.of_append).of_cons
    exact ⟨t :: (xs ++ [close]) ++ ys, by simp, shape_operand (.bracketed hopen hxs hclose) hys⟩
  | @constant t u us e hkind hconstant =>
    have ht : IsConstant t := (isConstant_iff hkind).mpr ⟨e, hconstant⟩
    exact ⟨[t], rfl, .operand (.core (.constant ht)), hdots.noDot (.inr ht)⟩
  | @name t us vs e hkind hconstant _ ihfields =>
    obtain ⟨ws, rfl, hws⟩ := ihfields hdots.of_cons
    refine ⟨[t] ++ ws, rfl, shape_operand (.name hkind fun ht => ?_) hws⟩
    obtain ⟨e, he⟩ := (isConstant_iff hkind).mp ht
    rw [hconstant] at he
    cases he
  | @number t u us value hkind hvalue =>
    exact ⟨[t], rfl, .operand (.core (.number hkind (by rw [hvalue]; rfl))), hdots.noDot (.inl hkind)⟩
  | @string t us vs e hkind _ ihfields =>
    obtain ⟨ws, rfl, hws⟩ := ihfields hdots.of_cons
    exact ⟨[t] ++ ws, rfl, shape_operand (.string hkind) hws⟩
  | @chainEnd power t next ts us left right before _ _ ihright => exact ihright hdots
  | @chainMore power t next ts us vs left right e before _ hnext _ ihright ihchain =>
    obtain ⟨ws, rfl, hws, -⟩ := ihright hdots
    obtain ⟨xs, rfl, hxs, hnodot⟩ := ihchain hdots.of_append.of_cons
    refine ⟨ws ++ [next] ++ xs, by simp, ?_, hnodot⟩
    exact hws.join (isBinary_of_isComparison hnext) hxs
  | @field t property us vs value e hdot hproperty _ ihfields =>
    obtain ⟨ws, rfl, hws, hnodot⟩ := ihfields hdots.of_cons.of_cons
    refine ⟨[t, property] ++ ws, rfl, fun xs hxs => ?_, hnodot⟩
    have hfield := hws _ (.field hxs ((isDot_iff t).mpr hdot) hproperty)
    simpa only [List.append_assoc] using hfield
  | @noField t us value hdot =>
    refine ⟨[], rfl, fun vs hvs => by rwa [List.append_nil], fun h => hdot ((isDot_iff t).mp h)⟩

/-! ### Phrases are read -/

/-- Binary operators with an operand behind each of them, in front of the tokens `close`. -/
inductive Tail (close : List Token) : List Token → Prop where
  | done : Tail close close
  | more {op ts us : List Token} (hop : IsBinary op) (hts : Phrase .operand ts)
      (hus : Tail close us) : Tail close (op ++ (ts ++ us))

/-- Some token that is no operator is at hand. -/
def Closed : List Token → Prop
  | [] => False
  | t :: _ => t.kind ≠ .operator

/-- The production reads the tokens up to some tail. -/
def ReadsTo (close : List Token) (g : Goal) (ts : List Token) : Prop :=
  ∃ e us, Reads g ts e us ∧ Tail close us

/-- An expression is an operand with a tail. -/
theorem Phrase.operand_tail {close ts us : List Token} (h : Phrase .expression ts)
    (hus : Tail close us) :
    ∃ o vs, ts ++ us = o ++ vs ∧ Phrase .operand o ∧ Tail close vs := by
  generalize hc : Category.expression = c at h
  induction h generalizing us with
  | operand h => exact ⟨_, us, rfl, h, hus⟩
  | @binary vs op ws _ hop hws ih =>
    obtain ⟨o, xs, hxs, ho, htail⟩ := ih (.more hop hws hus) hc
    exact ⟨o, xs, by rw [← hxs]; simp only [List.append_assoc], ho, htail⟩
  | _ => cases hc

theorem Tail.noDot {close ts : List Token} (hclose : Closed close) (h : Tail close ts) :
    NoDot ts ∧ ts ≠ [] := by
  cases h with
  | done =>
    cases close with
    | nil => exact hclose.elim
    | cons t us => exact ⟨fun hdot => hclose hdot.1, nofun⟩
  | more hop =>
    obtain ⟨t, us, rfl, -, hdot⟩ := hop.head
    exact ⟨hdot, nofun⟩

/-- A comparison at the head of a tail has an operand and a tail behind it. -/
theorem Tail.of_isComparison {close us : List Token} {t : Token} (hclose : Closed close)
    (h : Tail close (t :: us)) (ht : isComparison t) :
    ∃ o vs, us = o ++ vs ∧ Phrase .operand o ∧ Tail close vs := by
  rw [isComparison, Bool.and_eq_true, beq_iff_eq] at ht
  generalize hts : t :: us = ts at h
  cases h with
  | done =>
    subst hts
    exact absurd ht.1 hclose
  | @more op o vs hop ho hvs =>
    cases hop with
    | plain =>
      cases hts
      exact ⟨o, vs, rfl, ho, hvs⟩
    | negated _ hnot =>
      cases hts
      rw [hnot] at ht
      exact absurd ht.2 (by decide)

theorem Refuses.of_operator {least : Nat} {t : Token} {us : List Token}
    (h : Refuses least (t :: us)) (hkind : t.kind = .operator) :
    t.value ≠ "not" ∧ Ahead.ofToken? least t none = none ∨
      t.value = "not" ∧ ∃ relation vs, us = relation :: vs ∧
        Ahead.ofToken? least relation (some t.location) = none := by
  cases h with
  | kind h => exact absurd hkind h
  | plain _ hnot hahead => exact .inl ⟨hnot, hahead⟩
  | negated _ hnot _ hahead => exact .inr ⟨hnot, _, _, rfl, hahead⟩

/-- Every operator binds tightly enough for a text, so that it is read to its end. -/
theorem Tail.eq_of_refuses {close ts : List Token} (h : Tail close ts) (hrefuses : Refuses 0 ts) :
    ts = close := by
  have hsome : ∀ (t : Token) (negation : Option Location), (Operator.binaryPower t.value).isSome →
      Ahead.ofToken? 0 t negation ≠ none := by
    intro t negation hpower
    obtain ⟨power, hpower⟩ := Option.isSome_iff_exists.mp hpower
    rw [Ahead.ofToken?, hpower]
    simp
  cases h with
  | done => rfl
  | more hop =>
    cases hop with
    | plain hkind hpower =>
      rcases hrefuses.of_operator hkind with ⟨-, hahead⟩ | ⟨hnot, -⟩
      · exact absurd hahead (hsome _ _ hpower)
      · rw [hnot] at hpower
        cases hpower
    | negated hkind hnot hrelation =>
      rcases hrefuses.of_operator hkind with ⟨h, -⟩ | ⟨-, _, _, hus, hahead⟩
      · exact absurd hnot h
      · cases hus
        rw [isNegatable, Bool.and_eq_true] at hrelation
        refine absurd hahead (hsome _ _ ?_)
        rw [Operator.binaryPower_of_isNegatable hrelation.2]
        rfl

/-- What is behind the operators that an expression reads binds too weakly for it. -/
theorem Reads.refuses {g : Goal} {ts us : List Token} {e : Expr} (h : Reads g ts e us) :
    match g with
    | .expression least | .operators least _ => Refuses least us
    | _ => True := by
  induction h with
  | expression _ _ _ ih => exact ih
  | stop hrefuses => exact hrefuses
  | binary _ _ _ _ _ ih => exact ih
  | comparison _ _ _ _ _ ih => exact ih
  | _ => trivial

/-- How many tokens a production reads. -/
theorem Reads.length {g : Goal} {ts us : List Token} {e : Expr} (h : Reads g ts e us) :
    match g with
    | .operators _ _ | .fields _ => us.length ≤ ts.length
    | _ => us.length < ts.length := by
  induction h with
  | expression _ _ ihoperand ihoperators => exact Nat.lt_of_le_of_lt ihoperators ihoperand
  | stop => exact Nat.le_refl _
  | binary hoffers _ _ _ ihright ihoperators =>
    obtain ⟨op, rfl, -⟩ := hoffers.isBinary
    dsimp only at ihright ihoperators ⊢
    rw [List.length_append]
    omega
  | comparison hoffers _ _ _ ihchain ihoperators =>
    obtain ⟨op, rfl, -⟩ := hoffers.isBinary
    dsimp only at ihchain ihoperators ⊢
    rw [List.length_append]
    omega
  | prefixed _ _ _ ihinner ihfields =>
    dsimp only at ihinner ihfields ⊢
    rw [List.length_cons]
    omega
  | bracketed _ _ _ _ ihinner ihfields =>
    dsimp only at ihinner ihfields ⊢
    rw [List.length_cons] at ihinner ⊢
    omega
  | name _ _ _ ih => exact Nat.lt_succ_of_le ih
  | string _ _ ih => exact Nat.lt_succ_of_le ih
  | chainEnd _ _ ih => exact ih
  | chainMore _ _ _ ihright ihchain =>
    dsimp only at ihright ihchain ⊢
    rw [List.length_cons] at ihright
    omega
  | field _ _ _ ih =>
    dsimp only at ih ⊢
    rw [List.length_cons, List.length_cons]
    omega
  | constant | number => exact Nat.lt_succ_self _
  | noField => exact Nat.le_refl _

/-- Fewer than `n` tokens are read to a tail. -/
structure Tractable (n : Nat) : Prop where
  expression {close ts us : List Token} (least : Nat) (hclose : Closed close)
    (hts : Phrase .operand ts) (hus : Tail close us) (hlength : (ts ++ us).length < n) :
    ReadsTo close (.expression least) (ts ++ us)
  chain {close ts us : List Token} (power : Nat) (left : Expr) (token : Token)
    (before : Option Expr) (hclose : Closed close) (hts : Phrase .operand ts) (hus : Tail close us)
    (hlength : (ts ++ us).length < n) : ReadsTo close (.chain power left token before) (ts ++ us)
  operators {close ts : List Token} (least : Nat) (left : Expr) (hclose : Closed close)
    (hts : Tail close ts) (hlength : ts.length < n) : ReadsTo close (.operators least left) ts

namespace Tractable

variable {n : Nat} (h : Tractable n) {close ts us : List Token}

include h

/-- An expression in brackets is read up to the bracket. -/
theorem bracketed {bracket : Token} {rest : List Token} (hbracket : bracket.is .bracket ")")
    (hts : Phrase .expression ts) (hlength : (ts ++ bracket :: rest).length < n) :
    ∃ e, Reads (.expression 0) (ts ++ bracket :: rest) e (bracket :: rest) := by
  have hclose : Closed (bracket :: rest) := by
    show bracket.kind ≠ .operator
    exact kind_ne (kind_of_is hbracket)
  obtain ⟨o, vs, hvs, ho, htail⟩ := hts.operand_tail .done
  rw [hvs] at hlength ⊢
  obtain ⟨e, us, hreads, hus⟩ := h.expression 0 hclose ho htail hlength
  obtain rfl := hus.eq_of_refuses hreads.refuses
  exact ⟨e, hreads⟩

/-- A value is read, and then its fields are read on. -/
theorem value (hts : Phrase .value ts) (hlength : (ts ++ us).length ≤ n) :
    ∃ value, ∀ e vs, Reads (.fields value) us e vs → Reads .operand (ts ++ us) e vs := by
  generalize hc : Category.value = c at hts
  induction hts generalizing us with
  | @name t hkind hconstant =>
    refine ⟨_, fun e vs hfields => .name hkind ?_ hfields⟩
    rw [isConstant_iff hkind] at hconstant
    exact Option.eq_none_iff_forall_ne_some.mpr fun e he => hconstant ⟨e, he⟩
  | string hkind => exact ⟨_, fun e vs hfields => .string hkind hfields⟩
  | @bracketed t close ts hopen hts hclose =>
    have hassoc : t :: (ts ++ [close]) ++ us = t :: (ts ++ close :: us) := by simp
    rw [hassoc] at hlength ⊢
    obtain ⟨inner, hinner⟩ := h.bracketed hclose hts hlength
    exact ⟨inner, fun e vs hfields => .bracketed hopen hinner hclose hfields⟩
  | @field dot property ts _ hdot hproperty ih =>
    rw [List.append_assoc] at hlength ⊢
    obtain ⟨value, hvalue⟩ := ih hlength hc
    exact ⟨_, fun e vs hfields =>
      hvalue e vs (.field ((isDot_iff dot).mp hdot) hproperty hfields)⟩
  | _ => cases hc

theorem operand (hclose : Closed close) (hts : Phrase .operand ts) (hus : Tail close us)
    (hlength : (ts ++ us).length ≤ n) : ReadsTo close .operand (ts ++ us) := by
  obtain ⟨hnodot, hne⟩ := hus.noDot hclose
  obtain ⟨u, us, rfl⟩ := List.exists_cons_of_ne_nil hne
  have hfields : ∀ value, Reads (.fields value) (u :: us) value (u :: us) :=
    fun value => .noField fun hdot => hnodot ((isDot_iff u).mpr hdot)
  cases hts with
  | core hcore =>
    cases hcore with
    | number hkind hvalue =>
      obtain ⟨value, hvalue⟩ := Option.isSome_iff_exists.mp hvalue
      exact ⟨_, _, .number hkind hvalue, hus⟩
    | constant hconstant =>
      obtain ⟨e, he⟩ := (isConstant_iff hconstant.1).mp hconstant
      exact ⟨e, _, .constant hconstant.1 he, hus⟩
    | value hvalue =>
      obtain ⟨value, hread⟩ := h.value hvalue hlength
      exact ⟨value, _, hread _ _ (hfields value), hus⟩
  | @prefixed t ts hsign hts =>
    obtain ⟨power, hpower⟩ := (isPrefix_iff t).mp hsign
    obtain ⟨inner, vs, hinner, hvs⟩ := h.expression power hclose hts hus hlength
    obtain ⟨hnodot, hne⟩ := hvs.noDot hclose
    obtain ⟨v, vs, rfl⟩ := List.exists_cons_of_ne_nil hne
    refine ⟨_, _, .prefixed hpower hinner (.noField fun hdot => ?_), hvs⟩
    exact hnodot ((isDot_iff v).mpr hdot)

theorem expression_succ (least : Nat) (hclose : Closed close) (hts : Phrase .operand ts)
    (hus : Tail close us) (hlength : (ts ++ us).length ≤ n) :
    ReadsTo close (.expression least) (ts ++ us) := by
  obtain ⟨left, vs, hleft, hvs⟩ := h.operand hclose hts hus hlength
  have hshort : vs.length < (ts ++ us).length := hleft.length
  obtain ⟨e, ws, he, hws⟩ := h.operators least left hclose hvs (by omega)
  exact ⟨e, ws, .expression hleft he, hws⟩

theorem chain_succ (power : Nat) (left : Expr) (token : Token) (before : Option Expr)
    (hclose : Closed close) (hts : Phrase .operand ts) (hus : Tail close us)
    (hlength : (ts ++ us).length ≤ n) :
    ReadsTo close (.chain power left token before) (ts ++ us) := by
  obtain ⟨right, vs, hright, hvs⟩ := h.expression_succ (power + 1) hclose hts hus hlength
  obtain ⟨-, hne⟩ := hvs.noDot hclose
  obtain ⟨next, vs, rfl⟩ := List.exists_cons_of_ne_nil hne
  by_cases hnext : isComparison next
  · have hshort : (next :: vs).length < (ts ++ us).length := hright.length
    obtain ⟨o, ws, rfl, ho, hws⟩ := hvs.of_isComparison hclose hnext
    rw [List.length_cons] at hshort
    obtain ⟨e, xs, he, hxs⟩ := h.chain power right next _ hclose ho hws (by omega)
    exact ⟨e, xs, .chainMore hright hnext he, hxs⟩
  · exact ⟨_, _, .chainEnd hright hnext, hvs⟩

/-- An operator that binds tightly enough is read with what is behind it. -/
theorem offered {least : Nat} {ahead : Ahead} {op : List Token} (left : Expr)
    (hoffers : Offers least (op ++ (ts ++ us)) ahead (ts ++ us)) (hclose : Closed close)
    (hts : Phrase .operand ts) (hus : Tail close us) (hlength : (ts ++ us).length < n) :
    ReadsTo close (.operators least left) (op ++ (ts ++ us)) := by
  by_cases hcomparison : Operator.isComparison ahead.token.value
  · obtain ⟨joined, vs, hjoined, hvs⟩ :=
      h.chain ahead.power left ahead.token none hclose hts hus hlength
    have hshort : vs.length < (ts ++ us).length := hjoined.length
    obtain ⟨e, ws, he, hws⟩ := h.operators least joined hclose hvs (by omega)
    exact ⟨e, ws, .comparison hoffers hcomparison hjoined he, hws⟩
  · obtain ⟨right, vs, hright, hvs⟩ := h.expression (ahead.power + 1) hclose hts hus hlength
    have hshort : vs.length < (ts ++ us).length := hright.length
    obtain ⟨e, ws, he, hws⟩ := h.operators least (ahead.join left right) hclose hvs (by omega)
    exact ⟨e, ws, .binary hoffers hcomparison hright he, hws⟩

theorem operators_succ (least : Nat) (left : Expr) (hclose : Closed close) (hts : Tail close ts)
    (hlength : ts.length ≤ n) : ReadsTo close (.operators least left) ts := by
  cases hts with
  | done =>
    obtain ⟨t, us, rfl⟩ : ∃ t us, close = t :: us := by
      cases close with
      | nil => exact hclose.elim
      | cons t us => exact ⟨t, us, rfl⟩
    exact ⟨left, _, .stop (.kind hclose), .done⟩
  | @more op o vs hop ho hvs =>
    rw [List.length_append] at hlength
    cases hop with
    | @plain t hkind hpower =>
      have hnot : t.value ≠ "not" := by
        intro hnot
        rw [hnot] at hpower
        cases hpower
      cases hahead : Ahead.ofToken? least t none with
      | some ahead =>
        exact h.offered left (.plain hkind hnot hahead) hclose ho hvs
          (by rw [List.length_singleton] at hlength; omega)
      | none => exact ⟨left, _, .stop (.plain hkind hnot hahead), .more (.plain hkind hpower) ho hvs⟩
    | @negated t relation hkind hnot hrelation =>
      cases hahead : Ahead.ofToken? least relation (some t.location) with
      | some ahead =>
        have hoffers : Offers least ([t, relation] ++ (o ++ vs)) ahead (o ++ vs) :=
          .negated hkind hnot hrelation hahead
        exact h.offered left hoffers hclose ho hvs (by rw [List.length_cons] at hlength; omega)
      | none =>
        exact ⟨left, _, .stop (.negated hkind hnot hrelation hahead),
          .more (.negated hkind hnot hrelation) ho hvs⟩

end Tractable

/-- **Every phrase is read**, by induction on the number of tokens.  An operator that one production
refuses heads the tail that it leaves to the production around it. -/
theorem tractable (n : Nat) : Tractable n := by
  induction n with
  | zero => exact ⟨nofun, nofun, nofun⟩
  | succ n ih =>
    exact {
      expression := fun least hclose hts hus hlength =>
        ih.expression_succ least hclose hts hus (Nat.le_of_lt_succ hlength)
      chain := fun power left token before hclose hts hus hlength =>
        ih.chain_succ power left token before hclose hts hus (Nat.le_of_lt_succ hlength)
      operators := fun least left hclose hts hlength =>
        ih.operators_succ least left hclose hts (Nat.le_of_lt_succ hlength) }

/-- A text whose tokens form an expression is read to its end. -/
theorem reads_of_phrase {ts close : List Token} (hclose : Closed close)
    (h : Phrase .expression ts) : ∃ e, Reads (.expression 0) (ts ++ close) e close := by
  obtain ⟨o, us, hus, ho, htail⟩ := h.operand_tail .done
  rw [hus]
  obtain ⟨e, vs, he, hvs⟩ := (tractable _).expression 0 hclose ho htail (Nat.lt_succ_self _)
  obtain rfl := hvs.eq_of_refuses he.refuses
  exact ⟨e, he⟩

end Grammar

/-! ### Whole texts -/

open Grammar

theorem Token.EndsText.closed {t : Token} (h : t.EndsText) (ts : List Token) : Closed (t :: ts) := by
  show t.kind ≠ .operator
  rcases h with h | h <;> rw [h] <;> nofun

theorem Token.EndsText.opens {t : Token} (h : t.EndsText) : t.opens = false := by
  rcases h with h | h <;> simp [Token.opens, Token.prefixPower?, Token.is, h]

theorem solid_append_end {t : Token} (h : t.EndsText) (tokens : List Token) :
    solid (tokens ++ [t]) = solid tokens ++ [t] := by
  have hblank : t.isBlank = false := by
    rcases h with h | h <;> simp [Token.isBlank, h]
  rw [solid, List.filter_append, List.filter_cons_of_pos (by rw [hblank]; rfl)]
  rfl

/-- **The grammar accepts its language.**  A list of tokens in front of an end or a caret, in which
no dot follows a number or a constant, is read without a fault just where its tokens that are not
blank are operands with binary operators between them. -/
theorem parse_accepts_iff {tokens : List Token} {last : Token} (hlast : last.EndsText)
    (hinner : ∀ t ∈ tokens, ¬ t.EndsText) (hdots : Undotted (solid tokens)) :
    (parse (tokens ++ [last])).fault = none ↔ Phrase .expression (solid tokens) := by
  constructor
  · intro hfault
    have hterminates : Terminates (tokens ++ [last]) :=
      terminates_of_last List.getLast?_concat hlast.opens
    obtain ⟨e, t, us, -, hreads, ht⟩ := reads_of_parse hterminates hfault
    rw [solid_append_end hlast] at hreads
    have hdotsEnd : Undotted (solid tokens ++ [last]) := by
      refine List.isChain_append.mpr ⟨hdots, .singleton last, fun _ _ u hu _ => ?_⟩
      cases hu
      exact fun hdot => hlast.closed [] hdot.1
    obtain ⟨ws, hws, hphrase, -⟩ := shape_of_reads hreads hdotsEnd
    -- the end that was found is the last token, since there is no other
    rcases us.eq_nil_or_concat with rfl | ⟨vs, u, rfl⟩
    · rw [← List.concat_eq_append, ← List.concat_eq_append, List.concat_inj] at hws
      rw [hws.1]
      exact hphrase
    · have hmem : t ∈ solid tokens := by
        rw [List.concat_eq_append, ← List.cons_append, ← List.append_assoc] at hws
        rw [List.append_inj_left' hws rfl]
        simp
      exact absurd ht (hinner t (List.mem_of_mem_filter hmem))
  · intro hphrase
    obtain ⟨e, he⟩ := reads_of_phrase (hlast.closed []) hphrase
    rw [← solid_append_end hlast] at he
    rw [parse_of_reads he hlast]

/-- A negated name is a text, since it is an operand. -/
theorem parse_accepts_negation :
    let text : List Token := [.ofText .operator "not" .origin, .ofText .identifier "a" ⟨1, 4⟩]
    let last : Token := .ofText .eof "" ⟨1, 5⟩
    last.EndsText ∧ (∀ t ∈ text, ¬ t.EndsText) ∧ Undotted (solid text) ∧
      (parse (text ++ [last])).fault = none := by
  intro text last
  have hlast : last.EndsText := .inl rfl
  have hdots : Undotted (solid text) := List.isChain_cons_cons.mpr ⟨nofun, .singleton _⟩
  have hinner : ∀ t ∈ text, ¬ t.EndsText := by
    simp [text, Token.EndsText, Token.ofText]
  refine ⟨hlast, hinner, hdots, (parse_accepts_iff hlast hinner hdots).mpr ?_⟩
  refine .operand (.prefixed ⟨rfl, .head _⟩ (.core (.value (.name rfl ?_))))
  simp [IsConstant, Token.ofText]

end FilterLang
