import FilterLang.Proofs.Printing.Dots

/-!
# What a dot belongs to

A field belongs to the operand right in front of its dot, and operators take the operand with all of
its fields.  Numbers and constants take no fields, though, and a dot behind one of them is left to
what goes on there: a prefix operator reads fields behind its operand.

* `Expr.objects` — the trees in front of the dots of a tree.
* `Expr.isSingle`, `Expr.isPrefixed`, `Expr.Attached` — the objects that there may be.
* `looseDot` — whether a dot stands right behind a number or a constant.
* `attached_of_reads` — what is read without brackets attaches its dots to single operands just
  where none is loose, by induction on the rules of the grammar.
* `objects_of_readTree` — the objects in the tree of a text.
* `readTree_looseDot` — a text with a loose dot.
-/

namespace FilterLang

open Grammar

/-! ### Objects -/

namespace Expr

/-- The trees in front of the dots of a tree. -/
def objects : Expr → List Expr
  | unary _ _ operand => operand.objects
  | binary _ _ left right => left.objects ++ right.objects
  | member _ object property _ => object :: (object.objects ++ property.objects)
  | call _ callee => callee.objects
  | _ => []

/-- Whether the tree is a name, a text, or a field of something. -/
def isSingle : Expr → Bool
  | identifier .. | string .. | member .. => true
  | _ => false

/-- Whether a prefix operator is at the root of the tree. -/
def isPrefixed : Expr → Bool
  | unary .. => true
  | _ => false

/-- Every object is single, or else has a prefix operator at its root where this is tolerated. -/
def Attached (lax : Bool) (e : Expr) : Prop :=
  ∀ object ∈ e.objects, object.isSingle = true ∨ lax = true ∧ object.isPrefixed = true

variable {lax : Bool} {note : Note} {operator : String} {e left right object : Expr}

theorem attached_of_objects (h : e.objects = []) : e.Attached lax := by
  intro object hobject
  rw [h] at hobject
  cases hobject

theorem attached_binary :
    (binary note operator left right).Attached lax ↔ left.Attached lax ∧ right.Attached lax := by
  simp only [Attached, objects, List.mem_append, or_imp, forall_and]

theorem attached_field {place : Note} {name : String} :
    (member note object (identifier place name) false).Attached lax ↔
      (object.isSingle = true ∨ lax = true ∧ object.isPrefixed = true) ∧ object.Attached lax := by
  simp only [Attached, objects, List.append_nil, List.mem_cons, forall_eq_or_imp]

theorem attached_join (ahead : Ahead) :
    (ahead.join left right).Attached lax ↔ left.Attached lax ∧ right.Attached lax := by
  have hbinary : (binary (.at ahead.token.location) ahead.token.value left right).Attached lax ↔
      left.Attached lax ∧ right.Attached lax := attached_binary
  rw [Ahead.join]
  cases ahead.negation with
  | none => exact hbinary
  | some => exact hbinary

theorem attached_conjoin {before : Option Expr} {t : Token} :
    (conjoin before t left right).Attached lax ↔
      (left.Attached lax ∧ ∀ e ∈ before, e.Attached lax) ∧ right.Attached lax := by
  cases before with
  | none => simp [conjoin, attached_binary]
  | some before =>
    simp only [conjoin, attached_binary, Option.mem_some_iff, forall_eq']
    tauto

end Expr

/-! ### Loose dots -/

/-- Whether the token is a number or a constant, behind which no fields are read. -/
def Token.takesNoFields (t : Token) : Bool :=
  t.kind == .number || (t.kind == .identifier && ["true", "false", "nil"].contains t.value)

/-- Whether a dot stands right behind a number or a constant.  The flag says so of the first token;
the name of a field is neither. -/
def looseDot : Bool → List Token → Bool
  | _, [] => false
  | behind, [t] => behind && t.is .operator "."
  | behind, t :: u :: ts =>
    if t.is .operator "." then behind || looseDot false ts else looseDot t.takesNoFields (u :: ts)

section

variable {behind : Bool} {t property : Token} {ts us op : List Token}

theorem looseDot_field (h : t.is .operator ".") :
    looseDot behind (t :: property :: ts) = (behind || looseDot false ts) := by
  rw [looseDot, if_pos h]

/-- It does not matter what is in front of a token that is no dot. -/
theorem looseDot_cons (h : ¬ t.is .operator ".") :
    looseDot behind (t :: ts) = looseDot t.takesNoFields ts := by
  cases ts with
  | nil => simp [looseDot, h]
  | cons u ts => rw [looseDot, if_neg h]

/-- An operator other than a dot is no operand. -/
theorem looseDot_operator (hkind : t.kind = .operator) (hdot : ¬ IsDot t) :
    looseDot behind (t :: ts) = looseDot false ts := by
  have htakes : t.takesNoFields = false := by simp [Token.takesNoFields, hkind]
  rw [looseDot_cons ((isDot_iff t).not.mp hdot), htakes]

/-- A word that is no operator is no dot. -/
theorem looseDot_word {kind : TokenKind} (hkind : t.kind = kind) (hne : kind ≠ .operator) :
    looseDot behind (t :: ts) = looseDot t.takesNoFields ts :=
  looseDot_cons ((isDot_iff t).not.mp fun hdot => hne (hkind.symm.trans hdot.1))

theorem looseDot_binary (h : IsBinary op) : looseDot behind (op ++ ts) = looseDot false ts := by
  obtain ⟨u, us, hcons, hkind, hdot⟩ := h.head
  cases h with
  | plain =>
    obtain ⟨rfl, -⟩ := List.cons_eq_cons.mp hcons
    exact looseDot_operator hkind hdot
  | negated _ _ hrelation =>
    obtain ⟨rfl, rfl⟩ := List.cons_eq_cons.mp hcons
    rw [List.cons_append, List.cons_append, List.nil_append, looseDot_operator hkind hdot]
    refine looseDot_operator (kind_of_isNegatable hrelation) fun hdot => ?_
    rw [isNegatable, hdot.2, Bool.and_eq_true] at hrelation
    exact absurd hrelation.2 (by decide)

theorem takesNoFields_of_name (hkind : t.kind = .identifier) (h : constant? t = none) :
    t.takesNoFields = false := by
  rw [constant?] at h
  split_ifs at h with htrue hfalse hnil
  simp [Token.takesNoFields, hkind, htrue, hfalse, hnil]

theorem takesNoFields_of_constant {e : Expr} (hkind : t.kind = .identifier)
    (h : constant? t = some e) : t.takesNoFields = true ∧ e.objects = [] := by
  rw [constant?] at h
  split_ifs at h with hvalue hvalue hvalue <;> cases h <;>
    exact ⟨by simp [Token.takesNoFields, hkind, hvalue], rfl⟩

end

/-! ### What is read without brackets -/

namespace Grammar

/-- The objects in what a production has at hand. -/
def Goal.Attached (lax : Bool) : Goal → Prop
  | .operators _ left | .fields left => left.Attached lax
  | .chain _ left _ before => left.Attached lax ∧ ∀ e ∈ before, e.Attached lax
  | .expression _ | .operand => True

/-- Whether a dot at hand would be loose.  An operand with fields has taken the dots behind it, and
so a dot behind it stands behind a number or a constant. -/
def Goal.behind : Goal → Bool
  | .operators .. => true
  | .fields value => !value.isSingle
  | .expression _ | .operand | .chain .. => false

/-- Fields are read behind a single operand, or behind an operand with its prefix operator. -/
def Goal.Proper : Goal → Prop
  | .fields value => value.isSingle = true ∨ value.isPrefixed = true
  | _ => True

/-- No dot is loose, or one is tolerated. -/
def Calm (lax behind : Bool) (ts : List Token) : Prop := lax = true ∨ looseDot behind ts = false

theorem calm_congr {lax behind behind' : Bool} {ts us : List Token}
    (h : looseDot behind ts = looseDot behind' us) : Calm lax behind ts ↔ Calm lax behind' us := by
  rw [Calm, Calm, h]

/-- A dot is tolerated behind a prefix operator and its operand just where that may be an object. -/
theorem calm_field {lax : Bool} {t property : Token} {ts : List Token} {value : Expr}
    (hdot : t.is .operator ".") (hvalue : value.isSingle = true ∨ value.isPrefixed = true) :
    (value.isSingle = true ∨ lax = true ∧ value.isPrefixed = true) ∧ Calm lax false ts ↔
      Calm lax (!value.isSingle) (t :: property :: ts) := by
  rw [Calm, Calm, looseDot_field hdot]
  cases hsingle : value.isSingle with
  | true => simp
  | false =>
    have hprefixed := hvalue.resolve_left (by simp [hsingle])
    simp only [hprefixed, Bool.false_eq_true, false_or, and_true, Bool.not_false, Bool.true_or,
      Bool.true_eq_false, or_false]
    exact and_iff_left_of_imp .inl

/-- No token opens a bracket. -/
def NoOpen (ts : List Token) : Prop := ∀ t ∈ ts, ¬ t.is .bracket "("

theorem NoOpen.of_append {ts us : List Token} (h : NoOpen (ts ++ us)) : NoOpen us :=
  fun t ht => h t (List.mem_append_right _ ht)

theorem NoOpen.of_cons {t : Token} {ts : List Token} (h : NoOpen (t :: ts)) : NoOpen ts :=
  fun u hu => h u (.tail t hu)

theorem NoOpen.of_reads {g : Goal} {ts us : List Token} {e : Expr} (hts : NoOpen ts)
    (h : Reads g ts e us) : NoOpen us := by
  obtain ⟨ws, rfl, -⟩ := h.replace
  exact hts.of_append

/-- **Dots are attached to what is in front of them.**  What a production reads without brackets
attaches each dot to a single operand just where what it has at hand does and no dot is loose. -/
theorem attached_of_reads (lax : Bool) {g : Goal} {ts us : List Token} {e : Expr}
    (h : Reads g ts e us) (hopen : NoOpen ts) (hproper : g.Proper) :
    e.Attached lax ∧ Calm lax true us ↔ g.Attached lax ∧ Calm lax g.behind ts := by
  induction h with
  | expression hoperand _ ihoperand ihoperators =>
    exact (ihoperators (hopen.of_reads hoperand) trivial).trans (ihoperand hopen trivial)
  | stop _ => exact Iff.rfl
  | @binary least ts us vs ws ahead left right e hoffers _ hright _ ihright ihoperators =>
    obtain ⟨op, rfl, hop⟩ := hoffers.isBinary
    have hus := hopen.of_append
    have hright' : right.Attached lax ∧ Calm lax true vs ↔ True ∧ Calm lax false us :=
      ihright hus trivial
    have he : e.Attached lax ∧ Calm lax true ws ↔
        (ahead.join left right).Attached lax ∧ Calm lax true vs :=
      ihoperators (hus.of_reads hright) trivial
    rw [he, Expr.attached_join, and_assoc, hright', true_and]
    exact and_congr_right fun _ => calm_congr (looseDot_binary hop).symm
  | @comparison least ts us vs ws ahead left joined e hoffers _ hchain _ ihchain ihoperators =>
    obtain ⟨op, rfl, hop⟩ := hoffers.isBinary
    have hus := hopen.of_append
    have hjoined : joined.Attached lax ∧ Calm lax true vs ↔
        (left.Attached lax ∧ ∀ e ∈ (none : Option Expr), e.Attached lax) ∧ Calm lax false us :=
      ihchain hus trivial
    have he : e.Attached lax ∧ Calm lax true ws ↔ joined.Attached lax ∧ Calm lax true vs :=
      ihoperators (hus.of_reads hchain) trivial
    have hnone : ∀ e ∈ (none : Option Expr), e.Attached lax := fun e he => by cases he
    rw [he, hjoined, and_iff_left hnone]
    exact and_congr_right fun _ => calm_congr (looseDot_binary hop).symm
  | @prefixed t power us vs ws inner e hpower hinner _ ihinner ihfields =>
    have hus : NoOpen us := hopen.of_cons
    have hinner' := ihinner hus trivial
    have he := ihfields (hus.of_reads hinner) (.inr rfl)
    have hkind := kind_of_prefixPower? hpower
    have hdot : ¬ IsDot t := by
      intro hdot
      rw [Token.prefixPower?, if_pos hkind, hdot.2] at hpower
      cases hpower
    -- a field behind the operand would belong to the prefix operator, which is not single
    exact (he.trans hinner').trans
      (and_congr_right fun _ => calm_congr (looseDot_operator hkind hdot).symm)
  | bracketed hbracket => exact absurd hbracket (hopen _ (.head _))
  | constant hkind hconstant =>
    obtain ⟨htakes, hobjects⟩ := takesNoFields_of_constant hkind hconstant
    rw [Goal.Attached, Goal.behind, calm_congr (looseDot_word hkind (by decide)), htakes,
      and_iff_right (Expr.attached_of_objects hobjects), true_and]
  | @name t us vs e hkind hconstant _ ihfields =>
    have he := ihfields (hopen.of_cons) (.inl rfl)
    rw [he, Goal.Attached, Goal.Attached, Goal.behind, Goal.behind,
      calm_congr (looseDot_word hkind (by decide)), takesNoFields_of_name hkind hconstant,
      and_iff_right (Expr.attached_of_objects rfl), true_and]
    rfl
  | @number t u us value hkind _ =>
    have htakes : t.takesNoFields = true := by simp [Token.takesNoFields, hkind]
    rw [Goal.Attached, Goal.behind, calm_congr (looseDot_word hkind (by decide)), htakes,
      and_iff_right (Expr.attached_of_objects rfl), true_and]
  | @string t us vs e hkind _ ihfields =>
    have he := ihfields (hopen.of_cons) (.inl rfl)
    have htakes : t.takesNoFields = false := by
      rw [Token.takesNoFields, hkind]
      rfl
    rw [he, Goal.Attached, Goal.Attached, Goal.behind, Goal.behind,
      calm_congr (looseDot_word hkind (by decide)), htakes,
      and_iff_right (Expr.attached_of_objects rfl), true_and]
    rfl
  | @chainEnd power t next ts us left right before _ _ ihright =>
    have hright : right.Attached lax ∧ Calm lax true (next :: us) ↔ True ∧ Calm lax false ts :=
      ihright hopen trivial
    rw [Expr.attached_conjoin, and_assoc, hright, true_and]
    rfl
  | @chainMore power t next ts us vs left right e before hright hnext _ ihright ihchain =>
    have hright' : right.Attached lax ∧ Calm lax true (next :: us) ↔ True ∧ Calm lax false ts :=
      ihright hopen trivial
    have he : e.Attached lax ∧ Calm lax true vs ↔ (right.Attached lax ∧
        ∀ e ∈ some (conjoin before t left right), e.Attached lax) ∧ Calm lax false us :=
      ihchain (hopen.of_reads hright).of_cons trivial
    have hcomparison : looseDot true (next :: us) = looseDot false us :=
      looseDot_binary (isBinary_of_isComparison hnext)
    rw [calm_congr hcomparison, true_and] at hright'
    rw [he, Goal.Attached, Goal.behind, ← hright']
    constructor
    · rintro ⟨⟨hcomparand, hall⟩, hcalm⟩
      exact ⟨(Expr.attached_conjoin.mp (hall _ rfl)).1, hcomparand, hcalm⟩
    · rintro ⟨hhand, hcomparand, hcalm⟩
      refine ⟨⟨hcomparand, fun e he => ?_⟩, hcalm⟩
      cases he
      exact Expr.attached_conjoin.mpr ⟨hhand, hcomparand⟩
  | @field t property us vs value e hdot _ _ ihfields =>
    have he := ihfields (hopen.of_cons.of_cons) (.inl rfl)
    rw [he, Goal.Attached, Expr.attached_field, Goal.Attached, and_comm (b := value.Attached lax),
      and_assoc]
    exact and_congr_right fun _ => calm_field hdot hproper
  | noField hdot =>
    exact and_congr_right fun _ => calm_congr ((looseDot_cons hdot).trans (looseDot_cons hdot).symm)

end Grammar

/-! ### Whole texts -/

/-- A text without the character `(` has no token that opens a bracket. -/
theorem noOpen_scan {source : String} (h : '(' ∉ source.toList) : NoOpen (scan source).tokens := by
  obtain ⟨segments, htiling⟩ := Scanner.scan_tiles source
  intro t ht hbracket
  have hkind := kind_of_is hbracket
  rw [htiling.tokens, List.mem_append, List.mem_filterMap] at ht
  rcases ht with ⟨segment, hsegment, htoken⟩ | ht
  · cases segment with
    | token token span =>
      obtain rfl : token = t := Option.some.inj htoken
      obtain ⟨-, -, -, hvalue⟩ := htiling.wellFormed _ hsegment
      have hbracket' : token.value = "(" := congrArg Prod.snd (Token.is_iff_word.mp hbracket)
      have hspan : span = ['('] := by
        rw [← String.toList_ofList (l := span), ← hvalue (by rw [hkind]; decide), hbracket']
        rfl
      refine h ?_
      rw [← htiling.text]
      exact List.mem_flatMap.mpr ⟨_, hsegment, hspan ▸ List.mem_singleton_self _⟩
    | comment => cases htoken
    | stray => cases htoken
  · rw [List.mem_singleton.mp ht] at hkind
    cases hkind

/-- **What a dot belongs to.**  In the tree of a text without brackets, the object of every field is
a single operand or an operand with its prefix operator, and never a binary operation.  All of them
are single operands just where no dot stands right behind a number or a constant. -/
theorem objects_of_readTree {source : String} {e : Expr} (hopen : '(' ∉ source.toList)
    (h : readTree source = .ok e) :
    (∀ object ∈ e.objects, object.isSingle = true ∨ object.isPrefixed = true) ∧
      ((∀ object ∈ e.objects, object.isSingle = true) ↔
        looseDot false (solid (scan source).tokens) = false) := by
  obtain ⟨front, close, hsolid, -, hclose, hreads⟩ := reads_of_readTree h
  have hnoOpen : NoOpen (front ++ [close]) := by
    rw [← hsolid]
    exact fun t ht => noOpen_scan hopen t (List.mem_of_mem_filter ht)
  -- no dot is left at the end of the text
  have hend : looseDot true [close] = false := by simp [looseDot, Token.is, hclose]
  constructor
  · intro object hobject
    have he := ((attached_of_reads true hreads hnoOpen trivial).mpr ⟨trivial, .inl rfl⟩).1
    exact (he object hobject).imp_right And.right
  · have he : e.Attached false ∧ Calm false true [close] ↔
        True ∧ Calm false false (front ++ [close]) := attached_of_reads false hreads hnoOpen trivial
    rw [← hsolid, Calm, Calm, hend] at he
    simpa [Expr.Attached] using he

/-- The fields in `-a.x ** b.y.z + "c".not`, which belong to the operands. -/
theorem objects_of_readTree_operands :
    ∃ e, readTree "-a.x ** b.y.z + \"c\".not" = .ok e ∧
      ∀ object ∈ e.objects, object.isSingle = true := by
  have hany : (readTree "-a.x ** b.y.z + \"c\".not").toOption.any (fun _ => true) = true := by
    decide +kernel
  obtain ⟨e, he, -⟩ := exists_readTree hany
  exact ⟨e, he, (objects_of_readTree (by decide) he).2.mpr (by decide +kernel)⟩

/-- **A dot that belongs to an operator.**  The constant takes no field, and so the field is read
behind the prefix operator and its operand. -/
theorem readTree_looseDot :
    '(' ∉ "-true.x".toList ∧ ')' ∉ "-true.x".toList ∧
      (readTree "-true.x").toOption.map (fun e => e.objects.map Expr.isPrefixed) = some [true] := by
  decide +kernel

end FilterLang
