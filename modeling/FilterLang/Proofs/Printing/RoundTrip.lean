import FilterLang.Proofs.Grammar.Language
import FilterLang.Proofs.Printing.Text

/-!
# Reading undoes printing

* `Expr.bare` — a tree without places and natures.
* `Holds`, `Parses` — tokens that are read as a tree, with fields behind it or with operators.
* `Fits`, `Closes` — the operators around a tree bind more weakly than its own, so that it stays
  together without brackets; `Tight` says so of its own operators.
* `Says.parses`, `Parses.prefixed`, `Holds.field`, `Parses.bracketed` — one lemma for each way to put
  a tree together.
* `readsAs_words` — tokens with the words of a tree are read as that tree.
* `parse_of_printable` — the text of a printable tree is read as that tree.
* `parse_print` — so is the text of a well-formed tree.
-/

namespace FilterLang

namespace Expr

/-- The tree without places and natures. -/
def bare : Expr → Expr
  | unary _ operator operand => unary {} operator operand.bare
  | binary _ operator left right => binary {} operator left.bare right.bare
  | member _ object property method => member {} object.bare property.bare method
  | call _ callee => call {} callee.bare
  | pointer _ name => pointer {} name
  | string _ value => string {} value
  | integer _ value => integer {} value
  | bool _ value => bool {} value
  | nil _ => nil {}
  | identifier _ name => identifier {} name

end Expr

open Scanner Grammar

/-! ### How tightly trees bind -/

/-- The powers that well-formed trees bind with: comparisons all bind alike, and no binary operator
binds exactly as tightly as a prefix operator. -/
def Binding.Proper : Binding → Prop
  | .binary power comparison => comparison = true → power = 20
  | .unary power => power = 50 ∨ power = 90
  | .atom => True

theorem proper_ofOperator (operator : String) : (Binding.ofOperator operator).Proper := by
  intro hcomparison
  rw [Operator.binaryPower_of_isComparison hcomparison]
  rfl

theorem prefixPower_cases {operator : String} (h : operator ∈ ["not", "!", "-", "+"]) :
    Operator.prefixPower operator = some (Binding.prefixPower operator) ∧
      (Binding.prefixPower operator = 50 ∨ Binding.prefixPower operator = 90) := by
  simp only [List.mem_cons, List.not_mem_nil, or_false] at h
  rcases h with rfl | rfl | rfl | rfl <;> exact ⟨rfl, by decide⟩

theorem binaryPower_ne {operator : String} {power : Nat}
    (h : Operator.binaryPower operator = some power) : power ≠ 50 ∧ power ≠ 90 := by
  have hall : ∀ operator ∈ symbols ++ wordOperators,
      Operator.binaryPower operator ≠ some 50 ∧ Operator.binaryPower operator ≠ some 90 := by
    decide
  have hmem : operator ∈ symbols ++ wordOperators :=
    List.mem_append.mpr (mem_of_binaryPower (by rw [h]; rfl))
  obtain ⟨h50, h90⟩ := hall operator hmem
  constructor
  · intro hpower
    subst hpower
    exact h50 h
  · intro hpower
    subst hpower
    exact h90 h

/-- No binary operator binds exactly as tightly as a prefix operator. -/
theorem Binding.Proper.ne_power {operator : String} {power p : Nat}
    (h : (Binding.unary p).Proper) (hpower : Operator.binaryPower operator = some power) :
    power ≠ p := by
  obtain ⟨h50, h90⟩ := binaryPower_ne hpower
  rcases h with rfl | rfl
  · exact h50
  · exact h90

theorem proper_binding {t : Expr} (h : t.Printable) : t.binding.Proper := by
  refine Expr.Printable.induction (motive := fun t => t.binding.Proper) ?negation ?unary ?binary
    ?member ?string ?integer ?bool ?nil ?identifier t h
  case negation =>
    intro note inner relation left right hrelation _ _ _ _
    rw [Expr.binding_negation hrelation]
    exact proper_ofOperator relation
  case unary =>
    intro note operator operand hoperator hplain _ _
    rw [Expr.binding_of_plain hplain]
    exact (prefixPower_cases hoperator).2
  case binary => exact fun _ operator _ _ _ _ _ _ _ => proper_ofOperator operator
  case member => exact fun _ _ _ _ _ _ _ _ _ => trivial
  case string => exact fun _ _ => trivial
  case integer => exact fun _ _ _ => trivial
  case bool => exact fun _ _ => trivial
  case nil => exact fun _ => trivial
  case identifier => exact fun _ _ _ _ => trivial

/-! ### Tokens that are read as a tree -/

/-- No comparison is at hand. -/
def NoComparison (rest : List Token) : Prop :=
  ∀ t us, rest = t :: us → ¬ Grammar.isComparison t

/-- The operators of a tree bind with at least the power `least`. -/
def Fits (least : Nat) : Binding → Prop
  | .binary power _ => least ≤ power
  | _ => True

/-- The operator behind a tree does not take an operand from it. -/
def Closes (rest : List Token) : Binding → Prop
  | .binary power comparison =>
    Refuses (power + 1) rest ∧ (comparison = true → NoComparison rest)
  | .unary power => Refuses power rest
  | .atom => True

/-- The tokens are read as an operand, with the fields behind it. -/
def Holds (ts : List Token) (e : Expr) : Prop :=
  ∀ ⦃rest us : List Token⦄ ⦃v : Expr⦄, Reads (.fields e) rest v us →
    Reads .operand (ts ++ rest) v us

/-- The tokens are read as a left side, with the operators behind it. -/
def Parses (binding : Binding) (ts : List Token) (e : Expr) : Prop :=
  ∀ ⦃least : Nat⦄ ⦃rest us : List Token⦄ ⦃v : Expr⦄, Fits least binding → Closes rest binding →
    NoDot rest → Reads (.operators least e) rest v us → Reads (.expression least) (ts ++ rest) v us

theorem noField {rest : List Token} (hdot : NoDot rest) (hne : rest ≠ []) (e : Expr) :
    Reads (.fields e) rest e rest := by
  obtain ⟨t, us, rfl⟩ := List.exists_cons_of_ne_nil hne
  exact .noField fun h => hdot ((isDot_iff t).mpr h)

theorem Holds.parses {ts : List Token} {e : Expr} (h : Holds ts e) (binding : Binding) :
    Parses binding ts e := by
  intro least rest us v _ _ hdot hreads
  exact .expression (h (noField hdot hreads.ne_nil e)) hreads

/-- A token that is no operator ends every tree. -/
theorem Parses.closed {binding : Binding} {ts : List Token} {e : Expr} {t : Token}
    (h : Parses binding ts e) (hkind : t.kind ≠ .operator) (rest : List Token) :
    Reads (.expression 0) (ts ++ t :: rest) e (t :: rest) := by
  have hrefuses : ∀ least, Refuses least (t :: rest) := fun _ => .kind hkind
  have hcomparison : NoComparison (t :: rest) := by
    intro t us hcons h
    cases hcons
    rw [Grammar.isComparison, Bool.and_eq_true, beq_iff_eq] at h
    exact hkind h.1
  have hfits : Fits 0 binding := by
    cases binding with
    | binary => exact Nat.zero_le _
    | unary => trivial
    | atom => trivial
  have hcloses : Closes (t :: rest) binding := by
    cases binding with
    | binary => exact ⟨hrefuses _, fun _ => hcomparison⟩
    | unary => exact hrefuses _
    | atom => trivial
  exact h hfits hcloses (fun hdot => hkind hdot.1) (.stop (hrefuses 0))

/-- Tokens in brackets are read as one operand. -/
theorem Parses.bracketed {binding : Binding} {ts : List Token} {e : Expr} {t close : Token}
    (h : Parses binding ts e) (hopen : t.is .bracket "(") (hclose : close.is .bracket ")") :
    Holds (t :: (ts ++ [close])) e := by
  intro rest us v hfields
  have hinner := h.closed (kind_ne (kind_of_is hclose)) rest
  have hassoc : t :: (ts ++ [close]) ++ rest = t :: (ts ++ close :: rest) := by simp
  rw [hassoc]
  exact .bracketed hopen hinner hclose hfields

/-! ### The operators around a tree -/

theorem ofToken?_eq_none_iff {least : Nat} {t : Token} {negation : Option Location} :
    Ahead.ofToken? least t negation = none ↔
      ∀ power, Operator.binaryPower t.value = some power → power < least := by
  rw [Ahead.ofToken?]
  cases Operator.binaryPower t.value with
  | none => simp
  | some power => simp

theorem ofToken?_of_le {least power : Nat} {t : Token}
    (h : Operator.binaryPower t.value = some power) (hle : least ≤ power)
    (negation : Option Location) :
    Ahead.ofToken? least t negation = some ⟨t, power, negation⟩ := by
  rw [Ahead.ofToken?, h]
  exact if_pos hle

/-- An operator that is too weak is too weak for a greater power. -/
theorem Grammar.Refuses.mono {least power : Nat} {rest : List Token} (h : Refuses least rest)
    (hle : least ≤ power) : Refuses power rest := by
  have hnone : ∀ {t : Token} {negation : Option Location},
      Ahead.ofToken? least t negation = none → Ahead.ofToken? power t negation = none := by
    intro t negation hahead
    rw [ofToken?_eq_none_iff] at hahead ⊢
    exact fun p hp => Nat.lt_of_lt_of_le (hahead p hp) hle
  cases h with
  | kind hkind => exact .kind hkind
  | plain hkind hnot hahead => exact .plain hkind hnot (hnone hahead)
  | negated hkind hnot hrelation hahead => exact .negated hkind hnot hrelation (hnone hahead)

/-- A comparison is not too weak for the power 20. -/
theorem Grammar.Refuses.noComparison {least : Nat} {rest : List Token} (h : Refuses least rest)
    (hle : least ≤ 20) : NoComparison rest := by
  rintro t us rfl hcomparison
  rw [Grammar.isComparison, Bool.and_eq_true, beq_iff_eq] at hcomparison
  have hpower := Operator.binaryPower_of_isComparison hcomparison.2
  rcases h.of_operator hcomparison.1 with ⟨-, hahead⟩ | ⟨hnot, -⟩
  · have hlt := ofToken?_eq_none_iff.mp hahead 20 hpower
    omega
  · rw [hnot] at hpower
    cases hpower

/-- Every operator of a tree binds with at least the power `least`, a prefix operator as well. -/
def Tight (least : Nat) : Binding → Prop
  | .binary power _ | .unary power => least ≤ power
  | .atom => True

variable {binding : Binding}

theorem Tight.fits {least power : Nat} (h : Tight power binding) (hle : least ≤ power) :
    Fits least binding := by
  cases binding with
  | binary => exact Nat.le_trans hle h
  | unary => trivial
  | atom => trivial

theorem Tight.closes {least : Nat} {rest : List Token} (h : Tight least binding)
    (hproper : binding.Proper) (hrefuses : Refuses least rest) : Closes rest binding := by
  cases binding with
  | binary power comparison =>
    refine ⟨hrefuses.mono (Nat.le_succ_of_le h), fun hcomparison => ?_⟩
    obtain rfl := hproper hcomparison
    exact hrefuses.noComparison h
  | unary power => exact hrefuses.mono h
  | atom => trivial

/-- A tree that needs no brackets is read to its end. -/
theorem Parses.whole {least : Nat} {ts rest : List Token} {e : Expr} (h : Parses binding ts e)
    (hproper : binding.Proper) (htight : Tight least binding) (hrefuses : Refuses least rest)
    (hdot : NoDot rest) : Reads (.expression least) (ts ++ rest) e rest :=
  h (htight.fits (Nat.le_refl _)) (htight.closes hproper hrefuses) hdot (.stop hrefuses)

/-! ### Binary operators -/

/-- The tokens of a binary operator, and what is ahead where they are at hand. -/
inductive Says : List Token → Ahead → Prop where
  | plain {t : Token} {power : Nat} (hkind : t.kind = .operator)
      (hpower : Operator.binaryPower t.value = some power) : Says [t] ⟨t, power, none⟩
  | negated {t relation : Token} (hkind : t.kind = .operator) (hnot : t.value = "not")
      (hrelation : isNegatable relation) :
      Says [t, relation] ⟨relation, 20, some t.location⟩

namespace Says

variable {os us : List Token} {ahead : Ahead}

theorem power (h : Says os ahead) : Operator.binaryPower ahead.token.value = some ahead.power := by
  cases h with
  | plain _ hpower => exact hpower
  | negated _ _ hrelation =>
    rw [isNegatable, Bool.and_eq_true] at hrelation
    exact Operator.binaryPower_of_isNegatable hrelation.2

theorem ne_not {t : Token} {power : Nat} (h : Operator.binaryPower t.value = some power) :
    t.value ≠ "not" := by
  intro hnot
  rw [hnot] at h
  cases h

theorem offers {least : Nat} (h : Says os ahead) (hle : least ≤ ahead.power) (us : List Token) :
    Offers least (os ++ us) ahead us := by
  have hpower := h.power
  cases h with
  | plain hkind => exact .plain hkind (ne_not hpower) (ofToken?_of_le hpower hle _)
  | negated hkind hnot hrelation =>
    exact .negated hkind hnot hrelation (ofToken?_of_le hpower hle _)

theorem refuses {least : Nat} (h : Says os ahead) (hlt : ahead.power < least) (us : List Token) :
    Refuses least (os ++ us) := by
  have hpower := h.power
  have hnone : ∀ negation, Ahead.ofToken? least ahead.token negation = none := by
    intro negation
    rw [ofToken?_eq_none_iff, hpower]
    intro power hsome
    cases hsome
    exact hlt
  cases h with
  | plain hkind => exact .plain hkind (ne_not hpower) (hnone _)
  | negated hkind hnot hrelation => exact .negated hkind hnot hrelation (hnone _)

theorem noDot (h : Says os ahead) (us : List Token) : NoDot (os ++ us) := by
  cases h with
  | plain _ hpower =>
    intro hdot
    rw [hdot.2] at hpower
    cases hpower
  | negated _ hnot _ =>
    intro hdot
    rw [hdot.2] at hnot
    exact absurd hnot (by decide)

/-- A comparison has no `not` in front of it. -/
theorem noComparison (h : Says os ahead) (hplain : ¬ Operator.isComparison ahead.token.value)
    (us : List Token) : NoComparison (os ++ us) := by
  intro t vs hcons hcomparison
  rw [Grammar.isComparison, Bool.and_eq_true] at hcomparison
  cases h with
  | plain =>
    cases hcons
    exact hplain hcomparison.2
  | negated _ hnot _ =>
    cases hcons
    rw [hnot] at hcomparison
    exact absurd hcomparison.2 (by decide)

/-- A comparison is one token. -/
theorem eq_of_isComparison (h : Says os ahead)
    (hcomparison : Operator.isComparison ahead.token.value) :
    os = [ahead.token] ∧ ahead.token.kind = .operator ∧ ahead = ⟨ahead.token, 20, none⟩ := by
  have hpower := h.power
  rw [Operator.binaryPower_of_isComparison hcomparison] at hpower
  cases h with
  | plain hkind =>
    cases hpower
    exact ⟨rfl, hkind, rfl⟩
  | negated _ _ hrelation => exact absurd hcomparison (not_isComparison_of_isNegatable hrelation)

theorem conjoin_eq_join (h : Says os ahead) (hcomparison : Operator.isComparison ahead.token.value)
    (left right : Expr) : conjoin none ahead.token left right = ahead.join left right := by
  rw [(h.eq_of_isComparison hcomparison).2.2]
  rfl

end Says

theorem ofOperator_eq {operator : String} {power : Nat}
    (h : Operator.binaryPower operator = some power) :
    Binding.ofOperator operator = .binary power (Operator.isComparison operator) := by
  rw [Binding.ofOperator, h]
  rfl

/-- What may stand on the left of an operator without brackets binds at least as tightly, and the
operator takes no operand from it. -/
theorem closes_left {os : List Token} {ahead : Ahead} (h : Says os ahead)
    (hproper : binding.Proper) (hdue : binding.needsBracketsLeftOf ahead.token.value = false)
    (us : List Token) : Tight ahead.power binding ∧ Closes (os ++ us) binding := by
  have hpower := h.power
  cases binding with
  | binary power comparison =>
    simp only [Binding.needsBracketsLeftOf, hpower, Option.getD_some, Bool.or_eq_false_iff,
      decide_eq_false_iff_not, Nat.not_lt, Bool.and_eq_false_iff] at hdue
    obtain ⟨hle, hcomparisons⟩ := hdue
    refine ⟨hle, h.refuses (Nat.lt_succ_of_le hle) us, fun hcomparison => ?_⟩
    refine h.noComparison (fun hahead => ?_) us
    rcases hcomparisons with hno | hno
    · rw [hno] at hahead
      cases hahead
    · rw [hno] at hcomparison
      cases hcomparison
  | unary power =>
    simp only [Binding.needsBracketsLeftOf, hpower, Option.getD_some, decide_eq_false_iff_not,
      Nat.not_lt] at hdue
    have hne : ahead.power ≠ power := hproper.ne_power hpower
    exact ⟨hdue, h.refuses (by omega) us⟩
  | atom => exact ⟨trivial, trivial⟩

/-- What may stand on the right of an operator without brackets binds more tightly. -/
theorem tight_right {operator : String} {power : Nat}
    (h : Operator.binaryPower operator = some power) (hproper : binding.Proper)
    (hdue : binding.needsBracketsRightOf operator = false) : Tight (power + 1) binding := by
  cases binding with
  | binary =>
    simp only [Binding.needsBracketsRightOf, h, Option.getD_some, decide_eq_false_iff_not,
      Nat.not_le] at hdue
    exact hdue
  | unary p =>
    simp only [Binding.needsBracketsRightOf, h, Option.getD_some, decide_eq_false_iff_not,
      Nat.not_lt] at hdue
    have hne : power ≠ p := hproper.ne_power h
    show power + 1 ≤ p
    omega
  | atom => trivial

/-- **Two operands with an operator between them** are read as one tree. -/
theorem Says.parses {os ts us : List Token} {ahead : Ahead} {left right : Expr}
    {leftBinding rightBinding : Binding} (h : Says os ahead) (hleft : Parses leftBinding ts left)
    (hright : Parses rightBinding us right) (hleftProper : leftBinding.Proper)
    (hrightProper : rightBinding.Proper)
    (hleftDue : leftBinding.needsBracketsLeftOf ahead.token.value = false)
    (hrightDue : rightBinding.needsBracketsRightOf ahead.token.value = false) :
    Parses (.ofOperator ahead.token.value) (ts ++ (os ++ us)) (ahead.join left right) := by
  intro least rest vs v hfits hcloses hdot hreads
  rw [ofOperator_eq h.power] at hfits hcloses
  obtain ⟨hrefuses, hcomparisons⟩ := hcloses
  obtain ⟨htight, hclosesLeft⟩ := closes_left h hleftProper hleftDue (us ++ rest)
  have hreadsRight : Reads (.expression (ahead.power + 1)) (us ++ rest) right rest :=
    hright.whole hrightProper (tight_right h.power hrightProper hrightDue) hrefuses hdot
  have hoffers : Offers least (os ++ (us ++ rest)) ahead (us ++ rest) := h.offers hfits _
  rw [List.append_assoc, List.append_assoc]
  refine hleft (htight.fits hfits) hclosesLeft (h.noDot _) ?_
  by_cases hcomparison : Operator.isComparison ahead.token.value
  · obtain ⟨next, ws, rfl⟩ := List.exists_cons_of_ne_nil hreads.ne_nil
    have hchain : Reads (.chain ahead.power left ahead.token none) (us ++ next :: ws)
        (conjoin none ahead.token left right) (next :: ws) :=
      .chainEnd hreadsRight (hcomparisons hcomparison next ws rfl)
    rw [h.conjoin_eq_join hcomparison] at hchain
    exact .comparison hoffers hcomparison hchain hreads
  · exact .binary hoffers hcomparison hreadsRight hreads

/-! ### Other forms -/

/-- **A prefix operator in front of an operand** is read as one tree. -/
theorem Parses.prefixed {t : Token} {ts : List Token} {e : Expr} (h : Parses binding ts e)
    (hproper : binding.Proper) (hkind : t.kind = .operator)
    (hoperator : t.value ∈ ["not", "!", "-", "+"])
    (hdue : binding.needsBracketsBehind t.value = false) :
    Parses (.unary (Binding.prefixPower t.value)) (t :: ts) (.unary (.at t.location) t.value e) := by
  intro least rest us v _ hcloses hdot hreads
  have hpower : t.prefixPower? = some (Binding.prefixPower t.value) := by
    rw [Token.prefixPower?, if_pos hkind]
    exact (prefixPower_cases hoperator).1
  have htight : Tight (Binding.prefixPower t.value) binding := by
    cases binding with
    | binary =>
      simp only [Binding.needsBracketsBehind, decide_eq_false_iff_not, Nat.not_le] at hdue
      exact Nat.le_of_lt hdue
    | unary => cases hdue
    | atom => trivial
  have hinner := h.whole hproper htight hcloses hdot
  exact .expression (.prefixed hpower hinner (noField hdot hreads.ne_nil _)) hreads

/-- A field behind an operand. -/
theorem Holds.field {ts : List Token} {e : Expr} {dot property : Token} (h : Holds ts e)
    (hdot : dot.is .operator ".")
    (hproperty : property.kind = .identifier ∨ property.kind = .operator) :
    Holds (ts ++ [dot, property]) (.member (.at property.location) e
      (.identifier (.at property.location) property.value) false) := by
  intro rest us v hfields
  rw [List.append_assoc]
  exact h (.field hdot hproperty hfields)

theorem parses_constant {t : Token} {e : Expr} (hkind : t.kind = .identifier)
    (hconstant : constant? t = some e) (binding : Binding) : Parses binding [t] e := by
  intro least rest us v _ _ _ hreads
  obtain ⟨u, vs, rfl⟩ := List.exists_cons_of_ne_nil hreads.ne_nil
  exact .expression (.constant hkind hconstant) hreads

theorem parses_number {t : Token} {value : Int} (hkind : t.kind = .number)
    (hvalue : Numeral.readInteger? t.value = some value) (binding : Binding) :
    Parses binding [t] (.integer (.at t.location) value) := by
  intro least rest us v _ _ _ hreads
  obtain ⟨u, vs, rfl⟩ := List.exists_cons_of_ne_nil hreads.ne_nil
  exact .expression (.number hkind hvalue) hreads

/-! ### Tokens with the words of a tree -/

/-- The tokens are read as a tree that is the tree `t` but for places. -/
structure ReadsAs (t : Expr) (ts : List Token) (e : Expr) : Prop where
  bare : e.bare = t.bare
  parses : Parses t.binding ts e
  /-- fields may be behind it, unless the text cannot have a dot there -/
  holds : t.needsBracketsBeforeDot = false → t.isConstant = false → Holds ts e

/-- No field is read behind a constant. -/
theorem ReadsAs.ofConstant {t e : Expr} {ts : List Token} (hbare : e.bare = t.bare)
    (hparses : Parses t.binding ts e) (hconstant : t.isConstant = true) : ReadsAs t ts e :=
  ⟨hbare, hparses, fun _ h => absurd hconstant (ne_true_of_eq_false h)⟩

/-- Tokens with the words of the tree are read as the tree. -/
def Readable (t : Expr) : Prop := ∀ ts, ts.map Token.word = t.words [] → ∃ e, ReadsAs t ts e

/-- How tightly a text holds together once it is in brackets, where they are due. -/
def Binding.within (due : Bool) (binding : Binding) : Binding := if due then .atom else binding

theorem Binding.Proper.within (h : binding.Proper) (due : Bool) : (binding.within due).Proper := by
  cases due with
  | false => exact h
  | true => trivial

/-- In brackets that are due, no brackets are due. -/
theorem Binding.within_eq_false {p : Binding → Bool} (hatom : p .atom = false)
    (binding : Binding) : p (binding.within (p binding)) = false := by
  cases hdue : p binding with
  | false => exact hdue
  | true => exact hatom

theorem word_eq {t : Token} {kind : TokenKind} {value : String} (h : t.word = (kind, value)) :
    t.kind = kind ∧ t.value = value := by
  injection h with hkind hvalue
  exact ⟨hkind, hvalue⟩

/-- Tokens with the words of a tree in brackets are read as one operand. -/
theorem Readable.bracketed {t : Expr} (h : Readable t) {ts : List Token}
    (hts : ts.map Token.word = Expr.bracketWords true (t.words [])) :
    ∃ e, e.bare = t.bare ∧ Holds ts e := by
  simp only [Expr.bracketWords, if_true, List.map_eq_cons_iff, List.map_eq_append_iff,
    List.map_eq_nil_iff] at hts
  obtain ⟨bracket, _, rfl, hopen, us, _, rfl, hus, close, _, rfl, hclose, rfl⟩ := hts
  obtain ⟨e, he⟩ := h us hus
  exact ⟨e, he.bare, he.parses.bracketed (Token.is_iff_word.mpr hopen)
    (Token.is_iff_word.mpr hclose)⟩

/-- Tokens with the words of a tree, in brackets where they are due. -/
theorem Readable.within {t : Expr} (h : Readable t) {due : Bool} {ts : List Token}
    (hts : ts.map Token.word = Expr.bracketWords due (t.words [])) :
    ∃ e, e.bare = t.bare ∧ Parses (t.binding.within due) ts e := by
  cases due with
  | false =>
    obtain ⟨e, he⟩ := h ts hts
    exact ⟨e, he.bare, he.parses⟩
  | true =>
    obtain ⟨e, hbare, hholds⟩ := h.bracketed hts
    exact ⟨e, hbare, hholds.parses _⟩

/-- Tokens with the words of two operands and an operator between them are read as one tree, the
`whole` of the operands. -/
theorem Readable.binaryWords {left right : Expr} (hleft : Readable left) (hright : Readable right)
    (hleftProper : left.binding.Proper) (hrightProper : right.binding.Proper) {operator : String}
    {symbol : List Word} {ts : List Token} (whole : Expr → Expr → Expr)
    (hsymbol : ∀ os, os.map Token.word = symbol → ∃ ahead, Says os ahead ∧
      ahead.token.value = operator ∧ ∀ e f, (ahead.join e f).bare = whole e.bare f.bare)
    (hts : ts.map Token.word =
      Expr.binaryWords [] symbol operator left right (left.words []) (right.words [])) :
    ∃ e, e.bare = whole left.bare right.bare ∧ Parses (.ofOperator operator) ts e := by
  simp only [Expr.binaryWords, List.nil_append, List.map_eq_append_iff] at hts
  obtain ⟨us, _, rfl, hus, os, vs, rfl, hos, hvs⟩ := hts
  obtain ⟨e, hebare, he⟩ := hleft.within hus
  obtain ⟨f, hfbare, hf⟩ := hright.within hvs
  obtain ⟨ahead, hsays, rfl, hwhole⟩ := hsymbol os hos
  refine ⟨ahead.join e f, by rw [hwhole, hebare, hfbare], ?_⟩
  exact hsays.parses he hf (hleftProper.within _) (hrightProper.within _)
    (Binding.within_eq_false rfl _) (Binding.within_eq_false rfl _)

/-- The tokens of a binary operator by itself. -/
theorem says_operator {operator : String} (h : (Operator.binaryPower operator).isSome)
    (os : List Token) (hos : os.map Token.word = [(.operator, operator)]) :
    ∃ ahead, Says os ahead ∧ ahead.token.value = operator ∧
      ∀ e f, (ahead.join e f).bare = .binary {} operator e.bare f.bare := by
  obtain ⟨t, rfl, ht⟩ := List.map_eq_singleton_iff.mp hos
  obtain ⟨hkind, rfl⟩ := word_eq ht
  obtain ⟨power, hpower⟩ := Option.isSome_iff_exists.mp h
  exact ⟨_, .plain hkind hpower, rfl, fun _ _ => rfl⟩

/-- The tokens of a relation behind a `not`. -/
theorem says_negation {relation : String} (h : Operator.isNegatable relation) (os : List Token)
    (hos : os.map Token.word = [(.operator, "not"), (.operator, relation)]) :
    ∃ ahead, Says os ahead ∧ ahead.token.value = relation ∧
      ∀ e f, (ahead.join e f).bare = .unary {} "not" (.binary {} relation e.bare f.bare) := by
  obtain ⟨t, us, rfl, ht, hus⟩ := List.map_eq_cons_iff.mp hos
  obtain ⟨u, rfl, hu⟩ := List.map_eq_singleton_iff.mp hus
  obtain ⟨hkind, hnot⟩ := word_eq ht
  obtain ⟨hrelation, rfl⟩ := word_eq hu
  refine ⟨_, .negated hkind hnot ?_, rfl, fun _ _ => rfl⟩
  rw [isNegatable, hrelation, h]
  rfl

theorem constant?_of_notMem {t : Token} (h : t.value ∉ keywords) : constant? t = none := by
  simp only [keywords, List.mem_cons, List.not_mem_nil, or_false, not_or] at h
  obtain ⟨-, -, -, -, -, -, -, -, -, htrue, hfalse, hnil⟩ := h
  rw [constant?, if_neg htrue, if_neg hfalse, if_neg hnil]

/-- Tokens with the words of a field behind an operand. -/
theorem Readable.field {object : Expr} (h : Readable object) (hconstant : object.isConstant = false)
    {note inner : Note} {name : String} {ts : List Token}
    (hts : ts.map Token.word =
      (Expr.member note object (.identifier inner name) false).words []) :
    ∃ e, ReadsAs (.member note object (.identifier inner name) false) ts e := by
  simp only [Expr.words, List.map_eq_append_iff, List.map_eq_cons_iff,
    List.map_eq_nil_iff] at hts
  obtain ⟨us, _, rfl, hus, dot, _, rfl, hdot, property, _, rfl, hproperty, rfl⟩ := hts
  obtain ⟨e, hbare, he⟩ : ∃ e, e.bare = object.bare ∧ Holds us e := by
    cases hdue : object.needsBracketsBeforeDot with
    | false =>
      rw [hdue] at hus
      obtain ⟨e, he⟩ := h us hus
      exact ⟨e, he.bare, he.holds hdue hconstant⟩
    | true =>
      rw [hdue] at hus
      exact h.bracketed hus
  obtain ⟨hkind, rfl⟩ := word_eq hproperty
  have hholds := he.field (Token.is_iff_word.mpr hdot)
    (by rw [hkind]; exact Expr.kindOfName_cases _)
  refine ⟨_, ?_, hholds.parses _, fun _ _ => hholds⟩
  rw [Expr.bare, hbare]
  rfl

/-- **Tokens with the words of a tree are read as that tree.** -/
theorem readsAs_words {t : Expr} (h : t.Printable) : Readable t := by
  refine Expr.Printable.induction (motive := Readable) ?negation ?unary ?binary ?member ?string
    ?integer ?bool ?nil ?identifier t h
  case negation =>
    intro note inner relation left right hrelation hleft hright ihleft ihright ts hts
    rw [Expr.words_negation hrelation] at hts
    obtain ⟨e, hbare, he⟩ := ihleft.binaryWords ihright (proper_binding hleft)
      (proper_binding hright) (fun e f => .unary {} "not" (.binary {} relation e f))
      (says_negation hrelation) hts
    exact ⟨e, hbare, by rwa [Expr.binding_negation hrelation], nofun⟩
  case unary =>
    intro note operator operand hoperator hplain hoperand ih ts hts
    rw [Expr.words_of_plain hplain, Expr.prefixWords_nil] at hts
    obtain ⟨u, us, rfl, hu, hus⟩ := List.map_eq_cons_iff.mp hts
    obtain ⟨hkind, rfl⟩ := word_eq hu
    obtain ⟨e, hbare, he⟩ := ih.within hus
    refine ⟨.unary (.at u.location) u.value e, by rw [Expr.bare, Expr.bare, hbare], ?_, nofun⟩
    rw [Expr.binding_of_plain hplain]
    exact he.prefixed ((proper_binding hoperand).within _) hkind hoperator
      (Binding.within_eq_false rfl _)
  case binary =>
    intro note operator left right hpower hleft hright ihleft ihright ts hts
    obtain ⟨e, hbare, he⟩ := ihleft.binaryWords ihright (proper_binding hleft)
      (proper_binding hright) (fun e f => .binary {} operator e f) (says_operator hpower) hts
    exact ⟨e, hbare, he, nofun⟩
  case member =>
    intro note object inner name _ hconstant _ _ ih ts hts
    exact ih.field hconstant hts
  case string =>
    intro note value ts hts
    obtain ⟨u, rfl, hu⟩ := List.map_eq_singleton_iff.mp hts
    obtain ⟨hkind, rfl⟩ := word_eq hu
    have hholds : Holds [u] (.string (.at u.location) u.value) :=
      fun _ _ _ hfields => .string hkind hfields
    exact ⟨.string (.at u.location) u.value, rfl, hholds.parses _, fun _ _ => hholds⟩
  case integer =>
    intro note n hn ts hts
    obtain ⟨u, rfl, hu⟩ := List.map_eq_singleton_iff.mp hts
    obtain ⟨hkind, hvalue⟩ := word_eq hu
    have hread : Numeral.readInteger? u.value = some (n : Int) := by
      rw [hvalue]
      exact Numeral.readInteger?_toString hn
    exact ⟨.integer (.at u.location) n, rfl, parses_number hkind hread _, nofun⟩
  case bool =>
    intro note value ts hts
    obtain ⟨u, rfl, hu⟩ := List.map_eq_singleton_iff.mp hts
    obtain ⟨hkind, hvalue⟩ := word_eq hu
    have hconstant : constant? u = some (.bool (.at u.location) value) := by
      rw [constant?, hvalue]
      cases value <;> rfl
    exact ⟨.bool (.at u.location) value, .ofConstant rfl (parses_constant hkind hconstant _) rfl⟩
  case nil =>
    intro note ts hts
    obtain ⟨u, rfl, hu⟩ := List.map_eq_singleton_iff.mp hts
    obtain ⟨hkind, hvalue⟩ := word_eq hu
    have hconstant : constant? u = some (.nil (.at u.location)) := by
      rw [constant?, hvalue]
      rfl
    exact ⟨.nil (.at u.location), .ofConstant rfl (parses_constant hkind hconstant _) rfl⟩
  case identifier =>
    intro note name hname hkeyword ts hts
    obtain ⟨u, rfl, hu⟩ := List.map_eq_singleton_iff.mp hts
    obtain ⟨hkind, rfl⟩ := word_eq hu
    rw [Expr.kindOfName_of_isWord hname, Expr.kindOfWord_of_notMem hkeyword] at hkind
    have hholds : Holds [u] (.identifier (.at u.location) u.value) :=
      fun _ _ _ hfields => .name hkind (constant?_of_notMem hkeyword) hfields
    exact ⟨.identifier (.at u.location) u.value, rfl, hholds.parses _, fun _ _ => hholds⟩

/-! ### Whole texts -/

/-- The text of a printable tree is read as that tree. -/
theorem parse_of_printable {t : Expr} (h : t.Printable) :
    (scan t.print).fault = none ∧
      ∃ e, parse (scan t.print).tokens = ⟨some e, none⟩ ∧ e.bare = t.bare := by
  have htakes := takes_print h [] nofun
  obtain ⟨hfault, front, last, htokens, hwords, hlast⟩ := scan_of_takes htakes
  have hsolid : (solid front).map Token.word = t.words [] := by
    rw [map_word_solid, hwords, Expr.solidWords_words]
  obtain ⟨e, he⟩ := readsAs_words h (solid front) hsolid
  have hend : last.EndsText := .inl hlast
  have hreads := he.parses.closed (hend.closed []) []
  rw [← solid_append_end hend, ← htokens] at hreads
  exact ⟨hfault, e, parse_of_reads hreads hend, he.bare⟩

/-- **Reading undoes printing.**  The text of a well-formed tree is cut into tokens and read without
a fault, and what is read is the tree, but for places and natures. -/
theorem parse_print {t : Expr} (h : t.WellFormed) :
    (scan t.print).fault = none ∧
      ∃ e, parse (scan t.print).tokens = ⟨some e, none⟩ ∧ e.bare = t.bare :=
  parse_of_printable h.printable

/-- The tree with the text `a not in -(1).or` is read from it. -/
theorem parse_print_negation :
    let field : Expr := .member {} (.integer {} 1) (.identifier {} "or") false
    let t : Expr := .unary {} "not" (.binary {} "in" (.identifier {} "a") (.unary {} "-" field))
    t.WellFormed ∧ (scan t.print).fault = none ∧
      ∃ e, parse (scan t.print).tokens = ⟨some e, none⟩ ∧ e.bare = t.bare := by
  intro field t
  have hor : IsWord "or".toList := by decide
  have ha : IsWord "a".toList := by decide
  have hfield : field.WellFormed := ⟨⟨by decide, by decide⟩, rfl, hor⟩
  have ht : t.WellFormed := ⟨by decide, rfl, ⟨ha, by decide⟩, by decide, hfield⟩
  exact ⟨ht, parse_print ht⟩

end FilterLang
