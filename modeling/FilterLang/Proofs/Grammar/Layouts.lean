import FilterLang.Proofs.Printing.Depths

/-!
# What is read is laid out as its tree

Whatever is read puts an operand that needs brackets deeper than the operator around it, since
nothing but brackets puts it there.  A chain of comparisons repeats its operands, and so its tree
has more words than the text.

* `Anchored` — words at some depth that show at most as many words as a tree has, and that are laid
  out as it if they show as many.
* `Anchored.join`, `Anchored.prefixed`, `Anchored.bracketed`, `Anchored.field` — one lemma for each
  way to put a tree together.
* `lays_of_reads` — what the rules read is anchored, by induction on the rules of the grammar.
* `laid_of_readTree` — a text with as many words as its tree is laid out as that tree.
-/

namespace FilterLang

open Scanner Grammar

/-! ### Anchored words -/

/-- The words close the brackets that they open, show at most as many words as the tree has, and are
laid out as the tree if they show as many.  A binary operator at the root is deeper than the words
begin, or else its power and whether it chains are as `loose` tells. -/
structure Anchored (depth : Nat) (loose : Nat → Bool → Prop) (e : Expr) (ws : List Word) :
    Prop where
  balanced : Balanced ws
  length_le : (levels depth ws).length ≤ e.size
  laid : (levels depth ws).length = e.size → ∃ deep, Laid e.bare deep (levels depth ws) ∧
    depth ≤ deep ∧ ∀ power comparison, e.binding = .binary power comparison →
      depth < deep ∨ loose power comparison

/-- No binary operator is loose. -/
def Never (_ : Nat) (_ : Bool) : Prop := False

theorem Expr.exists_binding {t : Expr} (h : t.isJoint = true) :
    ∃ power comparison, t.binding = .binary power comparison := by
  obtain ⟨symbol, operator, left, right, hjoint⟩ := Expr.exists_joint h
  exact ⟨_, _, hjoint.binding⟩

/-- No binary operator binds exactly as tightly as a prefix operator. -/
theorem Expr.power_ne {t : Expr} {power : Nat} {comparison : Bool}
    (h : t.binding = .binary power comparison) : power ≠ 50 ∧ power ≠ 90 := by
  obtain ⟨operator, hoperator⟩ : ∃ operator, t.binding = .ofOperator operator := by
    cases t with
    | binary note operator left right => exact ⟨operator, rfl⟩
    | unary note operator operand =>
      cases operand with
      | binary inner relation left right =>
        rw [binding] at h ⊢
        split_ifs at h ⊢
        exact ⟨relation, rfl⟩
      | _ => cases h
    | _ => cases h
  rw [hoperator, Binding.ofOperator] at h
  injection h with hpower
  cases hsome : Operator.binaryPower operator with
  | none =>
    rw [hsome, Option.getD_none] at hpower
    omega
  | some p =>
    rw [hsome, Option.getD_some] at hpower
    exact hpower ▸ binaryPower_ne hsome

namespace Grammar

theorem Offers.exists_operator {least : Nat} {ts us : List Token} {ahead : Ahead}
    (h : Offers least ts ahead us) :
    ∃ os, ts = os ++ us ∧ Says os ahead ∧ least ≤ ahead.power := by
  cases h with
  | @plain t us ahead hkind hnot hahead =>
    obtain ⟨htoken, hnegation, hle, hpower⟩ := token_of_ofToken? hahead
    obtain ⟨token, power, negation⟩ := ahead
    subst htoken hnegation
    exact ⟨[token], rfl, .plain hkind hpower, hle⟩
  | @negated t relation us ahead hkind hnot hrelation hahead =>
    obtain ⟨htoken, hnegation, hle, hpower⟩ := token_of_ofToken? hahead
    obtain ⟨token, power, negation⟩ := ahead
    subst htoken hnegation
    obtain rfl : power = 20 := by
      have hnegatable := hrelation
      rw [isNegatable, Bool.and_eq_true] at hnegatable
      rw [Operator.binaryPower_of_isNegatable hnegatable.2] at hpower
      cases hpower
      rfl
    exact ⟨[t, token], rfl, .negated hkind hnot hrelation, hle⟩

end Grammar

namespace Says

variable {os : List Token} {ahead : Ahead}

/-- The tokens of an operator are the words of its symbol. -/
theorem joint (h : Says os ahead) (left right : Expr) :
    ∃ symbol, Joint (ahead.join left right) symbol ahead.token.value left right ∧
      Balanced (os.map Token.word) ∧
      ∀ depth, levels depth (os.map Token.word) = levels depth symbol.words := by
  cases h with
  | @plain t power hkind hpower =>
    have hword : t.word = (.operator, t.value) := by rw [Token.word, hkind]
    rw [List.map_singleton, hword]
    exact ⟨_, .binary _ _ left right, balanced_singleton (shows_operator _), fun _ => rfl⟩
  | @negated t relation hkind hnot hrelation =>
    rw [isNegatable, Bool.and_eq_true, beq_iff_eq] at hrelation
    have hword : t.word = (.operator, "not") := by rw [Token.word, hkind, hnot]
    have hword' : relation.word = (.operator, relation.value) := by rw [Token.word, hrelation.1]
    rw [List.map_cons, List.map_singleton, hword, hword']
    exact ⟨_, .negation _ _ left right hrelation.2, (balanced_singleton (shows_operator _)).append
      (balanced_singleton (shows_operator _)), fun _ => rfl⟩

theorem le_of_refuses (h : Says os ahead) {us : List Token} {power : Nat}
    (hrefuses : Refuses (power + 1) (os ++ us)) : ahead.power ≤ power := by
  have hpower := h.power
  have hle : ∀ {negation}, Ahead.ofToken? (power + 1) ahead.token negation = none →
      ahead.power ≤ power :=
    fun hnone => Nat.le_of_lt_succ (ofToken?_eq_none_iff.mp hnone _ hpower)
  cases h with
  | plain hkind =>
    rcases hrefuses.of_operator hkind with ⟨-, hnone⟩ | ⟨hnot, -⟩
    · exact hle hnone
    · exact absurd hnot (ne_not hpower)
  | negated hkind hnot =>
    rcases hrefuses.of_operator hkind with ⟨hno, -⟩ | ⟨-, _, _, hcons, hnone⟩
    · exact absurd hnot hno
    · cases hcons
      exact hle hnone

theorem isComparison {t : Token} {power : Nat} (h : Says [t] ⟨t, power, none⟩)
    (hcomparison : Operator.isComparison t.value) : Grammar.isComparison t := by
  obtain ⟨-, hkind, -⟩ := h.eq_of_isComparison hcomparison
  have hoperator : t.kind = .operator := hkind
  rw [Grammar.isComparison, hoperator, hcomparison]
  rfl

/-- An operator that takes no operand from the tree in front of it needs no brackets around that. -/
theorem not_due (h : Says os ahead) {us : List Token} {power : Nat} {comparison : Bool}
    (hcloses : Closes (os ++ us) (.binary power comparison)) :
    (Binding.binary power comparison).needsBracketsLeftOf ahead.token.value = false := by
  obtain ⟨hrefuses, hchain⟩ := hcloses
  have hle := h.le_of_refuses hrefuses
  rw [Binding.needsBracketsLeftOf, h.power, Option.getD_some, Bool.or_eq_false_iff,
    decide_eq_false_iff_not, Bool.and_eq_false_iff]
  refine ⟨Nat.not_lt.mpr hle, ?_⟩
  by_contra hboth
  simp only [not_or, Bool.not_eq_false] at hboth
  obtain ⟨rfl, hkind, -⟩ := h.eq_of_isComparison hboth.1
  refine hchain hboth.2 ahead.token us rfl ?_
  rw [Grammar.isComparison, hkind, hboth.1]
  rfl

/-- An operator on the right that binds more tightly needs no brackets. -/
theorem not_due_right (h : Says os ahead) {power : Nat} {comparison : Bool}
    (hlt : ahead.power + 1 ≤ power) :
    (Binding.binary power comparison).needsBracketsRightOf ahead.token.value = false := by
  rw [Binding.needsBracketsRightOf, h.power, Option.getD_some, decide_eq_false_iff_not]
  exact Nat.not_le.mpr hlt

end Says

namespace Anchored

variable {depth : Nat} {loose loose' : Nat → Bool → Prop} {e inner left right : Expr}
  {ws vs : List Word} {t : Token}

theorem mono (h : Anchored depth loose e ws)
    (hloose : ∀ power comparison, loose power comparison → loose' power comparison) :
    Anchored depth loose' e ws := by
  refine ⟨h.balanced, h.length_le, fun hlength => ?_⟩
  obtain ⟨deep, hlaid, hdeep, hroot⟩ := h.laid hlength
  exact ⟨deep, hlaid, hdeep, fun p c hbinding => (hroot p c hbinding).imp_right (hloose p c)⟩

theorem of_never (h : Anchored depth Never e ws) : Anchored depth loose e ws :=
  h.mono fun _ _ => False.elim

/-- Words that are too few for a tree. -/
theorem of_lt (hbalanced : Balanced ws) (hlength : (levels depth ws).length < e.size) :
    Anchored depth loose e ws :=
  ⟨hbalanced, Nat.le_of_lt hlength, fun hsame => absurd hsame (Nat.ne_of_lt hlength)⟩

/-- An operand that needs brackets is deeper, if it is loose only where it needs none. -/
theorem deeper {deep : Nat} (due : Binding → Bool)
    (h : ∀ power comparison, e.binding = .binary power comparison →
      depth < deep ∨ loose power comparison)
    (hloose : ∀ power comparison, e.binding = .binary power comparison → loose power comparison →
      due (.binary power comparison) = false) :
    Deeper (due e.bare.binding) e.bare depth deep := by
  intro hdue hjoint
  rw [Expr.isJoint_bare] at hjoint
  obtain ⟨power, comparison, hbinding⟩ := Expr.exists_binding hjoint
  rw [Expr.binding_bare, hbinding] at hdue
  rcases h power comparison hbinding with hdeep | hfree
  · exact hdeep
  · rw [hloose power comparison hbinding hfree] at hdue
    cases hdue

/-- What is in brackets is deeper. -/
theorem bracketed (h : Anchored (depth + 1) loose e ws) :
    Anchored depth Never e (Expr.bracketWords true ws) := by
  have hlevels := levels_bracketWords h.balanced true depth
  refine ⟨h.balanced.bracketWords true, by rw [hlevels]; exact h.length_le, fun hlength => ?_⟩
  rw [hlevels] at hlength ⊢
  obtain ⟨deep, hlaid, hdeep, -⟩ := h.laid hlength
  exact ⟨deep, hlaid, Nat.le_of_succ_le hdeep, fun _ _ _ => .inl hdeep⟩

/-- A token that is a tree by itself. -/
theorem leaf (he : e.isLeaf = true)
    (hkind : t.kind = .identifier ∨ t.kind = .number ∨ t.kind = .string) :
    Anchored depth Never e [t.word] := by
  have hword : shows t.word = true := by
    rw [Token.word]
    rcases hkind with h | h | h <;> rw [h] <;> exact shows_of_kind (by decide) (by decide) _
  have hoperator : t.kind ≠ .operator := by
    rcases hkind with h | h | h <;> rw [h] <;> decide
  obtain ⟨hsize, hleaf, hatom⟩ : e.size = 1 ∧ e.bare.isLeaf = true ∧ e.binding = .atom := by
    cases e with
    | string | integer | bool | nil | identifier => exact ⟨rfl, rfl, rfl⟩
    | _ => cases he
  have hlevels := levels_singleton hword depth
  refine ⟨balanced_singleton hword, by rw [hlevels, hsize]; rfl, fun _ => ?_⟩
  rw [hlevels]
  refine ⟨depth, .leaf hleaf hoperator, Nat.le_refl _, fun power comparison hbinding => ?_⟩
  rw [hatom] at hbinding
  cases hbinding

/-- A relation behind a `not` is deeper: it binds more weakly, and so it is in brackets. -/
theorem lt_of_negates {place : Note} {operator relation : String} {deep : Nat}
    (hinner : inner.bare = .binary place relation left right)
    (hnegates : Expr.negates operator relation)
    (h : ∀ power comparison, inner.binding = .binary power comparison →
      depth < deep ∨ Binding.prefixPower operator ≤ power) : depth < deep := by
  rw [Expr.negates, Bool.and_eq_true, beq_iff_eq] at hnegates
  obtain ⟨rfl, hrelation⟩ := hnegates
  have hbinding : inner.binding = .binary 20 (Operator.isComparison relation) := by
    rw [← Expr.binding_bare, hinner]
    exact ofOperator_eq (Operator.binaryPower_of_isNegatable hrelation)
  rcases h _ _ hbinding with hbelow | hle
  · exact hbelow
  · exact absurd hle (by decide)

/-- A prefix operator in front of its operand. -/
theorem prefixed {power : Nat} {note : Note} (hpower : t.prefixPower? = some power)
    (h : Anchored depth (fun p _ => power ≤ p) inner ws) :
    Anchored depth Never (.unary note t.value inner) (t.word :: ws) := by
  obtain ⟨hkind, hvalue⟩ := (isPrefix_iff t).mpr ⟨power, hpower⟩
  have hsign : t.value ∈ ["not", "!", "-", "+"] := (prefix_of_power hpower).1
  obtain rfl : power = Binding.prefixPower t.value := by
    rw [Token.prefixPower?, if_pos hkind, (prefixPower_cases hsign).1] at hpower
    cases hpower
    rfl
  have hword : t.word = (.operator, t.value) := by rw [Token.word, hkind]
  have hlevels : levels depth (t.word :: ws) =
      ((.operator, t.value), depth) :: levels depth ws := by
    rw [hword, levels_cons_of_shows (shows_operator _)]
  constructor
  · rw [hword]
    exact (balanced_singleton (shows_operator t.value)).append h.balanced
  · rw [hlevels, List.length_cons, Expr.size]
    exact Nat.succ_le_succ h.length_le
  · intro hlength
    rw [hlevels, List.length_cons, Expr.size, Nat.succ.injEq] at hlength
    obtain ⟨deep, hlaid, hdeep, hroot⟩ := h.laid hlength
    rw [hlevels]
    by_cases hplain : Expr.Plain t.value inner.bare
    · refine ⟨depth, .prefixed hplain hlaid
        (deeper (Binding.needsBracketsBehind t.value) hroot ?_), Nat.le_refl _, ?_⟩
      · intro p c hbinding hle
        have hne := Expr.power_ne hbinding
        have hcases := (prefixPower_cases hsign).2
        rw [Binding.needsBracketsBehind, decide_eq_false_iff_not]
        omega
      · intro p c hbinding
        rw [← Expr.binding_bare, Expr.bare, Expr.binding_of_plain hplain] at hbinding
        cases hbinding
    · simp only [Expr.Plain, not_forall, Bool.not_eq_false] at hplain
      obtain ⟨place, relation, left, right, hinner, hnegates⟩ := hplain
      have hbelow : depth < deep := lt_of_negates hinner hnegates hroot
      rw [Expr.negates, Bool.and_eq_true, beq_iff_eq] at hnegates
      refine ⟨deep, ?_, hdeep, fun _ _ _ => .inl hbelow⟩
      rw [hinner] at hlaid
      rw [Expr.bare, hinner, hnegates.1]
      exact .outside hnegates.2 hlaid

/-- A field behind its object. -/
theorem field {note place : Note} {dot property : Token} (h : Anchored depth Never e ws)
    (hdot : dot.is .operator ".")
    (hproperty : property.kind = .identifier ∨ property.kind = .operator) :
    Anchored depth Never (.member note e (.identifier place property.value) false)
      (ws ++ [dot.word, property.word]) := by
  have hshows : shows property.word = true := by
    rw [Token.word]
    rcases hproperty with h | h <;> rw [h] <;> exact shows_of_kind (by decide) (by decide) _
  rw [Token.is_iff_word.mp hdot]
  have hlevels : levels depth (ws ++ [(.operator, "."), property.word]) =
      levels depth ws ++ [((.operator, "."), depth), (property.word, depth)] := by
    rw [h.balanced, levels_cons_of_shows (shows_operator "."), levels_singleton hshows]
  constructor
  · exact h.balanced.append ((balanced_singleton (shows_operator ".")).append
      (balanced_singleton hshows))
  · rw [hlevels, List.length_append, Expr.size]
    exact Nat.add_le_add_right h.length_le 2
  · intro hlength
    rw [hlevels, List.length_append, Expr.size] at hlength
    obtain ⟨deep, hlaid, -, hroot⟩ := h.laid (Nat.add_right_cancel hlength)
    rw [hlevels]
    refine ⟨depth, .field hlaid ?_ rfl, Nat.le_refl _, fun p c hbinding => ?_⟩
    · exact deeper (fun _ => true) hroot fun _ _ _ hnever => hnever.elim
    · cases hbinding

/-- Two operands with an operator between them. -/
theorem join {loose₁ loose₂ : Nat → Bool → Prop} {os : List Token} {ahead : Ahead}
    (hos : Says os ahead) (hleft : Anchored depth loose₁ left vs)
    (hright : Anchored depth loose₂ right ws)
    (hloose₁ : ∀ power comparison, loose₁ power comparison →
      (Binding.binary power comparison).needsBracketsLeftOf ahead.token.value = false)
    (hloose₂ : ∀ power comparison, loose₂ power comparison →
      (Binding.binary power comparison).needsBracketsRightOf ahead.token.value = false)
    (hloose : loose ahead.power (Operator.isComparison ahead.token.value)) :
    Anchored depth loose (ahead.join left right) (vs ++ (os.map Token.word ++ ws)) := by
  obtain ⟨symbol, hjoint, hbalanced, hsymbol⟩ := hos.joint left right
  obtain ⟨-, hsize⟩ := hjoint.shows_symbol
  have hlevels : levels depth (vs ++ (os.map Token.word ++ ws)) =
      levels depth vs ++ (levels depth symbol.words ++ levels depth ws) := by
    rw [hleft.balanced, hbalanced, hsymbol]
  have hleftLength := hleft.length_le
  have hrightLength := hright.length_le
  have hcount := length_levels depth symbol.words
  constructor
  · exact hleft.balanced.append (hbalanced.append hright.balanced)
  · rw [hlevels, hsize, List.length_append, List.length_append]
    omega
  · intro hlength
    rw [hlevels, hsize, List.length_append, List.length_append] at hlength
    obtain ⟨deep, hlaid, -, hroot⟩ := hleft.laid (by omega)
    obtain ⟨deep', hlaid', -, hroot'⟩ := hright.laid (by omega)
    rw [hlevels]
    refine ⟨depth, .joint hjoint.bare hlaid hlaid' ?_ ?_, Nat.le_refl _, fun p c hbinding => ?_⟩
    · exact deeper (Binding.needsBracketsLeftOf ahead.token.value) hroot
        fun p c _ => hloose₁ p c
    · exact deeper (Binding.needsBracketsRightOf ahead.token.value) hroot'
        fun p c _ => hloose₂ p c
    · rw [hjoint.binding, ofOperator_eq hos.power] at hbinding
      cases hbinding
      exact .inr hloose

end Anchored

/-! ### What is read -/

theorem shows_of_isComparison {t : Token} (h : Grammar.isComparison t) : shows t.word = true := by
  rw [Grammar.isComparison, Bool.and_eq_true, beq_iff_eq] at h
  rw [Token.word, h.1]
  exact shows_operator t.value

/-- What a production makes of the words `ws` in front of the tokens `us` that it leaves. -/
def Grammar.Goal.Lays (g : Goal) (ts us : List Token) (depth : Nat) (e : Expr) (ws : List Word) :
    Prop :=
  match g with
  | .expression least => Anchored depth (fun p _ => least ≤ p) e ws
  | .operand => Anchored depth Never e ws
  | .fields value => ∀ vs, Anchored depth Never value vs → Anchored depth Never e (vs ++ ws)
  | .operators least left => ∀ vs,
      Anchored depth (fun p c => least ≤ p ∧ Closes ts (.binary p c)) left vs →
      Anchored depth (fun p _ => least ≤ p) e (vs ++ ws)
  | .chain power left t none => Says [t] ⟨t, power, none⟩ → Operator.isComparison t.value →
      ∀ vs, Anchored depth (fun p c => Closes (t :: ts) (.binary p c)) left vs →
      Anchored depth (fun p c => power ≤ p ∧ Closes us (.binary p c)) e (vs ++ t.word :: ws)
  | .chain _ _ _ (some before) => Balanced ws ∧ before.size + (levels depth ws).length + 3 ≤ e.size

namespace Grammar.Goal

variable {depth power : Nat} {loose : Nat → Bool → Prop} {left right e : Expr} {t next : Token}
  {ts us us' : List Token} {before : Option Expr} {vs ws : List Word}

/-- The last comparison of a chain. -/
theorem lays_chainEnd (h : Anchored depth (fun p _ => power + 1 ≤ p) right ws)
    (hrefuses : Refuses (power + 1) (next :: us)) (hnext : ¬ isComparison next) :
    (Goal.chain power left t before).Lays ts (next :: us) depth (conjoin before t left right)
      ws := by
  cases before with
  | none =>
    intro hos _ vs hvs
    have hcloses : Closes (next :: us) (.binary power (Operator.isComparison t.value)) := by
      refine ⟨hrefuses, fun _ u us hcons => ?_⟩
      cases hcons
      exact hnext
    exact Anchored.join hos hvs h (fun p c hloose => hos.not_due hloose)
      (fun p c hlt => hos.not_due_right hlt) ⟨Nat.le_refl _, hcloses⟩
  | some before =>
    refine ⟨h.balanced, ?_⟩
    have hlength := h.length_le
    have hpositive := left.size_pos
    simp only [conjoin, Expr.size]
    omega

/-- A comparison with more of the chain behind it.  The operand between the two comparisons is in
the tree twice. -/
theorem lays_chainMore (hright : Anchored depth loose right vs) (hnext : isComparison next)
    (hrest : (Goal.chain power right next (some (conjoin before t left right))).Lays us us' depth e
      ws) : (Goal.chain power left t before).Lays ts us' depth e (vs ++ next.word :: ws) := by
  obtain ⟨hbalanced, hsize⟩ := hrest
  have hshows := shows_of_isComparison hnext
  have hall : Balanced (vs ++ next.word :: ws) :=
    hright.balanced.append ((balanced_singleton hshows).append hbalanced)
  have hlength : (levels depth (vs ++ next.word :: ws)).length =
      (levels depth vs).length + ((levels depth ws).length + 1) := by
    rw [hright.balanced, levels_cons_of_shows hshows, List.length_append, List.length_cons]
  have hrightLength := hright.length_le
  have hpositive := right.size_pos
  cases before with
  | none =>
    intro hos hcomparison us hus
    have hshows' : shows t.word = true := shows_of_isComparison (hos.isComparison hcomparison)
    have hleftLength := hus.length_le
    refine Anchored.of_lt (hus.balanced.append ((balanced_singleton hshows').append hall)) ?_
    rw [hus.balanced, levels_cons_of_shows hshows', List.length_append, List.length_cons, hlength]
    simp only [conjoin, Expr.size] at hsize
    omega
  | some before =>
    refine ⟨hall, ?_⟩
    rw [hlength]
    simp only [conjoin, Expr.size] at hsize
    omega

end Grammar.Goal

/-- **What the rules read is anchored.** -/
theorem lays_of_reads {g : Goal} {ts us : List Token} {e : Expr} (h : Reads g ts e us) :
    ∃ front, ts = front ++ us ∧ ∀ depth, g.Lays ts us depth e (front.map Token.word) := by
  induction h with
  | expression _ _ ihoperand ihoperators =>
    obtain ⟨front, rfl, hleft⟩ := ihoperand
    obtain ⟨behind, rfl, he⟩ := ihoperators
    refine ⟨front ++ behind, (List.append_assoc ..).symm, fun depth => ?_⟩
    rw [List.map_append]
    exact he depth _ (hleft depth).of_never
  | stop _ =>
    refine ⟨[], rfl, fun depth vs hvs => ?_⟩
    rw [List.map_nil, List.append_nil]
    exact hvs.mono fun _ _ h => h.1
  | @binary least ts us vs ws ahead left right e hoffers hplain hright _ ihright ihoperators =>
    obtain ⟨os, rfl, hos, hle⟩ := hoffers.exists_operator
    obtain ⟨front, rfl, hrightLays⟩ := ihright
    obtain ⟨behind, rfl, he⟩ := ihoperators
    have hrefuses : Refuses (ahead.power + 1) (behind ++ ws) := hright.refuses
    refine ⟨os ++ front ++ behind, by simp, fun depth us hus => ?_⟩
    rw [List.map_append, List.map_append, ← List.append_assoc]
    exact he depth _ (Anchored.join hos hus (hrightLays depth)
      (fun p c hloose => hos.not_due hloose.2) (fun p c hlt => hos.not_due_right hlt)
      ⟨hle, hrefuses, fun hcomparison => absurd hcomparison hplain⟩)
  | @comparison least ts us vs ws ahead left joined e hoffers hcomparison _ _ ihchain
      ihoperators =>
    obtain ⟨os, rfl, hos, hle⟩ := hoffers.exists_operator
    obtain ⟨t, power, negation⟩ := ahead
    obtain ⟨rfl, -, hahead⟩ := hos.eq_of_isComparison hcomparison
    cases hahead
    obtain ⟨front, rfl, hchain⟩ := ihchain
    obtain ⟨behind, rfl, he⟩ := ihoperators
    refine ⟨t :: (front ++ behind), by simp, fun depth us hus => ?_⟩
    have hjoined := hchain depth hos hcomparison us (hus.mono fun _ _ h => h.2)
    have hall := he depth _ (hjoined.mono fun _ _ h => ⟨Nat.le_trans hle h.1, h.2⟩)
    rwa [List.append_assoc, List.cons_append, ← List.map_append, ← List.map_cons] at hall
  | @prefixed t power us vs ws inner e hpower _ _ ihinner ihfields =>
    obtain ⟨front, rfl, hinner⟩ := ihinner
    obtain ⟨behind, rfl, he⟩ := ihfields
    refine ⟨t :: (front ++ behind), by simp, fun depth => ?_⟩
    rw [List.map_cons, List.map_append]
    exact he depth _ (Anchored.prefixed hpower (hinner depth))
  | @bracketed t close us vs ws inner e hopen _ hclose _ ihinner ihfields =>
    obtain ⟨front, hfront, hinner⟩ := ihinner
    obtain ⟨behind, rfl, he⟩ := ihfields
    refine ⟨t :: (front ++ close :: behind), by simp [hfront], fun depth => ?_⟩
    have hwords : (t :: (front ++ close :: behind)).map Token.word =
        Expr.bracketWords true (front.map Token.word) ++ behind.map Token.word := by
      rw [List.map_cons, List.map_append, List.map_cons, Token.is_iff_word.mp hopen,
        Token.is_iff_word.mp hclose, Expr.bracketWords, if_pos rfl]
      simp
    rw [hwords]
    exact he depth _ (hinner (depth + 1)).bracketed
  | @constant t u us e hkind hconstant =>
    refine ⟨[t], rfl, fun depth => Anchored.leaf ?_ (.inl hkind)⟩
    rw [constant?] at hconstant
    split_ifs at hconstant <;> cases hconstant <;> rfl
  | name hkind _ _ ihfields =>
    obtain ⟨behind, rfl, he⟩ := ihfields
    exact ⟨_ :: behind, rfl, fun depth => he depth _ (Anchored.leaf rfl (.inl hkind))⟩
  | number hkind _ =>
    exact ⟨[_], rfl, fun depth => Anchored.leaf rfl (.inr (.inl hkind))⟩
  | string hkind _ ihfields =>
    obtain ⟨behind, rfl, he⟩ := ihfields
    exact ⟨_ :: behind, rfl, fun depth => he depth _ (Anchored.leaf rfl (.inr (.inr hkind)))⟩
  | chainEnd hright hnext ihright =>
    obtain ⟨front, rfl, hrightLays⟩ := ihright
    exact ⟨front, rfl, fun depth => Goal.lays_chainEnd (hrightLays depth) hright.refuses hnext⟩
  | @chainMore power t next ts us vs left right e before _ hnext _ ihright ihchain =>
    obtain ⟨front, rfl, hright⟩ := ihright
    obtain ⟨behind, rfl, he⟩ := ihchain
    refine ⟨front ++ next :: behind, by simp, fun depth => ?_⟩
    rw [List.map_append, List.map_cons]
    exact Goal.lays_chainMore (hright depth) hnext (he depth)
  | @field t property us vs value e hdot hproperty _ ihfields =>
    obtain ⟨behind, rfl, he⟩ := ihfields
    refine ⟨t :: property :: behind, rfl, fun depth vs hvs => ?_⟩
    have hall := he depth _ (hvs.field hdot hproperty)
    rwa [List.append_assoc] at hall
  | noField _ =>
    refine ⟨[], rfl, fun depth vs hvs => ?_⟩
    rwa [List.map_nil, List.append_nil]

/-! ### Whole texts -/

/-- **A text with as many words as its tree is laid out as that tree.** -/
theorem laid_of_readTree {source : String} {ws : List Word} {e : Expr}
    (h : readTree source = .ok e) (htakes : Takes source.toList ws [])
    (hsize : (ws.filter shows).length = e.size) : ∃ depth, Laid e.bare depth (levels 0 ws) := by
  obtain ⟨front, close, hsolid, -, hclose, hreads⟩ := reads_of_readTree h
  obtain ⟨read, hread, hlays⟩ := lays_of_reads hreads
  obtain rfl := List.append_cancel_right hread
  obtain ⟨-, before, last, htokens, hwords, hlast⟩ := scan_of_takes htakes
  rw [htokens, solid_append_end (.inl hlast)] at hsolid
  obtain ⟨rfl, -⟩ := List.append_inj' hsolid rfl
  have hanchored : Anchored 0 (fun p _ => 0 ≤ p) e ((solid before).map Token.word) := hlays 0
  rw [map_word_solid, hwords] at hanchored
  have hlength : (levels 0 (solidWords ws)).length = e.size := by
    rw [levels_solidWords, length_levels, hsize]
  obtain ⟨deep, hlaid, -⟩ := hanchored.laid hlength
  rw [levels_solidWords] at hlaid
  exact ⟨deep, hlaid⟩

/-- The canonical text of a tree is laid out as that tree. -/
theorem laid_words {t : Expr} (h : t.Printable) :
    ∃ depth, Laid t.bare depth (levels 0 (t.words [space])) := by
  obtain ⟨e, hread, hbare⟩ := exists_readTree_print h
  have hsize : ((t.words [space]).filter shows).length = e.size := by
    rw [(sized_words h.legible).length, ← t.size_bare, ← hbare, e.size_bare]
  rw [← hbare]
  exact laid_of_readTree hread (takes_print h [] nofun) hsize

end FilterLang
