import FilterLang.Proofs.Grammar.Progress

/-!
# Enough fuel

The fuel of the grammar is bookkeeping: it bounds how deep the productions call each other, and
between two tokens they do so at most four levels deep.  One list is different.  Where reading goes
on past its faults and the last token of all asks for an operand, that token stays at hand, and the
grammar asks for the operand again and again.

* `Token.opens` — the tokens with an operand behind them.
* `Settled` — two outcomes are the same, and the fuel sufficed or the tokens end in such a token.
* `spent_of_opens` — there no fuel suffices.
* `settled_productions` — everywhere else some fuel does, and more changes nothing.
* `Terminates` — reading a list of tokens comes to an end.  With the fuel of `parserFuel` it does
  whenever it does at all (`terminates_iff`), and so it does where the last token asks for nothing
  (`terminates_of_last`).
-/

namespace FilterLang

/-- Whether an operand needs another operand behind this token. -/
def Token.opens (token : Token) : Bool :=
  token.prefixPower?.isSome || token.is .bracket "("

namespace Grammar

open Reader

variable {α β : Type}

/-! ### Outcomes that more fuel does not change -/

/-- Two outcomes are the same, and they do not lack fuel unless the reader is stuck. -/
structure Settled (stuck : Prop) (x y : Outcome α) : Prop where
  eq : x = y
  spent : x = .spent → stuck

variable {stuck : Prop}

theorem settled_refl {x : Outcome α} (h : x ≠ .spent) : Settled stuck x x :=
  ⟨rfl, fun hx => absurd hx h⟩

theorem settled_done (value : α) (s : Reader) :
    Settled stuck (.done value s) (.done value s) := settled_refl nofun

theorem settled_broken (s : Reader) :
    Settled stuck (.broken s : Outcome α) (.broken s) := settled_refl nofun

theorem settled_bind {a b : Grammar α} {f g : α → Grammar β} {r : Reader}
    (hab : Settled stuck (a r) (b r))
    (hfg : ∀ value s, a r = .done value s → Settled stuck (f value s) (g value s)) :
    Settled stuck ((a >>= f) r) ((b >>= g) r) := by
  cases h : a r with
  | done value s =>
    rw [bind_done h, bind_done (hab.eq.symm.trans h)]
    exact hfg value s h
  | broken s =>
    rw [bind_broken h, bind_broken (hab.eq.symm.trans h)]
    exact settled_broken _
  | spent =>
    rw [bind_spent h, bind_spent (hab.eq.symm.trans h)]
    exact ⟨rfl, fun _ => hab.spent h⟩

theorem settled_complain (policy : Policy) (fault : ParseFault) (location : Location) (r : Reader) :
    Settled stuck (complain policy fault location r) (complain policy fault location r) :=
  settled_refl (by cases policy <;> nofun)

theorem settled_advance (policy : Policy) (r : Reader) :
    Settled stuck (advance policy r) (advance policy r) :=
  settled_refl (advance_ne_spent policy r)

theorem settled_operatorAhead (policy : Policy) (least : Nat) (r : Reader) :
    Settled stuck (operatorAhead policy least r) (operatorAhead policy least r) := by
  by_cases hkind : r.current.kind = .operator
  swap
  · rw [operatorAhead_of_kind policy least hkind]
    exact settled_done _ _
  by_cases hnot : r.current.value = "not"
  swap
  · rw [operatorAhead_of_ne_not policy least hkind hnot]
    exact settled_done _ _
  rw [operatorAhead_of_not policy least hkind hnot]
  split
  · rename_i s _
    rw [afterNot]
    split
    · split <;> exact settled_done _ _
    · exact settled_bind (settled_complain policy _ _ s) fun _ _ _ => settled_done _ _
  · exact settled_broken _
  · exact absurd ‹_› (advance_ne_spent policy r)

theorem settled_retarget (left : Expr) (operator : String) (r : Reader) :
    Settled stuck (retarget left operator r) (retarget left operator r) := by
  rw [retarget]
  split <;> exact settled_done _ _

/-! ### The token that is asked for again -/

/-- At the end of the tokens, moving on stays at the token at hand, and is a fault. -/
theorem advance_of_rest_nil {r : Reader} (h : r.rest = []) :
    advance .collect r = .done () (note .unexpectedEnd r.current.location r) := by
  obtain ⟨token, rest, fault, frames⟩ := r
  cases h
  rfl

/-- **No fuel suffices** where the last token is at hand and asks for an operand. -/
theorem spent_of_opens {r : Reader} (hrest : r.rest = []) (hopens : r.current.opens) (fuel : Nat) :
    operand .collect fuel r = .spent ∧ ∀ least, expression .collect fuel least r = .spent := by
  induction fuel generalizing r with
  | zero =>
    refine ⟨?_, fun least => ?_⟩
    · rw [operand]
      rfl
    · rw [expression]
      rfl
  | succ fuel ih =>
    have hadvance : ∀ frames, advance .collect (r.withFrames frames) = _ :=
      fun frames => advance_of_rest_nil hrest
    have hinner : ∀ least frames,
        expression .collect fuel least
          (note .unexpectedEnd r.current.location (r.withFrames frames)) = .spent :=
      fun least frames => (ih (r := note _ _ (r.withFrames frames)) hrest hopens).2 least
    refine ⟨?_, fun least => ?_⟩
    · cases hsign : r.current.prefixPower? with
      | some power =>
        rw [operand_of_prefixed _ _ hsign, bind_done (hadvance _)]
        exact bind_spent (hinner _ _) _
      | none =>
        have hbracket : r.current.is .bracket "(" := by
          rw [Token.opens, hsign] at hopens
          exact hopens
        rw [operand_of_bracket _ _ hsign hbracket, bind_done (hadvance _)]
        exact bind_spent (hinner _ _) _
    · rw [expression]
      exact bind_spent (ih hrest hopens).1 _

/-! ### The productions -/

section Productions

variable {policy : Policy} {m n : Nat}

/-- A reader beyond another is faulty, or has fewer tokens left. -/
theorem length_lt_of_beyond {r s : Reader} (h : Beyond r s) (hs : s.fault = none) :
    s.rest.length < r.rest.length :=
  h.nearer.resolve_right fun hend => hend.2 hs

theorem settled_fields (hmn : m ≤ n) {r : Reader} (value : Expr) (hpos : 0 < m)
    (hm : r.fault = none → r.rest.length + 2 ≤ m) :
    Settled stuck (fields policy m value r) (fields policy n value r) := by
  induction m generalizing n r value with
  | zero => omega
  | succ m ih =>
    obtain ⟨n, rfl⟩ : ∃ k, n = k + 1 := ⟨n - 1, by omega⟩
    have hmn : m ≤ n := by omega
    rw [fields, fields, current_bind, current_bind, sound_bind, sound_bind]
    split
    · rename_i hdot
      have hsound : r.fault = none := by
        rw [Bool.and_eq_true, Option.isNone_iff_eq_none] at hdot
        exact hdot.1
      rw [enter_bind, enter_bind]
      refine settled_bind (settled_advance policy _) fun _ s hs => ?_
      have hs := leaps_advance policy _ _ _ hs
      rw [current_bind, current_bind]
      refine settled_bind (settled_advance policy _) fun _ t ht => ?_
      have ht := leaps_advance policy _ _ _ ht
      -- two tokens are gone by now, or there is a fault
      have hagain : ∀ u value, Onward t u →
          Settled stuck ((leave >>= fun _ => fields policy m value) u)
            ((leave >>= fun _ => fields policy n value) u) := by
        intro u value hu
        rw [leave_bind, leave_bind]
        refine ih hmn value (by have := hm hsound; omega) fun hfault => ?_
        have h₁ := length_lt_of_beyond (ht.onward hu) hfault
        have h₂ := hs.length_le
        have h₃ := hm hsound
        rw [rest_withFrames] at h₂ ⊢
        omega
      dsimp only
      split
      · refine settled_bind (settled_complain policy _ _ _) fun _ u hu => hagain u _ ?_
        exact leads_complain policy _ _ _ _ (by rw [hu]; rfl)
      · exact hagain t _ (.refl t)
    · exact settled_done _ _

theorem settled_secondary (hmn : m ≤ n) {r : Reader} (hm : r.rest.length + 1 ≤ m) :
    Settled stuck (secondary policy m r) (secondary policy n r) := by
  have hfields : ∀ value s, Beyond r s → Settled stuck (secondary.withFields policy m value s)
      (secondary.withFields policy n value s) := by
    intro value s hs
    rw [withFields_apply, withFields_apply]
    refine settled_bind (settled_fields hmn value (by omega) fun hfault => ?_)
      fun value t _ => settled_done _ _
    have := length_lt_of_beyond hs hfault
    rw [rest_withFrames]
    omega
  by_cases hname : r.current.kind = .identifier
  · rw [secondary_of_identifier _ _ hname, secondary_of_identifier _ _ hname]
    refine settled_bind (settled_advance policy r) fun _ s hs => ?_
    rw [behindName, behindName]
    split
    · exact settled_done _ _
    split
    · exact settled_done _ _
    split
    · exact settled_done _ _
    exact hfields _ s (leaps_advance policy _ _ _ hs)
  by_cases hnumber : r.current.kind = .number
  · rw [secondary_of_number _ _ hnumber, secondary_of_number _ _ hnumber]
    refine settled_bind (settled_advance policy r) fun _ s hs => ?_
    rw [behindNumber]
    cases Numeral.readInteger? r.current.value with
    | some value => exact settled_done _ _
    | none => exact settled_bind (settled_complain policy _ _ _) fun _ _ _ => settled_done _ _
  by_cases hstring : r.current.kind = .string
  · rw [secondary_of_string _ _ hstring, secondary_of_string _ _ hstring]
    refine settled_bind (settled_advance policy r) fun _ s hs => ?_
    exact hfields _ s (leaps_advance policy _ _ _ hs)
  · rw [secondary_of_other _ _ hname hnumber hstring, secondary_of_other _ _ hname hnumber hstring]
    exact settled_broken _

theorem settled_closeBracket (r : Reader) :
    Settled stuck (closeBracket policy r) (closeBracket policy r) := by
  rw [closeBracket, current_bind]
  split
  · exact settled_advance policy r
  · exact settled_complain policy _ _ r

/-- The step over the operators behind a left side. -/
theorem settled_operators {t : Token}
    (hexpression : ∀ r least, r.last = t → 4 * r.rest.length + 3 ≤ m →
      Settled stuck (expression policy m least r) (expression policy n least r))
    (hoperators : ∀ r least left, r.last = t → 0 < m →
      (r.fault = none → 4 * r.rest.length + 5 ≤ m) →
      Settled stuck (operators policy m least left r) (operators policy n least left r))
    (hchain : ∀ r power left token before, r.last = t → 4 * r.rest.length + 4 ≤ m →
      Settled stuck (chain policy m power left token before r)
        (chain policy n power left token before r))
    {r : Reader} (least : Nat) (left : Expr) (ht : r.last = t)
    (hm : r.fault = none → 4 * r.rest.length + 5 ≤ m + 1) :
    Settled stuck (operators policy (m + 1) least left r)
      (operators policy (n + 1) least left r) := by
  by_cases hfault : r.fault = none
  swap
  · rw [operators_of_faulty _ _ _ _ hfault, operators_of_faulty _ _ _ _ hfault]
    exact settled_done _ _
  have hm := hm hfault
  cases ha : operatorAhead policy least r with
  | spent =>
    have hnever : Settled False _ _ := settled_operatorAhead policy least r
    exact (hnever.spent ha).elim
  | broken s =>
    rw [operators_of_broken _ _ hfault ha, operators_of_broken _ _ hfault ha]
    exact settled_broken _
  | done ahead s =>
    have hs : Onward r s := leads_operatorAhead policy least _ _ (by rw [ha]; rfl)
    cases ahead with
    | none =>
      rw [operators_of_none _ _ hfault ha, operators_of_none _ _ hfault ha]
      exact settled_done _ _
    | some ahead =>
      rw [operators_of_some _ _ hfault ha, operators_of_some _ _ hfault ha]
      refine settled_bind (settled_advance policy _) fun _ u hu => ?_
      have hu := leaps_advance policy _ _ _ hu
      have hu : Beyond r u := hs.beyond ⟨⟨hu.length_le, hu.fault, hu.last⟩, hu.nearer⟩
      -- the right side is behind the operator, and so are the operators behind it
      have hlast := hu.last.trans ht
      have hagain : ∀ v joined, Onward u v →
          Settled stuck ((leave >>= fun _ => operators policy m least joined) v)
            ((leave >>= fun _ => operators policy n least joined) v) := by
        intro v joined hv
        rw [leave_bind, leave_bind]
        refine hoperators _ least joined (hv.last.trans hlast) (by omega) fun hfault => ?_
        have := length_lt_of_beyond (hu.onward hv) hfault
        rw [rest_withFrames]
        omega
      have hlength : 4 * u.rest.length + 4 ≤ m := by
        rcases hu.nearer with h | ⟨h, -⟩
        · omega
        · rw [h, List.length_nil]
          omega
      split
      · refine settled_bind (hchain u _ _ _ _ hlast hlength) fun joined v hv => hagain v joined ?_
        exact ((respects_leads policy).productions (Nat.le_refl m)).2.2.2 _ _ _ _ _ _
          (by rw [hv]; rfl)
      · refine settled_bind (hexpression u _ hlast (by omega)) fun right v hv => hagain v _ ?_
        exact (leaps_expression policy m _ _ _ _ hv).toOnward

/-- The step into an operand. -/
theorem settled_operand (hmn : m ≤ n) {t : Token}
    (hexpression : ∀ r least, r.last = t → 4 * r.rest.length + 3 ≤ m →
      Settled (policy = .collect ∧ t.opens) (expression policy m least r)
        (expression policy n least r))
    {r : Reader} (ht : r.last = t) (hm : 4 * r.rest.length + 2 ≤ m + 1) :
    Settled (policy = .collect ∧ t.opens) (operand policy (m + 1) r)
      (operand policy (n + 1) r) := by
  by_cases hstuck : policy = .collect ∧ r.rest = [] ∧ r.current.opens
  · obtain ⟨rfl, hrest, hopens⟩ := hstuck
    have hlast : r.current = t := by rw [← ht, Reader.last, hrest]; rfl
    rw [(spent_of_opens hrest hopens _).1, (spent_of_opens hrest hopens _).1]
    exact ⟨rfl, fun _ => ⟨rfl, hlast ▸ hopens⟩⟩
  -- behind the token that opens the operand there are fewer tokens left
  have hnearer : ∀ frames s, r.current.opens →
      advance policy (r.withFrames frames) = .done () s → s.rest.length < r.rest.length := by
    intro frames s hopens hs
    rcases (leaps_advance policy _ _ _ hs).nearer with h | ⟨h, -⟩
    · exact h
    rw [h, List.length_nil, List.length_pos_iff]
    intro hrest
    cases policy with
    | collect => exact hstuck ⟨rfl, hrest, hopens⟩
    | abort =>
      rw [advance_eq, rest_withFrames, hrest] at hs
      cases hs
  cases hsign : r.current.prefixPower? with
  | some power =>
    have hopens : r.current.opens := by rw [Token.opens, hsign]; rfl
    rw [operand_of_prefixed _ _ hsign, operand_of_prefixed _ _ hsign]
    refine settled_bind (settled_advance policy _) fun _ s hs => ?_
    have hlength := hnearer _ s hopens hs
    have hlast : s.last = t := (leaps_advance policy _ _ _ hs).last.trans ht
    refine settled_bind (hexpression s _ hlast (by omega)) fun inner u hu => ?_
    have hu := (leaps_expression policy m _ _ _ _ hu).length_le
    refine settled_bind (settled_fields hmn _ (by omega) fun _ => by omega)
      fun value v _ => settled_done _ _
  | none =>
    by_cases hbracket : r.current.is .bracket "("
    · have hopens : r.current.opens := by rw [Token.opens, hbracket, Bool.or_true]
      rw [operand_of_bracket _ _ hsign hbracket, operand_of_bracket _ _ hsign hbracket]
      refine settled_bind (settled_advance policy _) fun _ s hs => ?_
      have hlength := hnearer _ s hopens hs
      have hlast : s.last = t := (leaps_advance policy _ _ _ hs).last.trans ht
      refine settled_bind (hexpression s _ hlast (by omega)) fun inner u hu => ?_
      have hu := (leaps_expression policy m _ _ _ _ hu).length_le
      refine settled_bind (settled_closeBracket u) fun _ v hv => ?_
      have hv := (leads_closeBracket policy u v (by rw [hv]; rfl)).length_le
      rw [leave_bind, leave_bind]
      exact settled_fields hmn _ (by omega) fun _ => by rw [rest_withFrames]; omega
    · rw [operand_of_secondary _ _ hsign hbracket, operand_of_secondary _ _ hsign hbracket]
      exact settled_secondary hmn (by omega)

/-- **The fuel suffices** for every production, unless the reader is stuck, and more fuel changes
nothing. -/
theorem settled_productions (hmn : m ≤ n) (t : Token) :
    (∀ r least, r.last = t → 4 * r.rest.length + 3 ≤ m →
      Settled (policy = .collect ∧ t.opens) (expression policy m least r)
        (expression policy n least r)) ∧
    (∀ r least left, r.last = t → 0 < m → (r.fault = none → 4 * r.rest.length + 5 ≤ m) →
      Settled (policy = .collect ∧ t.opens) (operators policy m least left r)
        (operators policy n least left r)) ∧
    (∀ r, r.last = t → 4 * r.rest.length + 2 ≤ m →
      Settled (policy = .collect ∧ t.opens) (operand policy m r) (operand policy n r)) ∧
    (∀ r power left token before, r.last = t → 4 * r.rest.length + 4 ≤ m →
      Settled (policy = .collect ∧ t.opens) (chain policy m power left token before r)
        (chain policy n power left token before r)) := by
  induction m generalizing n with
  | zero =>
    refine ⟨fun _ _ _ _ => ?_, fun _ _ _ _ _ _ => ?_, fun _ _ _ => ?_, fun _ _ _ _ _ _ _ => ?_⟩ <;>
      omega
  | succ m ih =>
    obtain ⟨n, rfl⟩ : ∃ k, n = k + 1 := ⟨n - 1, by omega⟩
    have hmn : m ≤ n := by omega
    obtain ⟨hexpression, hoperators, hoperand, hchain⟩ := ih (n := n) hmn
    refine ⟨fun r least ht hm => ?_, fun r least left ht _ hm => ?_, fun r ht hm => ?_,
      fun r power left token before ht hm => ?_⟩
    · rw [expression, expression]
      refine settled_bind (hoperand r ht (by omega)) fun left s hs => ?_
      have hs := leaps_operand policy m _ _ _ hs
      refine hoperators s least left (hs.last.trans ht) (by omega) fun hfault => ?_
      have := length_lt_of_beyond hs hfault
      omega
    · exact settled_operators hexpression hoperators hchain least left ht hm
    · exact settled_operand hmn hexpression ht hm
    · rw [chain_eq, chain_eq]
      refine settled_bind (hexpression r _ ht (by omega)) fun right s hs => ?_
      have hs := leaps_expression policy m _ _ _ _ hs
      rw [current_bind, current_bind, sound_bind, sound_bind]
      split
      · rename_i hnext
        have hsound : s.fault = none := by
          rw [Bool.and_eq_true, Option.isNone_iff_eq_none] at hnext
          exact hnext.2
        have hlength := length_lt_of_beyond hs hsound
        refine settled_bind (settled_retarget _ _ _) fun _ u hu => ?_
        have hu : Onward s u := (respects_leads policy).retarget _ _ _ _ (by rw [hu]; rfl)
        refine settled_bind (settled_advance policy u) fun _ v hv => ?_
        have hv : Onward s v := hu.trans (leaps_advance policy _ _ _ hv).toOnward
        have := hv.length_le
        exact hchain v _ _ _ _ ((hv.last.trans hs.last).trans ht) (by omega)
      · exact settled_done _ _

end Productions

theorem settled_text (policy : Policy) {m n : Nat} (hmn : m ≤ n) {r : Reader}
    (hm : 4 * r.rest.length + 3 ≤ m) :
    Settled (policy = .collect ∧ r.last.opens) (text policy m r) (text policy n r) := by
  refine settled_bind ((settled_productions hmn r.last).1 r 0 rfl hm) fun value s _ => ?_
  rw [current_bind]
  split
  · exact settled_bind (settled_complain policy _ _ s) fun _ _ _ => settled_done _ _
  · exact settled_done _ _

end Grammar

/-! ### Lists of tokens -/

/-- Reads a list of tokens as a whole text, with any amount of fuel. -/
def readText (policy : Policy) (fuel : Nat) (tokens : List Token) : Outcome Expr :=
  match tokens.dropWhile Token.isBlank with
  | [] => .broken { current := default, rest := [], fault := some missingExpression }
  | token :: rest => Grammar.text policy fuel { current := token, rest }

theorem runParser_eq_readText (policy : Policy) (tokens : List Token) :
    runParser policy tokens = readText policy (parserFuel tokens.length) tokens := rfl

/-- Reading a list of tokens past its faults comes to an end. -/
def Terminates (tokens : List Token) : Prop :=
  ∃ fuel, readText .collect fuel tokens ≠ .spent

theorem settled_readText (policy : Policy) {n : Nat} {tokens : List Token}
    (h : parserFuel tokens.length ≤ n) :
    Grammar.Settled (policy = .collect ∧ ∃ t, tokens.getLast? = some t ∧ t.opens)
      (runParser policy tokens) (readText policy n tokens) := by
  rw [runParser_eq_readText, readText, readText]
  cases hdrop : tokens.dropWhile Token.isBlank with
  | nil => exact Grammar.settled_broken _
  | cons token rest =>
    have hsuffix : (token :: rest) <:+ tokens := hdrop ▸ List.dropWhile_suffix _
    have hlength := hsuffix.length_le
    rw [List.length_cons] at hlength
    have hlast := getLast?_of_dropWhile hdrop
    have htext := Grammar.settled_text policy h (r := { current := token, rest })
      (by show 4 * rest.length + 3 ≤ parserFuel _; rw [parserFuel]; omega)
    exact ⟨htext.eq, fun hspent => (htext.spent hspent).imp_right fun hopens => ⟨_, hlast, hopens⟩⟩

/-- **Enough is enough.**  More fuel than `parserFuel` gives changes nothing. -/
theorem readText_eq_runParser (policy : Policy) {n : Nat} {tokens : List Token}
    (h : parserFuel tokens.length ≤ n) : readText policy n tokens = runParser policy tokens :=
  (settled_readText policy h).eq.symm

/-- Reading comes to an end with some amount of fuel where it does with the fuel it has. -/
theorem terminates_iff (tokens : List Token) :
    Terminates tokens ↔ runParser .collect tokens ≠ .spent := by
  constructor
  · rintro ⟨fuel, hfuel⟩ hspent
    have hmore : readText .collect (fuel + parserFuel tokens.length) tokens = .spent := by
      rw [readText_eq_runParser _ (Nat.le_add_left _ _), hspent]
    rw [readText] at hfuel hmore
    cases hdrop : tokens.dropWhile Token.isBlank with
    | nil =>
      rw [hdrop] at hmore
      cases hmore
    | cons token rest =>
      rw [hdrop] at hfuel hmore
      have htext := (Grammar.respects_extends .collect).text (m := fuel)
        (n := fuel + parserFuel tokens.length) (Nat.le_add_right _ _)
      rcases htext _ with h | h
      · exact hfuel h
      · exact hfuel (h.symm.trans hmore)
  · intro h
    exact ⟨_, h⟩

/-- **Termination.**  Reading comes to an end unless the last token asks for an operand. -/
theorem terminates_of_last {tokens : List Token} {t : Token} (hlast : tokens.getLast? = some t)
    (hopens : t.opens = false) : Terminates tokens := by
  rw [terminates_iff]
  intro hspent
  obtain ⟨-, u, hu, huopens⟩ := (settled_readText .collect (Nat.le_refl _)).spent hspent
  rw [hlast] at hu
  cases hu
  rw [hopens] at huopens
  cases huopens

end FilterLang
