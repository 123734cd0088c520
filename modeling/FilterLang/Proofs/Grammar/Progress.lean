import FilterLang.Proofs.Grammar.Relation

/-!
# The grammar never turns back

* `Reader.Onward` — a reader has no more tokens behind the one at hand than another had, keeps its
  fault, and ends with the same token.
* `Reader.Beyond` — it has fewer of them, or it is at the end and faulty.
* `respects_leads` — every production leads onward.
* `Leaps` — an action that leads beyond the reader it starts from.  Moving on does, and so do an
  operand and an expression.
-/

namespace FilterLang

namespace Reader

/-- A reader that another leads to: no token is read twice, and the first fault stays. -/
structure Onward (r s : Reader) : Prop where
  length_le : s.rest.length ≤ r.rest.length
  fault : ∀ f, r.fault = some f → s.fault = some f
  last : s.last = r.last

/-- A reader that another leads to past a token, or with a fault at the end of the tokens. -/
structure Beyond (r s : Reader) : Prop extends Onward r s where
  nearer : s.rest.length < r.rest.length ∨ s.rest = [] ∧ s.fault ≠ none

theorem Onward.refl (r : Reader) : Onward r r := ⟨Nat.le_refl _, fun _ h => h, rfl⟩

theorem Onward.trans {r s t : Reader} (hrs : Onward r s) (hst : Onward s t) : Onward r t where
  length_le := Nat.le_trans hst.length_le hrs.length_le
  fault f h := hst.fault f (hrs.fault f h)
  last := hst.last.trans hrs.last

theorem Onward.faulty {r s : Reader} (h : Onward r s) (hr : r.fault ≠ none) : s.fault ≠ none := by
  obtain ⟨f, hf⟩ := Option.ne_none_iff_exists'.mp hr
  rw [h.fault f hf]
  exact Option.some_ne_none f

theorem Onward.sound {r s : Reader} (h : Onward r s) (hs : s.fault = none) : r.fault = none :=
  not_not.mp fun hr => h.faulty hr hs

theorem Beyond.onward {r s t : Reader} (hrs : Beyond r s) (hst : Onward s t) : Beyond r t where
  toOnward := hrs.toOnward.trans hst
  nearer := by
    have hlength := hst.length_le
    rcases hrs.nearer with h | ⟨hend, hfault⟩
    · exact .inl (by omega)
    · rw [hend, List.length_nil, Nat.le_zero, List.length_eq_zero_iff] at hlength
      exact .inr ⟨hlength, hst.faulty hfault⟩

theorem Onward.beyond {r s t : Reader} (hrs : Onward r s) (hst : Beyond s t) : Beyond r t where
  toOnward := hrs.trans hst.toOnward
  nearer := hst.nearer.imp_left fun h => Nat.lt_of_lt_of_le h hrs.length_le

/-- The last token of all does not change on the way to it. -/
theorem last_moveTo_of_suffix (r : Reader) {token : Token} {rest : List Token}
    (h : (token :: rest) <:+ r.rest) : (r.moveTo token rest).last = r.last := by
  obtain ⟨front, hfront⟩ := h
  show rest.getLast?.getD token = r.rest.getLast?.getD r.current
  rw [← hfront, List.getLast?_append, List.getLast?_cons]
  rfl

end Reader

namespace Grammar

open Reader

variable {α β : Type}

/-! ### Actions that lead onward -/

/-- An action that leads onward. -/
def Leads (a : Grammar α) : Prop := ∀ r s, (a r).reader? = some s → Onward r s

/-- An action whose values lie beyond the reader it starts from. -/
def Leaps (a : Grammar α) : Prop := ∀ r value s, a r = .done value s → Beyond r s

theorem leads_bind {a : Grammar α} {f : α → Grammar β} (ha : Leads a)
    (hf : ∀ value, Leads (f value)) : Leads (a >>= f) := by
  intro r s hs
  cases h : a r with
  | done value t =>
    rw [bind_done h] at hs
    exact (ha r t (by rw [h]; rfl)).trans (hf value t s hs)
  | broken t =>
    rw [bind_broken h] at hs
    exact ha r s (by rw [h]; exact hs)
  | spent =>
    rw [bind_spent h] at hs
    cases hs

theorem Leaps.bind {a : Grammar α} {f : α → Grammar β} (ha : Leaps a)
    (hf : ∀ value, Leads (f value)) : Leaps (a >>= f) := by
  intro r value s hs
  obtain ⟨v, t, ht, hs⟩ := bind_eq_done hs
  exact (ha r v t ht).onward (hf v t s (by rw [hs]; rfl))

theorem Leads.bind_leaps {a : Grammar α} {f : α → Grammar β} (ha : Leads a)
    (hf : ∀ value, Leaps (f value)) : Leaps (a >>= f) := by
  intro r value s hs
  obtain ⟨v, t, ht, hs⟩ := bind_eq_done hs
  exact (ha r t (by rw [ht]; rfl)).beyond (hf v t value s hs)

theorem leads_pure (value : α) : Leads (pure value : Grammar α) := by
  intro r s hs
  cases hs
  exact .refl r

theorem leads_current : Leads current := by
  intro r s hs
  cases hs
  exact .refl r

theorem onward_note (fault : ParseFault) (location : Location) (r : Reader) :
    Onward r (note fault location r) where
  length_le := Nat.le_refl _
  fault f h := by
    show r.fault.or _ = some f
    rw [h]
    rfl
  last := rfl

theorem leads_complain (policy : Policy) (fault : ParseFault) (location : Location) :
    Leads (complain policy fault location) := by
  intro r s hs
  cases policy <;> cases hs <;> exact onward_note fault location r

theorem leads_fail (fault : ParseFault) (location : Location) :
    Leads (fail fault location : Grammar α) := by
  intro r s hs
  cases hs
  exact onward_note fault location r

/-- Moving on leads past a token, or is a fault. -/
theorem beyond_advance {policy : Policy} {r s : Reader}
    (hs : (advance policy r).reader? = some s) : Beyond r s := by
  rw [advance_eq] at hs
  cases hdrop : r.rest.dropWhile Token.isBlank with
  | cons token rest =>
    have hsuffix : (token :: rest) <:+ r.rest := hdrop ▸ List.dropWhile_suffix _
    have hlength := hsuffix.length_le
    rw [List.length_cons] at hlength
    rw [hdrop] at hs
    cases hs
    exact ⟨⟨by show rest.length ≤ _; omega, fun _ h => h, r.last_moveTo_of_suffix hsuffix⟩,
      .inl hlength⟩
  | nil =>
    rw [hdrop] at hs
    have hend : Onward r (r.moveTo r.last []) := ⟨Nat.zero_le _, fun _ h => h, rfl⟩
    have hnote := hend.trans (onward_note .unexpectedEnd r.last.location _)
    have hfault : (note .unexpectedEnd r.last.location (r.moveTo r.last [])).fault ≠ none := by
      show Option.or _ (some _) ≠ none
      simp
    cases policy <;> cases hs <;> exact ⟨hnote, .inr ⟨rfl, hfault⟩⟩

theorem leads_advance (policy : Policy) : Leads (advance policy) :=
  fun _ _ hs => (beyond_advance hs).toOnward

/-- Looking for an operator leads onward: also where it comes back to the `not`, that leaves the
reader as it was. -/
theorem leads_operatorAhead (policy : Policy) (least : Nat) : Leads (operatorAhead policy least) := by
  intro r s hs
  by_cases hkind : r.current.kind = .operator
  swap
  · rw [operatorAhead_of_kind policy least hkind] at hs
    cases hs
    exact .refl r
  by_cases hnot : r.current.value = "not"
  swap
  · rw [operatorAhead_of_ne_not policy least hkind hnot] at hs
    cases hs
    exact .refl r
  rw [operatorAhead_of_not policy least hkind hnot] at hs
  cases hadvance : advance policy r with
  | spent => exact absurd hadvance (advance_ne_spent policy r)
  | broken t =>
    rw [hadvance] at hs
    cases hs
    exact (beyond_advance (by rw [hadvance]; rfl)).toOnward
  | done value t =>
    have ht : Beyond r t := beyond_advance (by rw [hadvance]; rfl)
    rw [hadvance] at hs
    dsimp only at hs
    rw [afterNot] at hs
    split at hs
    · split at hs
      · cases hs
        exact ht.toOnward
      · cases hs
        exact ⟨Nat.le_refl _, ht.fault, rfl⟩
    · have hcomplain := leads_bind (leads_complain policy (.unexpectedToken t.current.describe)
        t.current.location) (fun _ => leads_pure (none : Option Ahead))
      exact ht.toOnward.trans (hcomplain t s hs)

theorem leads_enter (frame : Frame) : Leads (enter frame) := by
  intro r s hs
  cases hs
  exact ⟨Nat.le_refl _, fun _ h => h, rfl⟩

theorem leads_leave : Leads leave := by
  intro r s hs
  cases hs
  exact ⟨Nat.le_refl _, fun _ h => h, rfl⟩

/-- **Every action leads onward.** -/
theorem respects_leads (policy : Policy) : Respects policy policy fun _ a _ => Leads a where
  outOfFuel _ := by
    intro r s hs
    cases hs
  pure := leads_pure
  bind := leads_bind
  current := leads_current
  sound := by
    intro r s hs
    cases hs
    exact .refl r
  complain := leads_complain policy
  fail := leads_fail
  advance := leads_advance policy
  operatorAhead := leads_operatorAhead policy
  enter := leads_enter
  leave := leads_leave
  retarget left operator := by
    intro r s hs
    rw [retarget] at hs
    split at hs <;> cases hs <;> exact ⟨Nat.le_refl _, fun _ h => h, rfl⟩

theorem leaps_advance (policy : Policy) : Leaps (advance policy) := by
  intro r value s hs
  exact beyond_advance (by rw [hs]; rfl)

/-! ### Productions that lead beyond a token -/

section Productions

variable (policy : Policy) (fuel : Nat)

theorem leads_fields (value : Expr) : Leads (fields policy fuel value) :=
  (respects_leads policy).fields (Nat.le_refl _) value

theorem leads_closeBracket : Leads (closeBracket policy) :=
  (respects_leads policy).closeBracket

theorem leads_operators (least : Nat) (left : Expr) : Leads (operators policy fuel least left) :=
  ((respects_leads policy).productions (Nat.le_refl _)).2.1 least left

/-- The value of a name, number or string lies beyond it. -/
theorem leaps_secondary : Leaps (secondary policy fuel) := by
  have hfields : ∀ value, Leads (secondary.withFields policy fuel value) :=
    fun value => leads_bind (leads_enter _) fun _ => leads_bind (leads_fields policy fuel value) fun _ =>
      leads_bind leads_leave fun _ => leads_pure _
  refine leads_current.bind_leaps fun token => ?_
  dsimp only
  split
  · refine (leaps_advance policy).bind fun _ => ?_
    split
    · exact leads_pure _
    split
    · exact leads_pure _
    split
    · exact leads_pure _
    exact hfields _
  · refine (leaps_advance policy).bind fun _ => ?_
    split
    · exact leads_pure _
    · exact leads_bind (leads_complain _ _ _) fun _ => leads_pure _
  · exact (leaps_advance policy).bind fun _ => hfields _
  · intro r value s hs
    cases hs

/-- The value of an operand lies beyond its first token. -/
theorem leaps_operand : Leaps (operand policy fuel) := by
  cases fuel with
  | zero =>
    intro r value s hs
    rw [operand] at hs
    cases hs
  | succ fuel =>
    have hexpression := ((respects_leads policy).productions (Nat.le_refl fuel)).1
    rw [operand]
    refine leads_current.bind_leaps fun token => ?_
    split
    · exact (leads_enter _).bind_leaps fun _ => (leaps_advance policy).bind fun _ =>
        leads_bind (hexpression _) fun _ => leads_bind (leads_fields policy fuel _) fun _ =>
          leads_bind leads_leave fun _ => leads_pure _
    · split
      · exact (leads_enter _).bind_leaps fun _ => (leaps_advance policy).bind fun _ =>
          leads_bind (hexpression _) fun _ => leads_bind (leads_closeBracket policy) fun _ =>
            leads_bind leads_leave fun _ => leads_fields policy fuel _
      · exact leaps_secondary policy fuel

/-- The value of an expression lies beyond its first token. -/
theorem leaps_expression (least : Nat) : Leaps (expression policy fuel least) := by
  cases fuel with
  | zero =>
    intro r value s hs
    rw [expression] at hs
    cases hs
  | succ fuel =>
    rw [expression]
    exact (leaps_operand policy fuel).bind fun left => leads_operators policy fuel least left

end Productions

end Grammar

end FilterLang
