import FilterLang.Proofs.Grammar.Policy

/-!
# What is read without a fault

The grammar as a relation between lists of tokens, without blanks, faults, fuel and policies.  It
has one rule for every way through a production that ends without a fault.

* `Offers`, `Refuses` — the operator at hand binds tightly enough, or not.
* `Goal` — a production with its arguments, and `Goal.run`, its action.
* `Reads` — the rules.
* `Reads.run` — what the rules derive is what the action does, for either policy.
* `reads_of_run` — what the action does without a fault is what the rules derive.
* `parse_of_reads`, `reads_of_parse` — both for whole texts.
-/

namespace FilterLang

namespace Grammar

/-! ### The relation -/

/-- The operator `ahead` at the head of `ts` binds with at least the power `least`.  The tokens
behind it are `us`. -/
inductive Offers (least : Nat) : List Token → Ahead → List Token → Prop where
  | plain {t : Token} {us : List Token} {ahead : Ahead} (hkind : t.kind = .operator)
      (hnot : t.value ≠ "not") (hahead : Ahead.ofToken? least t none = some ahead) :
      Offers least (t :: us) ahead us
  | negated {t relation : Token} {us : List Token} {ahead : Ahead} (hkind : t.kind = .operator)
      (hnot : t.value = "not") (hrelation : isNegatable relation)
      (hahead : Ahead.ofToken? least relation (some t.location) = some ahead) :
      Offers least (t :: relation :: us) ahead us

/-- No operator at the head of the tokens binds with at least the power `least`. -/
inductive Refuses (least : Nat) : List Token → Prop where
  | kind {t : Token} {us : List Token} (hkind : t.kind ≠ .operator) : Refuses least (t :: us)
  | plain {t : Token} {us : List Token} (hkind : t.kind = .operator) (hnot : t.value ≠ "not")
      (hahead : Ahead.ofToken? least t none = none) : Refuses least (t :: us)
  | negated {t relation : Token} {us : List Token} (hkind : t.kind = .operator)
      (hnot : t.value = "not") (hrelation : isNegatable relation)
      (hahead : Ahead.ofToken? least relation (some t.location) = none) :
      Refuses least (t :: relation :: us)

/-- The constant that a name stands for. -/
def constant? (token : Token) : Option Expr :=
  if token.value = "true" then some (.bool (.at token.location) true)
  else if token.value = "false" then some (.bool (.at token.location) false)
  else if token.value = "nil" then some (.nil (.at token.location))
  else none

/-- A production with its arguments. -/
inductive Goal where
  | expression (least : Nat)
  | operators (least : Nat) (left : Expr)
  | operand
  | chain (power : Nat) (left : Expr) (token : Token) (before : Option Expr)
  | fields (value : Expr)

/-- The action of a production. -/
def Goal.run (policy : Policy) (fuel : Nat) : Goal → Grammar Expr
  | expression least => Grammar.expression policy fuel least
  | operators least left => Grammar.operators policy fuel least left
  | operand => Grammar.operand policy fuel
  | chain power left token before => Grammar.chain policy fuel power left token before
  | fields value => Grammar.fields policy fuel value

/-- The production reads a tree from the head of the first list and leaves the second one.  Every
token that is read has another one behind it. -/
inductive Reads : Goal → List Token → Expr → List Token → Prop where
  | expression {least : Nat} {ts us vs : List Token} {left e : Expr}
      (hoperand : Reads .operand ts left us) (hoperators : Reads (.operators least left) us e vs) :
      Reads (.expression least) ts e vs
  | stop {least : Nat} {ts : List Token} {left : Expr} (hrefuses : Refuses least ts) :
      Reads (.operators least left) ts left ts
  | binary {least : Nat} {ts us vs ws : List Token} {ahead : Ahead} {left right e : Expr}
      (hoffers : Offers least ts ahead us) (hplain : ¬ Operator.isComparison ahead.token.value)
      (hright : Reads (.expression (ahead.power + 1)) us right vs)
      (hoperators : Reads (.operators least (ahead.join left right)) vs e ws) :
      Reads (.operators least left) ts e ws
  | comparison {least : Nat} {ts us vs ws : List Token} {ahead : Ahead} {left joined e : Expr}
      (hoffers : Offers least ts ahead us) (hcomparison : Operator.isComparison ahead.token.value)
      (hchain : Reads (.chain ahead.power left ahead.token none) us joined vs)
      (hoperators : Reads (.operators least joined) vs e ws) :
      Reads (.operators least left) ts e ws
  | prefixed {t : Token} {power : Nat} {us vs ws : List Token} {inner e : Expr}
      (hpower : t.prefixPower? = some power) (hinner : Reads (.expression power) us inner vs)
      (hfields : Reads (.fields (.unary (.at t.location) t.value inner)) vs e ws) :
      Reads .operand (t :: us) e ws
  | bracketed {t close : Token} {us vs ws : List Token} {inner e : Expr}
      (hopen : t.is .bracket "(") (hinner : Reads (.expression 0) us inner (close :: vs))
      (hclose : close.is .bracket ")") (hfields : Reads (.fields inner) vs e ws) :
      Reads .operand (t :: us) e ws
  | constant {t u : Token} {us : List Token} {e : Expr} (hkind : t.kind = .identifier)
      (hconstant : constant? t = some e) : Reads .operand (t :: u :: us) e (u :: us)
  | name {t : Token} {us vs : List Token} {e : Expr} (hkind : t.kind = .identifier)
      (hconstant : constant? t = none)
      (hfields : Reads (.fields (.identifier (.at t.location) t.value)) us e vs) :
      Reads .operand (t :: us) e vs
  | number {t u : Token} {us : List Token} {value : Int} (hkind : t.kind = .number)
      (hvalue : Numeral.readInteger? t.value = some value) :
      Reads .operand (t :: u :: us) (.integer (.at t.location) value) (u :: us)
  | string {t : Token} {us vs : List Token} {e : Expr} (hkind : t.kind = .string)
      (hfields : Reads (.fields (.string (.at t.location) t.value)) us e vs) :
      Reads .operand (t :: us) e vs
  | chainEnd {power : Nat} {t next : Token} {ts us : List Token} {left right : Expr}
      {before : Option Expr} (hright : Reads (.expression (power + 1)) ts right (next :: us))
      (hnext : ¬ isComparison next) :
      Reads (.chain power left t before) ts (conjoin before t left right) (next :: us)
  | chainMore {power : Nat} {t next : Token} {ts us vs : List Token} {left right e : Expr}
      {before : Option Expr} (hright : Reads (.expression (power + 1)) ts right (next :: us))
      (hnext : isComparison next)
      (hchain : Reads (.chain power right next (some (conjoin before t left right))) us e vs) :
      Reads (.chain power left t before) ts e vs
  | field {t property : Token} {us vs : List Token} {value e : Expr} (hdot : t.is .operator ".")
      (hproperty : property.kind = .identifier ∨ property.kind = .operator)
      (hfields : Reads (.fields (.member (.at property.location) value
        (.identifier (.at property.location) property.value) false)) us e vs) :
      Reads (.fields value) (t :: property :: us) e vs
  | noField {t : Token} {us : List Token} {value : Expr} (hdot : ¬ t.is .operator ".") :
      Reads (.fields value) (t :: us) value (t :: us)

/-- A production reads from a token at hand. -/
theorem Reads.ne_nil {g : Goal} {ts us : List Token} {e : Expr} (h : Reads g ts e us) : ts ≠ [] := by
  induction h with
  | expression _ _ ih _ => exact ih
  | stop hrefuses => cases hrefuses <;> nofun
  | binary hoffers => cases hoffers <;> nofun
  | comparison hoffers => cases hoffers <;> nofun
  | chainEnd _ _ ih => exact ih
  | chainMore _ _ _ ih _ => exact ih
  | _ => nofun

/-! ### The actions do what the rules derive -/

/-- The reader has these tokens in view and no fault. -/
def At (r : Reader) (ts : List Token) : Prop := r.view = ts ∧ r.fault = none

theorem At.current {r : Reader} {t : Token} {ts : List Token} (h : At r (t :: ts)) :
    r.current = t := by
  obtain ⟨hview, -⟩ := h
  injection hview

/-- With these tokens in view the action gives the value and leaves those tokens in view. -/
def Gives {α : Type} (a : Grammar α) (ts : List Token) (value : α) (us : List Token) : Prop :=
  ∀ r, At r ts → ∃ s, a r = .done value s ∧ At s us

variable {α β : Type} {ts us vs : List Token}

theorem Gives.bind {a : Grammar α} {f : α → Grammar β} {v : α} {w : β} (ha : Gives a ts v us)
    (hf : Gives (f v) us w vs) : Gives (a >>= f) ts w vs := by
  intro r hr
  obtain ⟨s, has, hs⟩ := ha r hr
  obtain ⟨t, hft, ht⟩ := hf s hs
  exact ⟨t, (bind_done has f).trans hft, ht⟩

theorem gives_pure (value : α) (ts : List Token) : Gives (pure value) ts value ts :=
  fun r hr => ⟨r, rfl, hr⟩

theorem gives_current (t : Token) (ts : List Token) : Gives current (t :: ts) t (t :: ts) :=
  fun r hr => ⟨r, by rw [← hr.current]; rfl, hr⟩

theorem gives_sound (ts : List Token) : Gives sound ts true ts :=
  fun r hr => ⟨r, by rw [sound, hr.2]; rfl, hr⟩

theorem gives_enter (frame : Frame) (ts : List Token) : Gives (enter frame) ts () ts :=
  fun _ hr => ⟨_, rfl, hr⟩

theorem gives_leave (ts : List Token) : Gives leave ts () ts :=
  fun _ hr => ⟨_, rfl, hr⟩

theorem gives_retarget (left : Expr) (operator : String) (ts : List Token) :
    Gives (retarget left operator) ts () ts := by
  intro r hr
  rw [retarget]
  split
  · exact ⟨_, rfl, hr⟩
  · exact ⟨r, rfl, hr⟩

theorem gives_advance (policy : Policy) (t : Token) (hts : ts ≠ []) :
    Gives (advance policy) (t :: ts) () ts := by
  intro r hr
  obtain ⟨u, us, rfl⟩ := List.exists_cons_of_ne_nil hts
  obtain ⟨rest, hadvance, hrest⟩ := advance_of_view policy hr.1
  exact ⟨_, hadvance, by rw [← hrest]; rfl, hr.2⟩

theorem token_of_ofToken? {least : Nat} {t : Token} {negation : Option Location} {ahead : Ahead}
    (h : Ahead.ofToken? least t negation = some ahead) :
    ahead.token = t ∧ ahead.negation = negation ∧ least ≤ ahead.power ∧
      Operator.binaryPower t.value = some ahead.power := by
  rw [Ahead.ofToken?] at h
  split at h
  · split at h
    · cases h
      exact ⟨rfl, rfl, ‹_›, ‹_›⟩
    · cases h
  · cases h

/-- A relation behind a `not` is no comparison. -/
theorem not_isComparison_of_isNegatable {t : Token} (h : isNegatable t) :
    ¬ Operator.isComparison t.value := by
  intro hcomparison
  rw [isNegatable, Bool.and_eq_true, Operator.isNegatable_of_isComparison hcomparison] at h
  cases h.2

/-- A comparison ahead has no `not` in front of it. -/
theorem negation_of_operatorAhead {policy : Policy} {least : Nat} {ahead : Ahead} {r s : Reader}
    (h : operatorAhead policy least r = .done (some ahead) s)
    (hcomparison : Operator.isComparison ahead.token.value) : ahead.negation = none := by
  by_cases hkind : r.current.kind = .operator
  swap
  · rw [operatorAhead_of_kind _ _ hkind] at h
    cases h
  by_cases hnot : r.current.value = "not"
  swap
  · rw [operatorAhead_of_ne_not _ _ hkind hnot] at h
    injection h with hahead
    exact (token_of_ofToken? hahead).2.1
  rw [operatorAhead_of_not _ _ hkind hnot] at h
  split at h
  · rename_i t _
    rw [afterNot] at h
    split at h
    · rename_i hrelation
      cases hahead : Ahead.ofToken? least t.current (some r.current.location) with
      | none =>
        rw [hahead] at h
        cases h
      | some found =>
        rw [hahead] at h
        cases h
        rw [(token_of_ofToken? hahead).1] at hcomparison
        exact absurd hcomparison (not_isComparison_of_isNegatable hrelation)
    · obtain ⟨_, _, _, h⟩ := bind_eq_done h
      cases h
  · cases h
  · cases h

theorem Offers.gives {least : Nat} {ahead : Ahead} (h : Offers least ts ahead us) (policy : Policy) :
    Gives (operatorAhead policy least) ts (some ahead) (ahead.token :: us) := by
  intro r hr
  cases h with
  | @plain t us ahead hkind hnot hahead =>
    obtain rfl := hr.current
    obtain ⟨htoken, -⟩ := token_of_ofToken? hahead
    exact ⟨r, by rw [operatorAhead_of_ne_not _ _ hkind hnot, hahead], by rwa [htoken]⟩
  | @negated t relation us ahead hkind hnot hrelation hahead =>
    obtain rfl := hr.current
    obtain ⟨htoken, -⟩ := token_of_ofToken? hahead
    obtain ⟨s, hs, hat⟩ := gives_advance policy _ (List.cons_ne_nil _ _) r hr
    refine ⟨s, ?_, by rwa [htoken]⟩
    rw [operatorAhead_of_not _ _ hkind hnot, hs]
    dsimp only
    rw [afterNot, hat.current, if_pos hrelation, hahead]

theorem Refuses.gives {least : Nat} (h : Refuses least ts) (policy : Policy) :
    Gives (operatorAhead policy least) ts none ts := by
  intro r hr
  cases h with
  | @kind t us hkind =>
    obtain rfl := hr.current
    exact ⟨r, operatorAhead_of_kind _ _ hkind, hr⟩
  | @plain t us hkind hnot hahead =>
    obtain rfl := hr.current
    exact ⟨r, by rw [operatorAhead_of_ne_not _ _ hkind hnot, hahead], hr⟩
  | @negated t relation us hkind hnot hrelation hahead =>
    obtain rfl := hr.current
    obtain ⟨s, hs, hat⟩ := gives_advance policy _ (List.cons_ne_nil _ _) r hr
    refine ⟨s.moveTo r.current r.rest, ?_, hr.1, hat.2⟩
    rw [operatorAhead_of_not _ _ hkind hnot, hs]
    dsimp only
    rw [afterNot, hat.current, if_pos hrelation, hahead]

theorem behindName_eq (policy : Policy) (fuel : Nat) (t : Token) :
    behindName policy fuel t = match constant? t with
      | some e => pure e
      | none => secondary.withFields policy fuel (.identifier (.at t.location) t.value) := by
  rw [behindName, constant?]
  split
  · rfl
  split
  · rfl
  split <;> rfl

theorem Gives.withFields {policy : Policy} {fuel : Nat} {value e : Expr}
    (h : Gives (Grammar.fields policy fuel value) ts e us) :
    Gives (secondary.withFields policy fuel value) ts e us :=
  (gives_enter _ _).bind (h.bind ((gives_leave _).bind (gives_pure _ _)))

/-- Fuel for the productions that a production calls, and one step more, is enough for it. -/
theorem enough_fuel {g : Goal} {e : Expr} (N : Nat)
    (h : ∀ n, N ≤ n → ∀ policy, Gives (g.run policy (n + 1)) ts e us) :
    ∃ M, ∀ n, M ≤ n → ∀ policy, Gives (g.run policy n) ts e us := by
  refine ⟨N + 1, fun n hn policy => ?_⟩
  obtain ⟨n, rfl⟩ : ∃ k, n = k + 1 := ⟨n - 1, by omega⟩
  exact h n (by omega) policy

/-- **What the rules derive is done**, with any fuel that is large enough. -/
theorem Reads.run {g : Goal} {e : Expr} (h : Reads g ts e us) :
    ∃ N, ∀ n, N ≤ n → ∀ policy, Gives (g.run policy n) ts e us := by
  induction h with
  | expression _ _ ihoperand ihoperators =>
    obtain ⟨N, hN⟩ := ihoperand
    obtain ⟨M, hM⟩ := ihoperators
    refine enough_fuel (N + M) fun n hn policy => ?_
    rw [Goal.run, Grammar.expression]
    exact (hN n (by omega) policy).bind (hM n (by omega) policy)
  | @stop least ts left hrefuses =>
    refine enough_fuel 0 fun n hn policy r hr => ?_
    obtain ⟨s, hs, hat⟩ := hrefuses.gives policy r hr
    exact ⟨s, operators_of_none n left hr.2 hs, hat⟩
  | @binary least ts us vs ws ahead left right e hoffers hplain hright _ ihright ihoperators =>
    obtain ⟨N, hN⟩ := ihright
    obtain ⟨M, hM⟩ := ihoperators
    refine enough_fuel (N + M) fun n hn policy r hr => ?_
    obtain ⟨s, hs, hat⟩ := hoffers.gives policy r hr
    rw [Goal.run, operators_of_some n left hr.2 hs, if_neg hplain]
    exact ((gives_advance policy _ hright.ne_nil).bind ((hN n (by omega) policy).bind
      ((gives_leave _).bind (hM n (by omega) policy)))) _ hat
  | @comparison least ts us vs ws ahead left joined e hoffers hcomparison hchain _ ihchain
      ihoperators =>
    obtain ⟨N, hN⟩ := ihchain
    obtain ⟨M, hM⟩ := ihoperators
    refine enough_fuel (N + M) fun n hn policy r hr => ?_
    obtain ⟨s, hs, hat⟩ := hoffers.gives policy r hr
    rw [Goal.run, operators_of_some n left hr.2 hs, if_pos hcomparison]
    exact ((gives_advance policy _ hchain.ne_nil).bind ((hN n (by omega) policy).bind
      ((gives_leave _).bind (hM n (by omega) policy)))) _ hat
  | @prefixed t power us vs ws inner e hpower hinner _ ihinner ihfields =>
    obtain ⟨N, hN⟩ := ihinner
    obtain ⟨M, hM⟩ := ihfields
    refine enough_fuel (N + M) fun n hn policy r hr => ?_
    obtain rfl := hr.current
    rw [Goal.run, operand_of_prefixed _ _ hpower]
    exact ((gives_advance policy _ hinner.ne_nil).bind ((hN n (by omega) policy).bind
      ((hM n (by omega) policy).bind ((gives_leave _).bind (gives_pure e _))))) _ hr
  | @bracketed t close us vs ws inner e hopen hinner hclose hfields ihinner ihfields =>
    obtain ⟨N, hN⟩ := ihinner
    obtain ⟨M, hM⟩ := ihfields
    refine enough_fuel (N + M) fun n hn policy r hr => ?_
    obtain rfl := hr.current
    have hcloseBracket : Gives (closeBracket policy) (close :: vs) () vs := by
      refine (gives_current _ _).bind ?_
      rw [if_pos hclose]
      exact gives_advance policy _ hfields.ne_nil
    rw [Goal.run, operand_of_bracket _ _ (prefixPower?_of_bracket hopen) hopen]
    exact ((gives_advance policy _ hinner.ne_nil).bind ((hN n (by omega) policy).bind
      (hcloseBracket.bind ((gives_leave _).bind (hM n (by omega) policy))))) _ hr
  | @constant t u us e hkind hconstant =>
    refine enough_fuel 0 fun n hn policy r hr => ?_
    obtain rfl := hr.current
    rw [Goal.run, operand_of_plain _ _ (kind_ne hkind) (kind_ne hkind),
      secondary_of_identifier _ _ hkind, behindName_eq, hconstant]
    exact ((gives_advance policy _ (List.cons_ne_nil _ _)).bind (gives_pure e _)) _ hr
  | @name t us vs e hkind hconstant hfields ihfields =>
    obtain ⟨N, hN⟩ := ihfields
    refine enough_fuel N fun n hn policy r hr => ?_
    obtain rfl := hr.current
    rw [Goal.run, operand_of_plain _ _ (kind_ne hkind) (kind_ne hkind),
      secondary_of_identifier _ _ hkind, behindName_eq, hconstant]
    exact ((gives_advance policy _ hfields.ne_nil).bind (hN n (by omega) policy).withFields) _ hr
  | @number t u us value hkind hvalue =>
    refine enough_fuel 0 fun n hn policy r hr => ?_
    obtain rfl := hr.current
    rw [Goal.run, operand_of_plain _ _ (kind_ne hkind) (kind_ne hkind),
      secondary_of_number _ _ hkind, behindNumber, hvalue]
    exact ((gives_advance policy _ (List.cons_ne_nil _ _)).bind
      (gives_pure (Expr.integer _ value) _)) _ hr
  | @string t us vs e hkind hfields ihfields =>
    obtain ⟨N, hN⟩ := ihfields
    refine enough_fuel N fun n hn policy r hr => ?_
    obtain rfl := hr.current
    rw [Goal.run, operand_of_plain _ _ (kind_ne hkind) (kind_ne hkind),
      secondary_of_string _ _ hkind]
    exact ((gives_advance policy _ hfields.ne_nil).bind (hN n (by omega) policy).withFields) _ hr
  | @chainEnd power t next ts us left right before _ hnext ihright =>
    obtain ⟨N, hN⟩ := ihright
    refine enough_fuel N fun n hn policy => ?_
    rw [Goal.run, chain_eq]
    refine (hN n (by omega) policy).bind ((gives_current _ _).bind ((gives_sound _).bind ?_))
    rw [if_neg (by simpa using hnext)]
    exact gives_pure _ _
  | @chainMore power t next ts us vs left right e before _ hnext hchain ihright ihchain =>
    obtain ⟨N, hN⟩ := ihright
    obtain ⟨M, hM⟩ := ihchain
    refine enough_fuel (N + M) fun n hn policy => ?_
    rw [Goal.run, chain_eq]
    refine (hN n (by omega) policy).bind ((gives_current _ _).bind ((gives_sound _).bind ?_))
    rw [if_pos (by simpa using hnext)]
    exact (gives_retarget _ _ _).bind ((gives_advance policy _ hchain.ne_nil).bind
      (hM n (by omega) policy))
  | @field t property us vs value e hdot hproperty hfields ihfields =>
    obtain ⟨N, hN⟩ := ihfields
    refine enough_fuel N fun n hn policy => ?_
    rw [Goal.run, Grammar.fields]
    refine (gives_current _ _).bind ((gives_sound _).bind ?_)
    rw [if_pos (by simpa using hdot)]
    refine (gives_enter _ _).bind ((gives_advance policy _ (List.cons_ne_nil _ _)).bind
      ((gives_current _ _).bind ((gives_advance policy _ hfields.ne_nil).bind ?_)))
    rw [if_neg (by tauto)]
    exact (gives_leave _).bind (hN n (by omega) policy)
  | @noField t us value hdot =>
    refine enough_fuel 0 fun n hn policy => ?_
    rw [Goal.run, Grammar.fields]
    refine (gives_current _ _).bind ((gives_sound _).bind ?_)
    rw [if_neg (by simpa using hdot)]
    exact gives_pure _ _

/-! ### What is done without a fault is derived -/

variable {policy : Policy} {r s : Reader}

theorem not_sound_of_complain {fault : ParseFault} {location : Location}
    (h : complain policy fault location r = .done () s) : s.fault ≠ none := by
  cases policy <;> cases h
  show Option.or _ (some _) ≠ none
  simp

theorem view_of_advance (h : advance policy r = .done () s) (hs : s.fault = none) :
    r.view = r.current :: s.view := by
  rw [advance_eq] at h
  cases hdrop : r.rest.dropWhile Token.isBlank with
  | nil =>
    rw [hdrop] at h
    exact absurd hs (not_sound_of_complain h)
  | cons token rest =>
    rw [hdrop] at h
    cases h
    show r.current :: solid r.rest = r.current :: token :: solid rest
    rw [solid_eq_cons hdrop]

theorem reads_operatorAhead {least : Nat} {ahead : Option Ahead}
    (h : operatorAhead policy least r = .done ahead s) (hs : s.fault = none) :
    match ahead with
    | some ahead => ∃ us, s.view = ahead.token :: us ∧ Offers least r.view ahead us
    | none => s.view = r.view ∧ Refuses least r.view := by
  by_cases hkind : r.current.kind = .operator
  swap
  · rw [operatorAhead_of_kind _ _ hkind] at h
    cases h
    exact ⟨rfl, .kind hkind⟩
  by_cases hnot : r.current.value = "not"
  swap
  · rw [operatorAhead_of_ne_not _ _ hkind hnot] at h
    cases ahead with
    | none =>
      injection h with hahead hs
      subst hs
      exact ⟨rfl, .plain hkind hnot hahead⟩
    | some ahead =>
      injection h with hahead hs
      subst hs
      obtain ⟨htoken, -⟩ := token_of_ofToken? hahead
      exact ⟨solid r.rest, by rw [htoken]; rfl, .plain hkind hnot hahead⟩
  rw [operatorAhead_of_not _ _ hkind hnot] at h
  cases hadvance : advance policy r with
  | broken t =>
    rw [hadvance] at h
    cases h
  | spent =>
    rw [hadvance] at h
    cases h
  | done value t =>
    rw [hadvance] at h
    dsimp only at h
    rw [afterNot] at h
    split at h
    · rename_i hrelation
      cases hofToken : Ahead.ofToken? least t.current (some r.current.location) with
      | none =>
        rw [hofToken] at h
        cases h
        have hview : r.view = r.current :: t.view := view_of_advance hadvance hs
        refine ⟨rfl, ?_⟩
        rw [hview]
        exact .negated hkind hnot hrelation hofToken
      | some found =>
        rw [hofToken] at h
        cases h
        obtain ⟨htoken, -⟩ := token_of_ofToken? hofToken
        rw [view_of_advance hadvance hs]
        exact ⟨solid s.rest, by rw [htoken]; rfl, .negated hkind hnot hrelation hofToken⟩
    · obtain ⟨_, u, hu, h⟩ := bind_eq_done h
      cases h
      exact absurd hs (not_sound_of_complain hu)

/-- The actions that read no fault into a sound reader started from a sound one. -/
theorem sound_of_done {α : Type} {a : Grammar α} {value : α} (ha : Leads a)
    (h : a r = .done value s) (hs : s.fault = none) : r.fault = none :=
  (ha r s (by rw [h]; rfl)).sound hs

theorem leads_run (policy : Policy) (fuel : Nat) (g : Goal) : Leads (g.run policy fuel) := by
  obtain ⟨hexpression, hoperators, hoperand, hchain⟩ :=
    (respects_leads policy).productions (Nat.le_refl fuel)
  cases g with
  | expression least => exact hexpression least
  | operators least left => exact hoperators least left
  | operand => exact hoperand
  | chain power left token before => exact hchain power left token before
  | fields value => exact leads_fields policy fuel value

theorem sound_of_leave {f : Unit → Grammar Expr} {e : Expr} (hf : Leads (f ()))
    (h : (leave >>= f) r = .done e s) (hs : s.fault = none) : r.fault = none :=
  sound_of_done (leads_bind leads_leave fun _ => hf) h hs

/-- With this fuel, what is done without a fault is derived. -/
def ReadsSound (policy : Policy) (fuel : Nat) : Prop :=
  ∀ {g : Goal} {e : Expr} {r s : Reader}, g.run policy fuel r = .done e s → s.fault = none →
    Reads g r.view e s.view

variable {fuel : Nat}

theorem reads_operators (ih : ReadsSound policy fuel) {least : Nat} {left e : Expr}
    (h : operators policy (fuel + 1) least left r = .done e s) (hs : s.fault = none) :
    Reads (.operators least left) r.view e s.view := by
  have hsound : r.fault = none :=
    sound_of_done (leads_run policy (fuel + 1) (.operators least left)) h hs
  rw [operators, sound_bind, if_pos (by simpa using hsound)] at h
  obtain ⟨ahead, t, ht, h⟩ := bind_eq_done h
  cases ahead with
  | none =>
    cases h
    obtain ⟨hview, hrefuses⟩ := reads_operatorAhead ht hs
    rw [hview]
    exact .stop hrefuses
  | some ahead =>
    dsimp only at h
    rw [enter_bind] at h
    obtain ⟨_, u, hu, h⟩ := bind_eq_done h
    split at h
    · rename_i hcomparison
      obtain ⟨joined, v, hv, h⟩ := bind_eq_done h
      have hvsound := sound_of_leave (leads_run policy fuel (.operators _ _)) h hs
      rw [leave_bind] at h
      have husound : u.fault = none := sound_of_done (leads_run policy fuel (.chain _ _ _ _)) hv hvsound
      have htsound : (t.withFrames _).fault = none := sound_of_done (leads_advance policy) hu husound
      obtain ⟨us, hus, hoffers⟩ := reads_operatorAhead ht htsound
      have hview := view_of_advance hu husound
      rw [Reader.view_withFrames, hus] at hview
      injection hview with _ hview
      subst hview
      have hoperators := ih (g := .operators _ _) h hs
      exact .comparison hoffers hcomparison (ih (g := .chain _ _ _ _) hv hvsound) hoperators
    · rename_i hplain
      obtain ⟨right, v, hv, h⟩ := bind_eq_done h
      have hvsound := sound_of_leave (leads_run policy fuel (.operators _ _)) h hs
      rw [leave_bind] at h
      have husound : u.fault = none := sound_of_done (leads_run policy fuel (.expression _)) hv hvsound
      have htsound : (t.withFrames _).fault = none := sound_of_done (leads_advance policy) hu husound
      obtain ⟨us, hus, hoffers⟩ := reads_operatorAhead ht htsound
      have hview := view_of_advance hu husound
      rw [Reader.view_withFrames, hus] at hview
      injection hview with _ hview
      subst hview
      have hoperators := ih (g := .operators _ _) h hs
      exact .binary hoffers hplain (ih (g := .expression _) hv hvsound) hoperators

theorem reads_fields (ih : ReadsSound policy fuel) {value e : Expr}
    (h : fields policy (fuel + 1) value r = .done e s) (hs : s.fault = none) :
    Reads (.fields value) r.view e s.view := by
  rw [fields, current_bind, sound_bind] at h
  split at h
  · rename_i hdot
    rw [Bool.and_eq_true] at hdot
    rw [enter_bind] at h
    obtain ⟨_, t, ht, h⟩ := bind_eq_done h
    rw [current_bind] at h
    obtain ⟨_, u, hu, h⟩ := bind_eq_done h
    dsimp only at h
    have hproperty : t.current.kind = .identifier ∨ t.current.kind = .operator := by
      by_contra hnone
      rw [if_pos (by tauto)] at h
      obtain ⟨_, v, hv, h⟩ := bind_eq_done h
      have hvsound := sound_of_leave (leads_run policy fuel (.fields _)) h hs
      exact not_sound_of_complain hv hvsound
    rw [if_neg (by tauto)] at h
    have husound := sound_of_leave (leads_run policy fuel (.fields _)) h hs
    have htsound : t.fault = none := sound_of_done (leads_advance policy) hu husound
    have hview := view_of_advance ht htsound
    rw [Reader.view_withFrames, view_of_advance hu husound] at hview
    rw [leave_bind] at h
    have hfields := ih (g := .fields _) h hs
    rw [hview]
    exact .field hdot.2 hproperty hfields
  · rename_i hdot
    cases h
    refine .noField ?_
    rw [Bool.and_eq_true] at hdot
    exact fun h => hdot ⟨by simpa using hs, h⟩

/-- A name or a string, with the fields behind it. -/
theorem reads_withFields (ih : ReadsSound policy fuel) {value e : Expr}
    (h : (advance policy >>= fun _ => secondary.withFields policy fuel value) r = .done e s)
    (hs : s.fault = none) : ∃ us, r.view = r.current :: us ∧ Reads (.fields value) us e s.view := by
  obtain ⟨_, t, ht, h⟩ := bind_eq_done h
  rw [withFields_apply] at h
  obtain ⟨value, u, hu, h⟩ := bind_eq_done h
  cases h
  have hfields := ih (g := .fields _) hu hs
  have htsound := sound_of_done (leads_run policy fuel (.fields _)) hu hs
  exact ⟨t.view, view_of_advance ht htsound, hfields⟩

theorem reads_secondary (ih : ReadsSound policy fuel) {e : Expr}
    (h : secondary policy fuel r = .done e s) (hs : s.fault = none) :
    Reads .operand r.view e s.view := by
  by_cases hname : r.current.kind = .identifier
  · rw [secondary_of_identifier _ _ hname, behindName_eq] at h
    cases hconstant : constant? r.current with
    | some value =>
      rw [hconstant] at h
      obtain ⟨_, t, ht, h⟩ := bind_eq_done h
      cases h
      rw [view_of_advance ht hs]
      exact .constant hname hconstant
    | none =>
      rw [hconstant] at h
      obtain ⟨us, hview, hfields⟩ := reads_withFields ih h hs
      rw [hview]
      exact .name hname hconstant hfields
  by_cases hnumber : r.current.kind = .number
  · rw [secondary_of_number _ _ hnumber] at h
    obtain ⟨_, t, ht, h⟩ := bind_eq_done h
    rw [behindNumber] at h
    cases hvalue : Numeral.readInteger? r.current.value with
    | some value =>
      rw [hvalue] at h
      cases h
      rw [view_of_advance ht hs]
      exact .number hnumber hvalue
    | none =>
      rw [hvalue] at h
      obtain ⟨_, u, hu, h⟩ := bind_eq_done h
      cases h
      exact absurd hs (not_sound_of_complain hu)
  by_cases hstring : r.current.kind = .string
  · rw [secondary_of_string _ _ hstring] at h
    obtain ⟨us, hview, hfields⟩ := reads_withFields ih h hs
    rw [hview]
    exact .string hstring hfields
  · rw [secondary_of_other _ _ hname hnumber hstring] at h
    cases h

theorem reads_operand (ih : ReadsSound policy fuel) {e : Expr}
    (h : operand policy (fuel + 1) r = .done e s) (hs : s.fault = none) :
    Reads .operand r.view e s.view := by
  cases hsign : r.current.prefixPower? with
  | some power =>
    rw [operand_of_prefixed _ _ hsign] at h
    obtain ⟨_, t, ht, h⟩ := bind_eq_done h
    obtain ⟨inner, u, hu, h⟩ := bind_eq_done h
    obtain ⟨value, v, hv, h⟩ := bind_eq_done h
    cases h
    have hvsound : v.fault = none := hs
    have husound : u.fault = none := sound_of_done (leads_run policy fuel (.fields _)) hv hvsound
    have htsound : t.fault = none := sound_of_done (leads_run policy fuel (.expression _)) hu husound
    have hview := view_of_advance ht htsound
    rw [Reader.view_withFrames] at hview
    have hfields := ih (g := .fields _) hv hvsound
    rw [hview]
    exact .prefixed hsign (ih (g := .expression _) hu husound) hfields
  | none =>
    by_cases hbracket : r.current.is .bracket "("
    · rw [operand_of_bracket _ _ hsign hbracket] at h
      obtain ⟨_, t, ht, h⟩ := bind_eq_done h
      obtain ⟨inner, u, hu, h⟩ := bind_eq_done h
      obtain ⟨_, v, hv, h⟩ := bind_eq_done h
      have hvsound := sound_of_leave (leads_run policy fuel (.fields _)) h hs
      rw [leave_bind] at h
      have husound : u.fault = none := sound_of_done (leads_closeBracket policy) hv hvsound
      have htsound : t.fault = none := sound_of_done (leads_run policy fuel (.expression _)) hu husound
      rw [closeBracket, current_bind] at hv
      split at hv
      · rename_i hclose
        have hview := view_of_advance ht htsound
        rw [Reader.view_withFrames] at hview
        have hinner := ih (g := .expression 0) hu husound
        rw [view_of_advance hv hvsound] at hinner
        have hfields := ih (g := .fields _) h hs
        rw [hview]
        exact .bracketed hbracket hinner hclose hfields
      · exact absurd hvsound (not_sound_of_complain hv)
    · rw [operand_of_secondary _ _ hsign hbracket] at h
      exact reads_secondary ih h hs

theorem of_retarget {left : Expr} {operator : String}
    (h : retarget left operator r = .done () s) : s.current = r.current ∧ s.view = r.view := by
  rw [retarget] at h
  split at h <;> cases h <;> exact ⟨rfl, rfl⟩

theorem reads_chain (ih : ReadsSound policy fuel) {power : Nat} {left e : Expr} {token : Token}
    {before : Option Expr} (h : chain policy (fuel + 1) power left token before r = .done e s)
    (hs : s.fault = none) : Reads (.chain power left token before) r.view e s.view := by
  rw [chain_eq] at h
  obtain ⟨right, t, ht, h⟩ := bind_eq_done h
  rw [current_bind, sound_bind] at h
  split at h
  · rename_i hnext
    rw [Bool.and_eq_true] at hnext
    obtain ⟨_, u, hu, h⟩ := bind_eq_done h
    obtain ⟨_, v, hv, h⟩ := bind_eq_done h
    have hvsound : v.fault = none := sound_of_done (leads_run policy fuel (.chain _ _ _ _)) h hs
    have husound : u.fault = none := sound_of_done (leads_advance policy) hv hvsound
    have htsound : t.fault = none :=
      sound_of_done ((respects_leads policy).retarget right t.current.value) hu husound
    have hview : t.view = t.current :: v.view := by
      obtain ⟨hcurrent, hrest⟩ := of_retarget hu
      rw [← hrest, view_of_advance hv hvsound, hcurrent]
    have hright := ih (g := .expression _) ht htsound
    rw [hview] at hright
    exact .chainMore hright hnext.1 (ih (g := .chain _ _ _ _) h hs)
  · rename_i hnext
    cases h
    refine .chainEnd (ih (g := .expression _) ht hs) ?_
    rw [Bool.and_eq_true] at hnext
    exact fun h => hnext ⟨h, by simpa using hs⟩

/-- **What is done without a fault is derived.** -/
theorem reads_of_run (policy : Policy) (fuel : Nat) : ReadsSound policy fuel := by
  induction fuel with
  | zero =>
    intro g e r s h
    cases g <;> simp only [Goal.run, expression, operators, operand, chain, fields] at h <;> cases h
  | succ fuel ih =>
    intro g e r s h hs
    cases g with
    | expression least =>
      rw [Goal.run, expression] at h
      obtain ⟨left, t, ht, h⟩ := bind_eq_done h
      have htsound : t.fault = none := sound_of_done (leads_run policy fuel (.operators _ _)) h hs
      exact .expression (ih (g := .operand) ht htsound) (ih (g := .operators _ _) h hs)
    | operators least left => exact reads_operators ih h hs
    | operand => exact reads_operand ih h hs
    | chain power left token before => exact reads_chain ih h hs
    | fields value => exact reads_fields ih h hs

end Grammar

/-! ### Whole texts -/

open Grammar

/-- Whether a text may end at this token. -/
def Token.EndsText (token : Token) : Prop := token.kind = .eof ∨ token.kind = .caret

/-- The first token that is not blank is at hand when reading starts. -/
theorem solid_eq_view {tokens rest : List Token} {token : Token}
    (h : tokens.dropWhile Token.isBlank = token :: rest) :
    solid tokens = Reader.view { current := token, rest } :=
  solid_eq_cons h

/-- The whole text is read where its expression is and an end is behind it. -/
theorem gives_text {policy : Policy} {fuel : Nat} {ts us : List Token} {e : Expr} {t : Token}
    (h : Gives (expression policy fuel 0) ts e (t :: us)) (ht : t.EndsText) :
    Gives (text policy fuel) ts e (t :: us) := by
  refine h.bind ((gives_current _ _).bind ?_)
  rw [if_neg (by rw [Token.EndsText] at ht; tauto)]
  exact gives_pure _ _

/-- **A derived text is read** to the derived tree. -/
theorem parse_of_reads {tokens us : List Token} {e : Expr} {t : Token}
    (h : Reads (.expression 0) (solid tokens) e (t :: us)) (ht : t.EndsText) :
    parse tokens = ⟨some e, none⟩ := by
  cases hdrop : tokens.dropWhile Token.isBlank with
  | nil => exact absurd (solid_eq_nil hdrop) h.ne_nil
  | cons token rest =>
    obtain ⟨N, hN⟩ := h.run
    have htext := gives_text (hN (N + parserFuel tokens.length) (Nat.le_add_right _ _) .collect) ht
    obtain ⟨s, hs, hat⟩ := htext { current := token, rest } ⟨(solid_eq_view hdrop).symm, rfl⟩
    have hrun : runParser .collect tokens = .done e s := by
      rw [← readText_eq_runParser .collect (Nat.le_add_left _ N), readText, hdrop]
      exact hs
    rw [parse, hrun]
    exact congrArg (Parse.mk (some e)) hat.2

/-- **A text that is read without a fault is derived.** -/
theorem reads_of_parse {tokens : List Token} (hterminates : Terminates tokens)
    (h : (parse tokens).fault = none) :
    ∃ e t us, (parse tokens).tree = some e ∧ Reads (.expression 0) (solid tokens) e (t :: us) ∧
      t.EndsText := by
  rcases sound_or_faulty hterminates with ⟨e, s, hrun, hs, hparse⟩ | ⟨s, f, -, -, hparse⟩
  swap
  · rw [hparse] at h
    cases h
  rw [runParser_eq_readText, readText] at hrun
  cases hdrop : tokens.dropWhile Token.isBlank with
  | nil =>
    rw [hdrop] at hrun
    cases hrun
  | cons token rest =>
    rw [hdrop] at hrun
    obtain ⟨value, t, ht, hrun⟩ := bind_eq_done hrun
    rw [current_bind] at hrun
    split at hrun
    · obtain ⟨_, u, hu, hrun⟩ := bind_eq_done hrun
      cases hrun
      exact absurd hs (not_sound_of_complain hu)
    · rename_i hend
      cases hrun
      have hreads := reads_of_run .abort (parserFuel tokens.length) (g := .expression 0) ht hs
      rw [← solid_eq_view hdrop] at hreads
      refine ⟨e, s.current, solid s.rest, congrArg Parse.tree hparse, hreads, ?_⟩
      rw [Token.EndsText]
      tauto

end FilterLang
