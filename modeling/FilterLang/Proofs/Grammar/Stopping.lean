import FilterLang.Proofs.Grammar.Frames
import FilterLang.Proofs.Grammar.Lookahead

/-!
# Where a strict reading stops

A strict reading stops at the first token that cannot stand where it does.  Like `Reads` for what is
read, `Stops` says so of lists of tokens, without blanks, faults and fuel.  It is one step after the
other into the productions that are open at that token.

* `Calls` — a production calls another one, with rules for every place where one does.
* `Dead` — a production cannot go on at a token, with rules for every place where one complains.
* `Stops` — calls that end where a production cannot go on, and the productions that are open there.
* `Breaks` — an action breaks off with a fault at a token, and leaves these productions open.
* `Calls.breaks` — if the called production breaks off, so does the calling one.
* `Stops.breaks` — what the rules derive is what the actions do.
-/

namespace FilterLang

namespace Grammar

/-! ### The relation -/

/-- One production calls another one.  Besides the productions that are open already, `opened` are
then open.  The production of a chain is opened by the operators in front of it. -/
inductive Calls : Goal → List Token → List Frame → Goal → List Token → Prop where
  | operand {least : Nat} {ts : List Token} : Calls (.expression least) ts [] .operand ts
  | operators {least : Nat} {ts us : List Token} {left : Expr} (hleft : Reads .operand ts left us) :
      Calls (.expression least) ts [] (.operators least left) us
  | right {least : Nat} {ts us : List Token} {ahead : Ahead} {left : Expr}
      (hoffers : Offers least ts ahead us) (hplain : ¬ Operator.isComparison ahead.token.value) :
      Calls (.operators least left) ts [.binary left ahead.token.value ahead.negation.isSome]
        (.expression (ahead.power + 1)) us
  | joined {least : Nat} {ts us vs : List Token} {ahead : Ahead} {left right : Expr}
      (hoffers : Offers least ts ahead us) (hplain : ¬ Operator.isComparison ahead.token.value)
      (hright : Reads (.expression (ahead.power + 1)) us right vs) :
      Calls (.operators least left) ts [] (.operators least (ahead.join left right)) vs
  | chain {least : Nat} {ts us : List Token} {ahead : Ahead} {left : Expr}
      (hoffers : Offers least ts ahead us) (hcomparison : Operator.isComparison ahead.token.value) :
      Calls (.operators least left) ts [] (.chain ahead.power left ahead.token none) us
  | chained {least : Nat} {ts us vs : List Token} {ahead : Ahead} {left joined : Expr}
      (hoffers : Offers least ts ahead us) (hcomparison : Operator.isComparison ahead.token.value)
      (hchain : Reads (.chain ahead.power left ahead.token none) us joined vs) :
      Calls (.operators least left) ts [] (.operators least joined) vs
  | signed {t : Token} {power : Nat} {us : List Token} (hpower : t.prefixPower? = some power) :
      Calls .operand (t :: us) [.unary t.value] (.expression power) us
  | prefixed {t : Token} {power : Nat} {us vs : List Token} {inner : Expr}
      (hpower : t.prefixPower? = some power) (hinner : Reads (.expression power) us inner vs) :
      Calls .operand (t :: us) [.unary t.value] (.fields (.unary (.at t.location) t.value inner)) vs
  | bracket {t : Token} {us : List Token} (hopen : t.is .bracket "(") :
      Calls .operand (t :: us) [.brackets] (.expression 0) us
  | bracketed {t close : Token} {us vs : List Token} {inner : Expr} (hopen : t.is .bracket "(")
      (hinner : Reads (.expression 0) us inner (close :: vs)) (hclose : close.is .bracket ")") :
      Calls .operand (t :: us) [] (.fields inner) vs
  | name {t : Token} {us : List Token} (hkind : t.kind = .identifier)
      (hconstant : constant? t = none) :
      Calls .operand (t :: us) [.secondary] (.fields (.identifier (.at t.location) t.value)) us
  | string {t : Token} {us : List Token} (hkind : t.kind = .string) :
      Calls .operand (t :: us) [.secondary] (.fields (.string (.at t.location) t.value)) us
  | comparand {power : Nat} {left : Expr} {t : Token} {before : Option Expr} {ts : List Token} :
      Calls (.chain power left t before) ts [.binary left t.value false]
        (.expression (power + 1)) ts
  | comparison {power : Nat} {left right : Expr} {t next : Token} {before : Option Expr}
      {ts us : List Token} (hright : Reads (.expression (power + 1)) ts right (next :: us))
      (hnext : isComparison next) :
      Calls (.chain power left t before) ts []
        (.chain power right next (some (conjoin before t left right))) us
  | field {t property : Token} {us : List Token} {value : Expr} (hdot : t.is .operator ".")
      (hproperty : property.kind = .identifier ∨ property.kind = .operator) :
      Calls (.fields value) (t :: property :: us) [] (.fields (.member (.at property.location) value
        (.identifier (.at property.location) property.value) false)) us

/-- Whether an operand starts with the token. -/
def StartsOperand (t : Token) : Prop :=
  t.prefixPower?.isSome ∨ t.is .bracket "(" ∨ t.kind = .identifier ∨ t.kind = .number ∨
    t.kind = .string

/-- A production cannot go on at the head of the last list. -/
inductive Dead : Goal → List Token → List Frame → List Token → Prop where
  | operand {t : Token} {us : List Token} (hstart : ¬ StartsOperand t) :
      Dead .operand (t :: us) [] (t :: us)
  | number {t : Token} {us : List Token} (hkind : t.kind = .number)
      (hvalue : Numeral.readInteger? t.value = none) : Dead .operand (t :: us) [] (t :: us)
  | unclosed {t v : Token} {us vs : List Token} {inner : Expr} (hopen : t.is .bracket "(")
      (hinner : Reads (.expression 0) us inner (v :: vs)) (hclose : ¬ v.is .bracket ")") :
      Dead .operand (t :: us) [.brackets] (v :: vs)
  | relation {least : Nat} {left : Expr} {t u : Token} {us : List Token} (hnot : IsNot t)
      (hrelation : isNegatable u = false) : Dead (.operators least left) (t :: u :: us) [] (u :: us)
  | property {value : Expr} {t u : Token} {us : List Token} (hdot : t.is .operator ".")
      (hproperty : ¬ (u.kind = .identifier ∨ u.kind = .operator)) :
      Dead (.fields value) (t :: u :: us) [.binary value "." false] (u :: us)

/-- **A production stops** at the head of the last list.  Besides the productions that were open
when it started, `frames` are open then. -/
inductive Stops : Goal → List Token → List Frame → List Token → Prop where
  | dead {g : Goal} {ts us : List Token} {frames : List Frame} (h : Dead g ts frames us) :
      Stops g ts frames us
  | call {g g' : Goal} {ts us vs : List Token} {opened frames : List Frame}
      (hcall : Calls g ts opened g' us) (hstops : Stops g' us frames vs) :
      Stops g ts (frames ++ opened) vs

/-! ### Actions and the open productions -/

/-- The reader has these tokens in view, no fault, these productions open, and its last token is not
blank. -/
structure Clear (r : Reader) (ts : List Token) (frames : List Frame) : Prop where
  inView : At r ts
  last : r.last.isBlank = false
  frames : r.frames = frames

/-- With these tokens in view and these productions open, the action gives the value and leaves those
tokens and those productions. -/
def Gets {α : Type} (a : Grammar α) (ts : List Token) (fs : List Frame) (value : α) (us : List Token)
    (gs : List Frame) : Prop :=
  ∀ r, Clear r ts fs → ∃ s, a r = .done value s ∧ Clear s us gs

/-- With these tokens in view and these productions open, the action breaks off with a fault at the
token `t` and leaves those productions open. -/
def Breaks {α : Type} (a : Grammar α) (ts : List Token) (fs : List Frame) (t : Token)
    (gs : List Frame) : Prop :=
  ∀ r, Clear r ts fs → ∃ s f, a r = .broken s ∧ s.fault = some f ∧ f.location = t.location ∧
    s.frames = gs

variable {α β : Type} {ts us vs : List Token} {fs gs hs : List Frame} {t : Token}

/-- The reader with one more production open. -/
theorem Clear.enter {r : Reader} (h : Clear r ts fs) (frame : Frame) :
    Clear (r.withFrames (frame :: r.frames)) ts (frame :: fs) :=
  ⟨h.inView, h.last, congrArg (frame :: ·) h.frames⟩

theorem Gets.breaks {a : Grammar α} {f : α → Grammar β} {v : α} (ha : Gets a ts fs v us gs)
    (hf : Breaks (f v) us gs t hs) : Breaks (a >>= f) ts fs t hs := by
  intro r hr
  obtain ⟨s, has, hs⟩ := ha r hr
  obtain ⟨u, fault, hu, hrest⟩ := hf s hs
  exact ⟨u, fault, (bind_done has f).trans hu, hrest⟩

theorem Breaks.bind {a : Grammar α} (ha : Breaks a ts fs t gs) (f : α → Grammar β) :
    Breaks (a >>= f) ts fs t gs := by
  intro r hr
  obtain ⟨s, fault, has, hrest⟩ := ha r hr
  exact ⟨s, fault, bind_broken has f, hrest⟩

/-- What is done with tokens in view is done with the productions that it restores. -/
theorem Gives.gets {a : Grammar α} {v : α} (h : Gives a ts v us) (hleads : Leads a)
    (hframes : ∀ {r s}, a r = .done v s → r.frames = fs → s.frames = gs) :
    Gets a ts fs v us gs := by
  intro r hr
  obtain ⟨s, hs, hat⟩ := h r hr.inView
  have honward : r.Onward s := hleads r s (by rw [hs]; rfl)
  exact ⟨s, hs, hat, by rw [honward.last, hr.last], hframes hs hr.frames⟩

theorem gets_current (u : Token) (us : List Token) (fs : List Frame) :
    Gets current (u :: us) fs u (u :: us) fs :=
  (gives_current u us).gets leads_current fun h hr => by
    cases h
    exact hr

theorem gets_sound (ts : List Token) (fs : List Frame) : Gets sound ts fs true ts fs :=
  (gives_sound ts).gets (respects_leads .abort).sound fun h hr => by
    injection h with _ h
    rw [← h, hr]

theorem gets_enter (frame : Frame) (ts : List Token) (fs : List Frame) :
    Gets (enter frame) ts fs () ts (frame :: fs) :=
  (gives_enter frame ts).gets (leads_enter frame) fun h hr => by
    cases h
    exact congrArg (frame :: ·) hr

theorem gets_leave (frame : Frame) (ts : List Token) (fs : List Frame) :
    Gets leave ts (frame :: fs) () ts fs :=
  (gives_leave ts).gets leads_leave fun h hr => by
    cases h
    exact congrArg List.tail hr

theorem gets_retarget (left right : Expr) (operator operator' : String) (negate : Bool)
    (ts : List Token) (fs : List Frame) :
    Gets (retarget right operator') ts (.binary left operator negate :: fs) ()
      ts (.binary right operator' negate :: fs) := by
  refine (gives_retarget right operator' ts).gets ((respects_leads .abort).retarget _ _) ?_
  intro r s h hr
  rw [retarget, hr] at h
  cases h
  rfl

theorem gets_advance (u : Token) (hts : ts ≠ []) (fs : List Frame) :
    Gets (advance .abort) (u :: ts) fs () ts fs :=
  (gives_advance .abort u hts).gets (leads_advance .abort) fun h hr => (frames_advance h).trans hr

/-- An action that notes a fault at a token. -/
theorem breaks_note {a : Grammar α} (fault : ParseFault)
    (h : ∀ r, a r = .broken (note fault t.location r)) : Breaks a ts fs t fs := by
  intro r hr
  exact ⟨_, _, h r, fault_note hr.inView.2 _ _, rfl, hr.frames⟩

theorem breaks_complain (fault : ParseFault) (t : Token) (ts : List Token) (fs : List Frame) :
    Breaks (complain .abort fault t.location) ts fs t fs :=
  breaks_note fault fun _ => rfl

/-- With one token in view, moving on breaks off at it. -/
theorem breaks_advance (u : Token) (fs : List Frame) : Breaks (advance .abort) [u] fs u fs := by
  intro r hr
  obtain ⟨hview, hfault⟩ := hr.inView
  have hcurrent : r.current = u := hr.inView.current
  have hsolid : solid r.rest = [] := by
    rw [Reader.view, List.cons_eq_cons] at hview
    exact hview.2
  -- the tokens behind it are all blank, and the last token is not
  have hrest : r.rest = [] := by
    rcases r.rest.eq_nil_or_concat with hnil | ⟨front, last, hlast⟩
    · exact hnil
    · have hblank : last.isBlank = false := by
        have h := hr.last
        rw [Reader.last, hlast, List.concat_eq_append, List.getLast?_concat] at h
        exact h
      rw [hlast, List.concat_eq_append, solid, List.filter_append,
        List.filter_cons_of_pos (by rw [hblank]; rfl)] at hsolid
      simp at hsolid
  have hlast : r.last = u := by
    rw [Reader.last, hrest]
    exact hcurrent
  refine ⟨note .unexpectedEnd u.location (r.moveTo u []), _, ?_, fault_note hfault _ _, rfl,
    hr.frames⟩
  rw [advance_eq, hrest, hlast]
  rfl

/-! ### The actions stop where the rules say -/

/-- The open productions where a production starts.  The one of a chain waits for the right side of
its comparison. -/
def Goal.start (base : List Frame) : Goal → List Frame
  | chain _ left token _ => .binary left token.value false :: base
  | _ => base

/-- With enough fuel, the production breaks off at the token, with these productions open besides
those around it. -/
def Goal.Breaks (g : Goal) (ts : List Token) (t : Token) (frames : List Frame) : Prop :=
  ∃ N, ∀ n, N ≤ n → ∀ base, Grammar.Breaks (g.run .abort n) ts (g.start base) t (frames ++ base)

/-- Fuel for the productions that a production calls, and one step more, is enough for it. -/
theorem breaks_of_fuel {g : Goal} {frames : List Frame} (N : Nat)
    (h : ∀ n, N ≤ n → ∀ base,
      Breaks (g.run .abort (n + 1)) ts (g.start base) t (frames ++ base)) :
    g.Breaks ts t frames := by
  refine ⟨N + 1, fun n hn base => ?_⟩
  obtain ⟨n, rfl⟩ : ∃ k, n = k + 1 := ⟨n - 1, by omega⟩
  exact h n (by omega) base

/-- What a production reads is done with the same productions open, but for the one of a chain. -/
theorem Reads.gets {g : Goal} {e : Expr} (h : Reads g ts e us) :
    ∃ N, ∀ n, N ≤ n → ∀ r fs, Clear r ts fs →
      ∃ s gs, g.run .abort n r = .done e s ∧ Clear s us gs ∧ g.Restores fs gs := by
  obtain ⟨N, hN⟩ := h.run
  refine ⟨N, fun n hn r fs hr => ?_⟩
  obtain ⟨s, hs, hat⟩ := hN n hn .abort r hr.inView
  have honward : r.Onward s := leads_run .abort n g r s (by rw [hs]; rfl)
  have hrestores := restores_of_run .abort n hs
  rw [hr.frames] at hrestores
  exact ⟨s, s.frames, hs, ⟨hat, by rw [honward.last, hr.last], rfl⟩, hrestores⟩

theorem Reads.gets_same {g : Goal} {e : Expr} (h : Reads g ts e us)
    (hg : ∀ {fs gs}, g.Restores fs gs → gs = fs) :
    ∃ N, ∀ n, N ≤ n → ∀ fs, Gets (g.run .abort n) ts fs e us fs := by
  obtain ⟨N, hN⟩ := h.gets
  refine ⟨N, fun n hn fs r hr => ?_⟩
  obtain ⟨s, gs, hs, hclear, hrestores⟩ := hN n hn r fs hr
  rw [hg hrestores] at hclear
  exact ⟨s, hs, hclear⟩

/-- A chain is read inside the production of its operator, which is left behind it. -/
theorem breaks_behind_chain {power : Nat} {left joined : Expr} {token : Token}
    {before : Option Expr} (h : Reads (.chain power left token before) ts joined us) :
    ∃ N, ∀ n, N ≤ n → ∀ (frame : Frame) {fs gs : List Frame} {t : Token} {f : Expr → Grammar Expr},
      Breaks (f joined) us fs t gs →
      Breaks (chain .abort n power left token before >>= fun joined => leave >>= fun _ => f joined)
        ts (frame :: fs) t gs := by
  obtain ⟨N, hN⟩ := h.gets
  refine ⟨N, fun n hn frame fs gs t f hf r hr => ?_⟩
  obtain ⟨s, hs, hdone, hclear, hrestores⟩ := hN n hn r _ hr
  rw [Goal.run] at hdone
  rw [bind_done hdone, leave_bind]
  refine hf _ ⟨hclear.inView, hclear.last, ?_⟩
  show s.frames.tail = fs
  rw [hclear.frames, hrestores.tail_eq]
  rfl

theorem Offers.ne_nil {least : Nat} {ahead : Ahead} (h : Offers least ts ahead us) : ts ≠ [] := by
  cases h <;> nofun

/-- A comparison has no `not` in front of it. -/
theorem Offers.negation_eq_none {least : Nat} {ahead : Ahead} (h : Offers least ts ahead us)
    (hcomparison : Operator.isComparison ahead.token.value) : ahead.negation = none := by
  cases h with
  | plain _ _ hahead => exact (token_of_ofToken? hahead).2.1
  | @negated t relation us ahead _ _ hrelation hahead =>
    rw [(token_of_ofToken? hahead).1] at hcomparison
    exact absurd hcomparison (not_isComparison_of_isNegatable hrelation)

/-- The operators behind a left side, where one of them is ahead. -/
theorem gets_operatorAhead {least : Nat} {ahead : Ahead} (h : Offers least ts ahead us)
    (fs : List Frame) :
    Gets (operatorAhead .abort least) ts fs (some ahead) (ahead.token :: us) fs :=
  (h.gives .abort).gets (leads_operatorAhead .abort least) fun hdone hr =>
    (frames_operatorAhead hdone).trans hr

/-- Where an operator is ahead, the operators behind a left side break off if what they do behind
that operator does. -/
theorem breaks_operators {least n : Nat} {ahead : Ahead} {left : Expr}
    (hoffers : Offers least ts ahead us) (hus : us ≠ [])
    (h : Breaks (if Operator.isComparison ahead.token.value then
        Grammar.chain .abort n ahead.power left ahead.token none >>= fun joined => leave >>= fun _ =>
          Grammar.operators .abort n least joined
      else
        Grammar.expression .abort n (ahead.power + 1) >>= fun right => leave >>= fun _ =>
          Grammar.operators .abort n least (ahead.join left right))
      us (.binary left ahead.token.value ahead.negation.isSome :: fs) t gs) :
    Breaks (Grammar.operators .abort (n + 1) least left) ts fs t gs := by
  intro r hr
  obtain ⟨s, hs, hclear⟩ := gets_operatorAhead hoffers fs r hr
  rw [operators_of_some n left hr.inView.2 hs]
  have hadvance := (gets_advance ahead.token hus _).breaks (f := fun _ => _) h
  exact hadvance _ (hclear.enter _)

theorem gets_closeBracket {close : Token} (hclose : close.is .bracket ")") (hus : us ≠ [])
    (fs : List Frame) : Gets (closeBracket .abort) (close :: us) fs () us fs := by
  intro r hr
  obtain ⟨s, hs, hclear⟩ := gets_advance close hus fs r hr
  refine ⟨s, ?_, hclear⟩
  rw [closeBracket, current_bind, hr.inView.current, if_pos hclose, hs]

theorem breaks_withFields {n : Nat} {value : Expr}
    (h : Breaks (Grammar.fields .abort n value) ts (.secondary :: fs) t gs) :
    Breaks (secondary.withFields .abort n value) ts fs t gs :=
  (gets_enter _ _ _).breaks (h.bind _)

/-- **A step.**  If a production breaks off, so does every production that calls it. -/
theorem Calls.breaks {g g' : Goal} {opened frames : List Frame} (h : Calls g ts opened g' us)
    (hus : us ≠ []) (hbreaks : g'.Breaks us t frames) : g.Breaks ts t (frames ++ opened) := by
  obtain ⟨N, hN⟩ := hbreaks
  cases h with
  | operand =>
    refine breaks_of_fuel N fun n hn base => ?_
    rw [List.append_nil, Goal.run, expression]
    exact (hN n hn base).bind _
  | operators hleft =>
    obtain ⟨M, hM⟩ := hleft.gets_same id
    refine breaks_of_fuel (N + M) fun n hn base => ?_
    rw [List.append_nil, Goal.run, expression]
    exact (hM n (by omega) base).breaks (hN n (by omega) base)
  | right hoffers hplain =>
    refine breaks_of_fuel N fun n hn base => ?_
    rw [List.append_assoc]
    refine breaks_operators hoffers hus ?_
    rw [if_neg hplain]
    exact (hN n hn _).bind _
  | joined hoffers hplain hright =>
    obtain ⟨M, hM⟩ := hright.gets_same id
    refine breaks_of_fuel (N + M) fun n hn base => ?_
    rw [List.append_nil]
    refine breaks_operators hoffers hright.ne_nil ?_
    rw [if_neg hplain]
    exact (hM n (by omega) _).breaks ((gets_leave _ _ _).breaks (hN n (by omega) base))
  | chain hoffers hcomparison =>
    refine breaks_of_fuel N fun n hn base => ?_
    rw [List.append_nil]
    refine breaks_operators hoffers hus ?_
    -- the production that is open is the one in which a chain starts
    rw [if_pos hcomparison, hoffers.negation_eq_none hcomparison]
    exact (hN n hn base).bind _
  | @chained least _ _ _ ahead left joined hoffers hcomparison hchain =>
    obtain ⟨M, hM⟩ := breaks_behind_chain hchain
    refine breaks_of_fuel (N + M) fun n hn base => ?_
    rw [List.append_nil]
    refine breaks_operators hoffers hchain.ne_nil ?_
    rw [if_pos hcomparison]
    have hoperators : Breaks (Grammar.operators .abort n least joined) _ base t (frames ++ base) :=
      hN n (by omega) base
    exact hM n (by omega) _ (f := Grammar.operators .abort n least) hoperators
  | signed hpower =>
    refine breaks_of_fuel N fun n hn base r hr => ?_
    obtain rfl := hr.inView.current
    rw [Goal.run, operand_of_prefixed _ _ hpower, List.append_assoc]
    exact (gets_advance _ hus _).breaks ((hN n hn _).bind _) _ (hr.enter _)
  | prefixed hpower hinner =>
    obtain ⟨M, hM⟩ := hinner.gets_same id
    refine breaks_of_fuel (N + M) fun n hn base r hr => ?_
    obtain rfl := hr.inView.current
    rw [Goal.run, operand_of_prefixed _ _ hpower, List.append_assoc]
    exact (gets_advance _ hinner.ne_nil _).breaks ((hM n (by omega) _).breaks
      ((hN n (by omega) _).bind _)) _ (hr.enter _)
  | bracket hopen =>
    refine breaks_of_fuel N fun n hn base r hr => ?_
    obtain rfl := hr.inView.current
    rw [Goal.run, operand_of_bracket _ _ (prefixPower?_of_bracket hopen) hopen, List.append_assoc]
    exact (gets_advance _ hus _).breaks ((hN n hn _).bind _) _ (hr.enter _)
  | bracketed hopen hinner hclose =>
    obtain ⟨M, hM⟩ := hinner.gets_same id
    refine breaks_of_fuel (N + M) fun n hn base r hr => ?_
    obtain rfl := hr.inView.current
    rw [Goal.run, operand_of_bracket _ _ (prefixPower?_of_bracket hopen) hopen, List.append_nil]
    exact (gets_advance _ hinner.ne_nil _).breaks ((hM n (by omega) _).breaks
      ((gets_closeBracket hclose hus _).breaks ((gets_leave _ _ _).breaks (hN n (by omega) base))))
      _ (hr.enter _)
  | name hkind hconstant =>
    refine breaks_of_fuel N fun n hn base r hr => ?_
    obtain rfl := hr.inView.current
    rw [Goal.run, operand_of_plain _ _ (kind_ne hkind) (kind_ne hkind),
      secondary_of_identifier _ _ hkind, behindName_eq, hconstant, List.append_assoc]
    exact (gets_advance _ hus _).breaks (breaks_withFields (hN n hn _)) r hr
  | string hkind =>
    refine breaks_of_fuel N fun n hn base r hr => ?_
    obtain rfl := hr.inView.current
    rw [Goal.run, operand_of_plain _ _ (kind_ne hkind) (kind_ne hkind),
      secondary_of_string _ _ hkind, List.append_assoc]
    exact (gets_advance _ hus _).breaks (breaks_withFields (hN n hn _)) r hr
  | comparand =>
    refine breaks_of_fuel N fun n hn base => ?_
    rw [List.append_assoc, Goal.run, chain_eq]
    exact (hN n hn _).bind _
  | comparison hright hnext =>
    obtain ⟨M, hM⟩ := hright.gets_same id
    refine breaks_of_fuel (N + M) fun n hn base => ?_
    rw [List.append_nil, Goal.run, chain_eq]
    refine (hM n (by omega) _).breaks ((gets_current _ _ _).breaks ((gets_sound _ _).breaks ?_))
    rw [if_pos (by simpa using hnext)]
    exact (gets_retarget _ _ _ _ _ _ _).breaks ((gets_advance _ hus _).breaks (hN n (by omega) base))
  | field hdot hproperty =>
    refine breaks_of_fuel N fun n hn base => ?_
    rw [List.append_nil, Goal.run, Grammar.fields]
    refine (gets_current _ _ _).breaks ((gets_sound _ _).breaks ?_)
    rw [if_pos (by simpa using hdot)]
    refine (gets_enter _ _ _).breaks ((gets_advance _ (List.cons_ne_nil _ _) _).breaks
      ((gets_current _ _ _).breaks ((gets_advance _ hus _).breaks ?_)))
    rw [if_neg (by tauto)]
    exact (gets_leave _ _ _).breaks (hN n hn base)

/-- **A last step.**  A production that cannot go on breaks off. -/
theorem Dead.breaks {g : Goal} {frames : List Frame} (h : Dead g ts frames (t :: us)) :
    g.Breaks ts t frames := by
  cases h with
  | operand hstart =>
    simp only [StartsOperand, not_or, Option.isSome_iff_ne_none, ne_eq, not_not] at hstart
    obtain ⟨hpower, hopen, hname, hnumber, hstring⟩ := hstart
    refine breaks_of_fuel 0 fun n _ base r hr => ?_
    obtain rfl := hr.inView.current
    rw [Goal.run, operand_of_secondary _ _ hpower hopen, secondary_of_other _ _ hname hnumber hstring]
    exact breaks_note _ (fun _ => rfl) r hr
  | number hkind hvalue =>
    refine breaks_of_fuel 0 fun n _ base r hr => ?_
    obtain rfl := hr.inView.current
    rw [Goal.run, operand_of_plain _ _ (kind_ne hkind) (kind_ne hkind),
      secondary_of_number _ _ hkind, behindNumber, hvalue]
    -- the number is left behind before it is found to be too large
    cases us with
    | nil => exact (breaks_advance r.current _).bind _ r hr
    | cons u us =>
      exact (gets_advance _ (List.cons_ne_nil _ _) _).breaks
        ((breaks_complain _ _ _ _).bind _) r hr
  | unclosed hopen hinner hclose =>
    obtain ⟨N, hN⟩ := hinner.gets_same id
    refine breaks_of_fuel N fun n hn base r hr => ?_
    obtain rfl := hr.inView.current
    rw [Goal.run, operand_of_bracket _ _ (prefixPower?_of_bracket hopen) hopen]
    have hcloseBracket : ∀ fs, Breaks (closeBracket .abort) (t :: us) fs t fs := by
      intro fs
      refine (gets_current t us fs).breaks ?_
      rw [if_neg hclose]
      exact breaks_complain _ t _ fs
    exact (gets_advance _ hinner.ne_nil _).breaks ((hN n hn _).breaks
      ((hcloseBracket _).bind _)) _ (hr.enter _)
  | @relation least left u _ _ hnot hrelation =>
    refine breaks_of_fuel 0 fun n _ base r hr => ?_
    obtain rfl := hr.inView.current
    obtain ⟨s, hs, hclear⟩ := gets_advance r.current (List.cons_ne_nil _ _) _ r hr
    have hahead : ∃ u f, operatorAhead .abort least r = .broken u ∧ u.fault = some f ∧
        f.location = t.location ∧ u.frames = base := by
      rw [operatorAhead_of_not _ _ hnot.1 hnot.2, hs]
      dsimp only
      rw [afterNot, hclear.inView.current, if_neg (ne_true_of_eq_false hrelation)]
      exact (breaks_complain _ t _ base).bind _ s hclear
    obtain ⟨u, f, hu, hrest⟩ := hahead
    exact ⟨u, f, operators_of_broken n left hr.inView.2 hu, hrest⟩
  | @property value u _ _ hdot hproperty =>
    refine breaks_of_fuel 0 fun n _ base => ?_
    rw [Goal.run, Grammar.fields]
    refine (gets_current _ _ _).breaks ((gets_sound _ _).breaks ?_)
    rw [if_pos (by simpa using hdot)]
    refine (gets_enter _ _ _).breaks ((gets_advance _ (List.cons_ne_nil _ _) _).breaks
      ((gets_current _ _ _).breaks ?_))
    -- so is what stands for the name of the field
    cases us with
    | nil => exact (breaks_advance t _).bind _
    | cons v us =>
      refine (gets_advance _ (List.cons_ne_nil _ _) _).breaks ?_
      rw [if_pos (by tauto)]
      exact (breaks_complain _ t _ _).bind _

theorem Dead.ne_nil {g : Goal} {frames : List Frame} (h : Dead g ts frames us) : ts ≠ [] := by
  cases h <;> nofun

theorem Calls.ne_nil {g g' : Goal} {opened : List Frame} (h : Calls g ts opened g' us)
    (hus : us ≠ []) : ts ≠ [] := by
  cases h with
  | operand | comparand => exact hus
  | operators hleft => exact hleft.ne_nil
  | right hoffers | joined hoffers | chain hoffers | chained hoffers => exact hoffers.ne_nil
  | comparison hright => exact hright.ne_nil
  | _ => nofun

theorem Stops.ne_nil {g : Goal} {frames : List Frame} (h : Stops g ts frames us) : ts ≠ [] := by
  induction h with
  | dead h => exact h.ne_nil
  | call hcall _ ih => exact hcall.ne_nil ih

/-- **A production breaks off where it stops.** -/
theorem Stops.breaks {g : Goal} {frames : List Frame} (h : Stops g ts frames (t :: us)) :
    g.Breaks ts t frames := by
  generalize hvs : t :: us = vs at h
  induction h with
  | dead h =>
    subst hvs
    exact h.breaks
  | call hcall hstops ih => exact hcall.breaks hstops.ne_nil (ih hvs)

end Grammar

end FilterLang
