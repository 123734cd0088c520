import FilterLang.Proofs.Grammar.Reading

/-!
# Where the nodes of a tree stand

Whatever the grammar makes stands at a token: the nodes of a tree, also those that it makes up for a
chain or a negation, and the first fault.  That does not change past a fault.

* `Expr.nodes`, `Expr.places` — all nodes of a tree, and where they stand.
* `Occupied` — some token of a list stands at a place; `Expr.Anchored` — at all places of a tree.
* `Reader.Over` — a reader of the tokens of a list, with a fault at one of them.
* `Yields` — an action that stays over a list of tokens and gives a value with a property.
* `yields_run` — every production yields an anchored tree.
* `anchored_parse` — the tree and the fault of a list of tokens.
-/

namespace FilterLang

/-! ### The places of a tree -/

/-- All nodes of a tree, children before parents. -/
def Expr.nodes (e : Expr) : List Expr :=
  match e with
  | .unary _ _ operand => operand.nodes ++ [e]
  | .binary _ _ left right => left.nodes ++ right.nodes ++ [e]
  | .member _ object property _ => object.nodes ++ property.nodes ++ [e]
  | .call _ callee => callee.nodes ++ [e]
  | _ => [e]

/-- The places of all nodes. -/
def Expr.places (e : Expr) : List Location := e.nodes.map Expr.location

theorem Expr.mem_nodes (e : Expr) : e ∈ e.nodes := by
  cases e <;> simp [Expr.nodes]

theorem Expr.location_mem_places (e : Expr) : e.location ∈ e.places :=
  List.mem_map_of_mem e.mem_nodes

theorem Expr.places_unary (note : Note) (operator : String) (operand : Expr) :
    (unary note operator operand).places = operand.places ++ [note.location] :=
  List.map_append

theorem Expr.places_binary (note : Note) (operator : String) (left right : Expr) :
    (binary note operator left right).places = left.places ++ right.places ++ [note.location] := by
  rw [places, nodes, List.map_append, List.map_append]
  rfl

theorem Expr.places_member (note : Note) (object property : Expr) (method : Bool) :
    (member note object property method).places
      = object.places ++ property.places ++ [note.location] := by
  rw [places, nodes, List.map_append, List.map_append]
  rfl

theorem Expr.places_call (note : Note) (callee : Expr) :
    (call note callee).places = callee.places ++ [note.location] :=
  List.map_append

/-- A token of the list stands at the place. -/
def Occupied (tokens : List Token) (here : Location) : Prop :=
  ∃ token ∈ tokens, token.location = here

/-- Every node of the tree stands at a token of the list. -/
def Expr.Anchored (tokens : List Token) (e : Expr) : Prop :=
  ∀ here ∈ e.places, Occupied tokens here

variable {tokens : List Token}

theorem occupied_of_mem {token : Token} (h : token ∈ tokens) : Occupied tokens token.location :=
  ⟨token, h, rfl⟩

/-- A tree without parts. -/
theorem anchored_leaf {e : Expr} (hleaf : e.nodes = [e]) (h : Occupied tokens e.location) :
    e.Anchored tokens := by
  rw [Expr.Anchored, Expr.places, hleaf]
  exact List.forall_mem_singleton.mpr h

theorem anchored_unary {note : Note} {operator : String} {operand : Expr}
    (h : Occupied tokens note.location) (hoperand : operand.Anchored tokens) :
    (Expr.unary note operator operand).Anchored tokens := by
  rw [Expr.Anchored, Expr.places_unary, List.forall_mem_append]
  exact ⟨hoperand, List.forall_mem_singleton.mpr h⟩

theorem anchored_binary {note : Note} {operator : String} {left right : Expr}
    (h : Occupied tokens note.location) (hleft : left.Anchored tokens)
    (hright : right.Anchored tokens) : (Expr.binary note operator left right).Anchored tokens := by
  rw [Expr.Anchored, Expr.places_binary, List.forall_mem_append, List.forall_mem_append]
  exact ⟨⟨hleft, hright⟩, List.forall_mem_singleton.mpr h⟩

theorem anchored_member {note : Note} {object property : Expr} {method : Bool}
    (h : Occupied tokens note.location) (hobject : object.Anchored tokens)
    (hproperty : property.Anchored tokens) :
    (Expr.member note object property method).Anchored tokens := by
  rw [Expr.Anchored, Expr.places_member, List.forall_mem_append, List.forall_mem_append]
  exact ⟨⟨hobject, hproperty⟩, List.forall_mem_singleton.mpr h⟩

/-! ### Actions over a list of tokens -/

/-- A reader of some tokens of the list, with a fault at one of them. -/
structure Reader.Over (tokens : List Token) (r : Reader) : Prop where
  current : r.current ∈ tokens
  rest : ∀ token ∈ r.rest, token ∈ tokens
  fault : ∀ fault ∈ r.fault, Occupied tokens fault.location

/-- A reader that starts at a token of the list. -/
theorem Reader.over_start {token : Token} {rest : List Token}
    (h : ∀ t ∈ token :: rest, t ∈ tokens) : Reader.Over tokens { current := token, rest } :=
  ⟨h token (.head _), fun t ht => h t (.tail _ ht), nofun⟩

theorem Reader.Over.withFrames {r : Reader} (h : r.Over tokens) (frames : List Frame) :
    (r.withFrames frames).Over tokens :=
  ⟨h.current, h.rest, h.fault⟩

theorem Reader.Over.moveTo {r : Reader} (h : r.Over tokens) {token : Token} {rest : List Token}
    (htoken : token ∈ tokens) (hrest : ∀ token ∈ rest, token ∈ tokens) :
    (r.moveTo token rest).Over tokens :=
  ⟨htoken, hrest, h.fault⟩

theorem Reader.Over.last {r : Reader} (h : r.Over tokens) : r.last ∈ tokens := by
  rw [Reader.last]
  cases hlast : r.rest.getLast? with
  | none => exact h.current
  | some token => exact h.rest token (List.mem_of_getLast? hlast)

/-- The outcome is over the tokens, and its value has the property. -/
def Outcome.Over {α : Type} (tokens : List Token) (P : α → Prop) : Outcome α → Prop
  | .done value r => P value ∧ r.Over tokens
  | .broken r => r.Over tokens
  | .spent => True

namespace Grammar

variable {α β : Type} {P : α → Prop} {Q : β → Prop} {policy : Policy}

/-- An action that stays over the tokens, and whose values have the property. -/
def Yields (tokens : List Token) (P : α → Prop) (a : Grammar α) : Prop :=
  ∀ r : Reader, r.Over tokens → (a r).Over tokens P

theorem Yields.bind {a : Grammar α} {f : α → Grammar β} (ha : Yields tokens P a)
    (hf : ∀ value, P value → Yields tokens Q (f value)) : Yields tokens Q (a >>= f) := by
  intro r hr
  have h := ha r hr
  rw [bind_apply]
  cases hdone : a r with
  | done value s =>
    rw [hdone] at h
    exact hf value h.1 s h.2
  | broken s =>
    rw [hdone] at h
    exact h
  | spent => trivial

theorem yields_pure {value : α} (h : P value) : Yields tokens P (pure value) :=
  fun _ hr => ⟨h, hr⟩

theorem yields_outOfFuel : Yields tokens P outOfFuel := fun _ _ => trivial

theorem yields_current : Yields tokens (· ∈ tokens) current := fun _ hr => ⟨hr.current, hr⟩

theorem yields_sound : Yields tokens (fun _ => True) sound := fun _ hr => ⟨trivial, hr⟩

theorem yields_enter (frame : Frame) : Yields tokens (fun _ => True) (enter frame) :=
  fun _ hr => ⟨trivial, hr.withFrames _⟩

theorem yields_leave : Yields tokens (fun _ => True) leave :=
  fun _ hr => ⟨trivial, hr.withFrames _⟩

theorem yields_retarget (left : Expr) (operator : String) :
    Yields tokens (fun _ => True) (retarget left operator) := by
  intro r hr
  rw [retarget]
  split
  · exact ⟨trivial, hr.withFrames _⟩
  · exact ⟨trivial, hr⟩

/-- A fault that is noted at a token. -/
theorem over_note {r : Reader} (hr : r.Over tokens) (fault : ParseFault) {here : Location}
    (h : Occupied tokens here) : (note fault here r).Over tokens where
  current := hr.current
  rest := hr.rest
  fault := by
    intro found hfound
    rcases Option.or_eq_some_iff.mp hfound with hfound | ⟨-, hfound⟩
    · exact hr.fault found hfound
    · cases hfound
      exact h

theorem yields_complain (policy : Policy) (fault : ParseFault) {here : Location}
    (h : Occupied tokens here) : Yields tokens (fun _ => True) (complain policy fault here) := by
  intro r hr
  cases policy with
  | collect => exact ⟨trivial, over_note hr fault h⟩
  | abort => exact over_note hr fault h

theorem yields_fail (fault : ParseFault) {here : Location} (h : Occupied tokens here) :
    Yields tokens P (fail fault here) :=
  fun _ hr => over_note hr fault h

/-- Where the tokens run out, the fault is at the last of them. -/
theorem yields_advance (policy : Policy) : Yields tokens (fun _ => True) (advance policy) := by
  intro r hr
  rw [advance_eq]
  have hsuffix : r.rest.dropWhile Token.isBlank <:+ r.rest := List.dropWhile_suffix _
  cases hdrop : r.rest.dropWhile Token.isBlank with
  | cons token rest =>
    rw [hdrop] at hsuffix
    have hbehind : ∀ t ∈ token :: rest, t ∈ tokens := fun t ht => hr.rest t (hsuffix.subset ht)
    exact ⟨trivial, hr.moveTo (hbehind token (.head _)) fun t ht => hbehind t (.tail _ ht)⟩
  | nil => exact yields_complain policy _ (occupied_of_mem hr.last) _ (hr.moveTo hr.last nofun)

/-- The operator ahead is one of the tokens, and so is the `not` in front of it. -/
def Ahead.Over (tokens : List Token) (ahead : Ahead) : Prop :=
  ahead.token ∈ tokens ∧ ∀ here ∈ ahead.negation, Occupied tokens here

theorem over_ofToken? {least : Nat} {token : Token} {negation : Option Location}
    (htoken : token ∈ tokens) (hnegation : ∀ here ∈ negation, Occupied tokens here) :
    ∀ ahead ∈ Ahead.ofToken? least token negation, ahead.Over tokens := by
  intro ahead hahead
  obtain ⟨heq, hnot, -⟩ := token_of_ofToken? hahead
  exact ⟨heq ▸ htoken, hnot ▸ hnegation⟩

/-- Looking for an operator stays over the tokens, also where it comes back to the `not`. -/
theorem yields_operatorAhead (policy : Policy) (least : Nat) :
    Yields tokens (fun ahead => ∀ found ∈ ahead, found.Over tokens) (operatorAhead policy least) := by
  intro r hr
  by_cases hkind : r.current.kind = .operator
  swap
  · rw [operatorAhead_of_kind policy least hkind]
    exact ⟨nofun, hr⟩
  by_cases hnot : r.current.value = "not"
  swap
  · rw [operatorAhead_of_ne_not policy least hkind hnot]
    exact ⟨over_ofToken? hr.current nofun, hr⟩
  rw [operatorAhead_of_not policy least hkind hnot]
  have hadvance := yields_advance policy r hr
  cases hmoved : advance policy r with
  | spent => trivial
  | broken s =>
    rw [hmoved] at hadvance
    exact hadvance
  | done value s =>
    rw [hmoved] at hadvance
    have hs := hadvance.2
    dsimp only
    rw [afterNot]
    split
    · have hfound : ∀ ahead ∈ Ahead.ofToken? least s.current (some r.current.location),
          ahead.Over tokens := by
        refine over_ofToken? hs.current ?_
        rintro here ⟨⟩
        exact occupied_of_mem hr.current
      split
      · next ahead hahead =>
        refine ⟨?_, hs⟩
        rintro found ⟨⟩
        exact hfound ahead hahead
      · exact ⟨nofun, hs.moveTo hr.current hr.rest⟩
    · have hcomplain := yields_complain policy (.unexpectedToken s.current.describe)
        (occupied_of_mem hs.current)
      exact hcomplain.bind (fun _ _ => yields_pure nofun) s hs

/-! ### Productions -/

/-- The trees and the tokens that a production has at hand. -/
def Goal.Over (tokens : List Token) : Goal → Prop
  | .expression _ | .operand => True
  | .operators _ left => left.Anchored tokens
  | .chain _ left token before =>
    left.Anchored tokens ∧ token ∈ tokens ∧ ∀ e ∈ before, e.Anchored tokens
  | .fields value => value.Anchored tokens

/-- With this fuel, the productions yield anchored trees. -/
def YieldsWith (tokens : List Token) (policy : Policy) (fuel : Nat) : Prop :=
  ∀ {g : Goal}, g.Over tokens → Yields tokens (Expr.Anchored tokens) (g.run policy fuel)

/-- Two sides of an operator, and the `not` in front of it. -/
theorem anchored_join {ahead : Ahead} (h : ahead.Over tokens) {left right : Expr}
    (hleft : left.Anchored tokens) (hright : right.Anchored tokens) :
    (ahead.join left right).Anchored tokens := by
  have hjoined : (Expr.binary (.at ahead.token.location) ahead.token.value left right).Anchored
      tokens := anchored_binary (occupied_of_mem h.1) hleft hright
  rw [Ahead.join]
  cases hnegation : ahead.negation with
  | none => exact hjoined
  | some here => exact anchored_unary (h.2 here hnegation) hjoined

/-- The conjunctions of a chain stand at the later comparison. -/
theorem anchored_conjoin {before : Option Expr} (hbefore : ∀ e ∈ before, e.Anchored tokens)
    {token : Token} (htoken : token ∈ tokens) {left right : Expr} (hleft : left.Anchored tokens)
    (hright : right.Anchored tokens) : (conjoin before token left right).Anchored tokens := by
  have hcomparison : (Expr.binary (.at token.location) token.value left right).Anchored tokens :=
    anchored_binary (occupied_of_mem htoken) hleft hright
  cases before with
  | none => exact hcomparison
  | some before => exact anchored_binary (occupied_of_mem htoken) (hbefore before rfl) hcomparison

variable {fuel : Nat}

theorem yields_fields (ih : YieldsWith tokens policy fuel) {value : Expr}
    (hvalue : value.Anchored tokens) :
    Yields tokens (Expr.Anchored tokens) (fields policy (fuel + 1) value) := by
  rw [fields]
  refine yields_current.bind fun token _ => yields_sound.bind fun _ _ => ?_
  split
  · refine (yields_enter _).bind fun _ _ => (yields_advance policy).bind fun _ _ =>
      yields_current.bind fun property hproperty => (yields_advance policy).bind fun _ _ => ?_
    have hplace := occupied_of_mem hproperty
    have hmember : (Expr.member (.at property.location) value
        (.identifier (.at property.location) property.value) false).Anchored tokens :=
      anchored_member hplace hvalue (anchored_leaf rfl hplace)
    have hrest := yields_leave.bind fun _ _ => ih (g := .fields _) hmember
    dsimp only
    split
    · exact (yields_complain policy _ hplace).bind fun _ _ => hrest
    · exact hrest
  · exact yields_pure hvalue

theorem yields_withFields (ih : YieldsWith tokens policy fuel) {value : Expr}
    (hvalue : value.Anchored tokens) :
    Yields tokens (Expr.Anchored tokens) (secondary.withFields policy fuel value) :=
  (yields_enter _).bind fun _ _ => (ih (g := .fields value) hvalue).bind fun _ hfields =>
    yields_leave.bind fun _ _ => yields_pure hfields

theorem yields_secondary (ih : YieldsWith tokens policy fuel) :
    Yields tokens (Expr.Anchored tokens) (secondary policy fuel) := by
  refine yields_current.bind fun token htoken => ?_
  have hplace := occupied_of_mem htoken
  dsimp only
  split
  · refine (yields_advance policy).bind fun _ _ => ?_
    split
    · exact yields_pure (anchored_leaf rfl hplace)
    split
    · exact yields_pure (anchored_leaf rfl hplace)
    split
    · exact yields_pure (anchored_leaf rfl hplace)
    exact yields_withFields ih (anchored_leaf rfl hplace)
  · refine (yields_advance policy).bind fun _ _ => ?_
    split
    · exact yields_pure (anchored_leaf rfl hplace)
    · exact (yields_complain policy _ hplace).bind fun _ _ =>
        yields_pure (anchored_leaf rfl hplace)
  · exact (yields_advance policy).bind fun _ _ =>
      yields_withFields ih (anchored_leaf rfl hplace)
  · exact yields_fail _ hplace

theorem yields_closeBracket (policy : Policy) :
    Yields tokens (fun _ => True) (closeBracket policy) := by
  refine yields_current.bind fun token htoken => ?_
  split
  · exact yields_advance policy
  · exact yields_complain policy _ (occupied_of_mem htoken)

theorem yields_operand (ih : YieldsWith tokens policy fuel) :
    Yields tokens (Expr.Anchored tokens) (operand policy (fuel + 1)) := by
  rw [operand]
  refine yields_current.bind fun token htoken => ?_
  split
  · exact (yields_enter _).bind fun _ _ => (yields_advance policy).bind fun _ _ =>
      (ih (g := .expression _) trivial).bind fun _ hinner =>
      (ih (g := .fields _) (anchored_unary (occupied_of_mem htoken) hinner)).bind fun _ hvalue =>
      yields_leave.bind fun _ _ => yields_pure hvalue
  · split
    · exact (yields_enter _).bind fun _ _ => (yields_advance policy).bind fun _ _ =>
        (ih (g := .expression 0) trivial).bind fun _ hinner =>
        (yields_closeBracket policy).bind fun _ _ => yields_leave.bind fun _ _ =>
        ih (g := .fields _) hinner
    · exact yields_secondary ih

theorem yields_operators (ih : YieldsWith tokens policy fuel) {least : Nat} {left : Expr}
    (hleft : left.Anchored tokens) :
    Yields tokens (Expr.Anchored tokens) (operators policy (fuel + 1) least left) := by
  rw [operators]
  refine yields_sound.bind fun _ _ => ?_
  split
  swap
  · exact yields_pure hleft
  refine (yields_operatorAhead policy least).bind fun ahead hahead => ?_
  cases ahead with
  | none => exact yields_pure hleft
  | some ahead =>
    have hover := hahead ahead rfl
    refine (yields_enter _).bind fun _ _ => (yields_advance policy).bind fun _ _ => ?_
    split
    · exact (ih (g := .chain _ _ _ none) ⟨hleft, hover.1, by simp⟩).bind fun joined hjoined =>
        yields_leave.bind fun _ _ => ih (g := .operators least joined) hjoined
    · exact (ih (g := .expression _) trivial).bind fun right hright =>
        yields_leave.bind fun _ _ => ih (g := .operators least _) (anchored_join hover hleft hright)

theorem yields_chain (ih : YieldsWith tokens policy fuel) {power : Nat} {left : Expr}
    {token : Token} {before : Option Expr} (hleft : left.Anchored tokens)
    (htoken : token ∈ tokens) (hbefore : ∀ e ∈ before, e.Anchored tokens) :
    Yields tokens (Expr.Anchored tokens) (chain policy (fuel + 1) power left token before) := by
  rw [chain_eq]
  refine (ih (g := .expression _) trivial).bind fun right hright =>
    yields_current.bind fun next hnext => yields_sound.bind fun _ _ => ?_
  have hjoined := anchored_conjoin hbefore htoken hleft hright
  split
  · refine (yields_retarget _ _).bind fun _ _ => (yields_advance policy).bind fun _ _ =>
      ih (g := .chain _ _ _ (some _)) ⟨hright, hnext, ?_⟩
    rintro e ⟨⟩
    exact hjoined
  · exact yields_pure hjoined

/-- **The run lemma.**  Every production yields an anchored tree, whatever faults it meets. -/
theorem yields_run (tokens : List Token) (policy : Policy) (fuel : Nat) :
    YieldsWith tokens policy fuel := by
  induction fuel with
  | zero =>
    intro g _
    cases g <;> simp only [Goal.run, expression, operators, operand, chain, fields] <;>
      exact yields_outOfFuel
  | succ fuel ih =>
    intro g hg
    cases g with
    | expression least =>
      rw [Goal.run, expression]
      exact (ih (g := .operand) trivial).bind fun left hleft => ih (g := .operators least left) hleft
    | operators least left => exact yields_operators ih hg
    | operand => exact yields_operand ih
    | chain power left token before => exact yields_chain ih hg.1 hg.2.1 hg.2.2
    | fields value => exact yields_fields ih hg

theorem yields_text (tokens : List Token) (policy : Policy) (fuel : Nat) :
    Yields tokens (Expr.Anchored tokens) (text policy fuel) := by
  refine (yields_run tokens policy fuel (g := .expression 0) trivial).bind fun value hvalue =>
    yields_current.bind fun token htoken => ?_
  dsimp only
  split
  · exact (yields_complain policy _ (occupied_of_mem htoken)).bind fun _ _ => yields_pure hvalue
  · exact yields_pure hvalue

end Grammar

/-! ### Whole texts -/

/-- **What is read stands at the tokens.**  If not all tokens are blank, every node of the tree and
the first fault stand at one of them. -/
theorem anchored_parse (h : solid tokens ≠ []) :
    (∀ tree ∈ (parse tokens).tree, tree.Anchored tokens) ∧
      ∀ fault ∈ (parse tokens).fault, Occupied tokens fault.location := by
  cases hdrop : tokens.dropWhile Token.isBlank with
  | nil => exact absurd (solid_eq_nil hdrop) h
  | cons token rest =>
    have hsuffix : token :: rest <:+ tokens := hdrop ▸ List.dropWhile_suffix _
    have hstart : Reader.Over tokens { current := token, rest } :=
      Reader.over_start fun t ht => hsuffix.subset ht
    have hrun : (runParser .collect tokens).Over tokens (Expr.Anchored tokens) := by
      rw [runParser_eq_readText, readText, hdrop]
      exact Grammar.yields_text tokens _ _ _ hstart
    rw [parse]
    cases houtcome : runParser .collect tokens with
    | done tree r =>
      rw [houtcome] at hrun
      refine ⟨?_, hrun.2.fault⟩
      rintro _ ⟨⟩
      exact hrun.1
    | broken r =>
      rw [houtcome] at hrun
      exact ⟨by simp, hrun.fault⟩
    | spent => exact ⟨by simp, by simp⟩

end FilterLang
