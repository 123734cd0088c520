import FilterLang.Proofs.Grammar.Verdict

/-!
# The first fault is where the text goes wrong

Up to the token of its first fault, every text can still be completed, and with that token it no
longer can.

* `Starts` — a production that starts in front of one list starts in front of another as well.
* `Calls.replace`, `Dead.replace`, `Stops.replace`, `Halts.replace` — a text halts at a token
  whatever is behind that token.
* `Calls.readsTo` — if the called production reads on to its end, so does the calling one.
* `Dead.completed`, `Stops.completed`, `Halts.completed` — in place of the token where a text halts,
  there are some with which it is read to its end.
* `parse_fault_viable_prefix` — both for the first fault.
-/

namespace FilterLang

namespace Grammar

/-! ### What is behind the token does not count -/

/-- A production that starts in front of the tokens `us` starts in front of `vs`: what is read before
it starts ends there as well. -/
def Starts (g : Goal) (us vs : List Token) : Prop :=
  match g with
  | .operators _ _ | .fields _ => Replaces us vs
  | _ => True

/-- A production calls another one, whatever that one starts in front of. -/
theorem Calls.replace {g g' : Goal} {ts us : List Token} {opened : List Frame}
    (h : Calls g ts opened g' us) :
    ∃ ws, ts = ws ++ us ∧ ∀ vs, Starts g' us vs →
      Calls g (ws ++ vs) opened g' vs ∧ Starts g (ws ++ us) (ws ++ vs) := by
  cases h with
  | operand => exact ⟨[], rfl, fun vs _ => ⟨.operand, trivial⟩⟩
  | operators hleft =>
    obtain ⟨ws, rfl, -, hagain⟩ := hleft.replace
    exact ⟨ws, rfl, fun vs h => ⟨.operators (hagain h), trivial⟩⟩
  | right hoffers hplain =>
    obtain ⟨op, rfl, -, hop⟩ := hoffers.replace
    exact ⟨op, rfl, fun vs _ => ⟨.right (hop vs).1 hplain, (hop vs).2⟩⟩
  | joined hoffers hplain hright =>
    obtain ⟨op, rfl, -, hop⟩ := hoffers.replace
    obtain ⟨ws, rfl, -, hagain⟩ := hright.replace
    refine ⟨op ++ ws, (List.append_assoc _ _ _).symm, fun vs h => ?_⟩
    rw [List.append_assoc, List.append_assoc]
    exact ⟨.joined (hop _).1 hplain (hagain h), (hop _).2⟩
  | chain hoffers hcomparison =>
    obtain ⟨op, rfl, -, hop⟩ := hoffers.replace
    exact ⟨op, rfl, fun vs _ => ⟨.chain (hop vs).1 hcomparison, (hop vs).2⟩⟩
  | chained hoffers hcomparison hchain =>
    obtain ⟨op, rfl, -, hop⟩ := hoffers.replace
    obtain ⟨ws, rfl, -, hagain⟩ := hchain.replace
    refine ⟨op ++ ws, (List.append_assoc _ _ _).symm, fun vs h => ?_⟩
    rw [List.append_assoc, List.append_assoc]
    exact ⟨.chained (hop _).1 hcomparison (hagain h), (hop _).2⟩
  | @signed t power us hpower => exact ⟨[t], rfl, fun vs _ => ⟨.signed hpower, trivial⟩⟩
  | @prefixed t power us vs inner hpower hinner =>
    obtain ⟨ws, rfl, -, hagain⟩ := hinner.replace
    exact ⟨t :: ws, rfl, fun vs h => ⟨.prefixed hpower (hagain h), trivial⟩⟩
  | @bracket t us hopen => exact ⟨[t], rfl, fun vs _ => ⟨.bracket hopen, trivial⟩⟩
  | @bracketed t close us vs inner hopen hinner hclose =>
    obtain ⟨ws, rfl, -, hagain⟩ := hinner.replace
    refine ⟨t :: (ws ++ [close]), by simp, fun vs h => ⟨?_, trivial⟩⟩
    rw [List.cons_append, List.append_assoc]
    exact .bracketed hopen (hagain (Replaces.cons h close)) hclose
  | @name t us hkind hconstant => exact ⟨[t], rfl, fun vs _ => ⟨.name hkind hconstant, trivial⟩⟩
  | @string t us hkind => exact ⟨[t], rfl, fun vs _ => ⟨.string hkind, trivial⟩⟩
  | comparand => exact ⟨[], rfl, fun vs _ => ⟨.comparand, trivial⟩⟩
  | @comparison power left right t next before ts us hright hnext =>
    obtain ⟨ws, rfl, -, hagain⟩ := hright.replace
    have hnot : ¬ IsNot next := not_isNot_of_isComparison hnext
    refine ⟨ws ++ [next], by simp, fun vs _ => ⟨?_, trivial⟩⟩
    rw [List.append_assoc]
    exact .comparison (hagain (replaces_head hnot us vs)) hnext
  | @field t property us value hdot hproperty =>
    exact ⟨[t, property], rfl,
      fun vs _ => ⟨.field hdot hproperty, replaces_pair t property us vs⟩⟩

theorem isNegatable_of_refuses {t : Token} {us : List Token} (h : Refuses 0 (t :: us)) :
    isNegatable t = false ∧ ¬ IsNot t := by
  have hsome : ∀ (u : Token) (negation : Option Location), isNegatable u →
      Ahead.ofToken? 0 u negation ≠ none := by
    intro u negation hu
    rw [isNegatable, Bool.and_eq_true] at hu
    rw [Ahead.ofToken?, Operator.binaryPower_of_isNegatable hu.2]
    simp
  cases h with
  | kind hkind => exact ⟨not_isNegatable_of_kind hkind, fun hnot => hkind hnot.1⟩
  | plain _ hnot hahead =>
    exact ⟨Bool.eq_false_iff.mpr fun ht => hsome t none ht hahead, fun h => hnot h.2⟩
  | negated _ _ hrelation hahead => exact absurd hahead (hsome _ _ hrelation)

/-- A production cannot go on at a token, whatever is behind that token. -/
theorem Dead.replace {g : Goal} {ts us : List Token} {frames : List Frame} {t : Token}
    (h : Dead g ts frames (t :: us)) :
    ∃ ws, ts = ws ++ t :: us ∧ ∀ vs,
      Dead g (ws ++ t :: vs) frames (t :: vs) ∧ Starts g (ws ++ t :: us) (ws ++ t :: vs) := by
  cases h with
  | operand hstart => exact ⟨[], rfl, fun vs => ⟨.operand hstart, trivial⟩⟩
  | number hkind hvalue => exact ⟨[], rfl, fun vs => ⟨.number hkind hvalue, trivial⟩⟩
  | @unclosed t' _ us' _ inner hopen hinner hclose =>
    obtain ⟨ws, rfl, -, hagain⟩ := hinner.replace
    have hrefuses : Refuses 0 (t :: us) := hinner.refuses
    refine ⟨t' :: ws, rfl, fun vs => ⟨?_, trivial⟩⟩
    exact .unclosed hopen (hagain (replaces_head (isNegatable_of_refuses hrefuses).2 us vs)) hclose
  | @relation least left t' _ _ hnot hrelation =>
    exact ⟨[t'], rfl, fun vs => ⟨.relation hnot hrelation, replaces_pair t' t us vs⟩⟩
  | @property value t' _ _ hdot hproperty =>
    exact ⟨[t'], rfl, fun vs => ⟨.property hdot hproperty, replaces_pair t' t us vs⟩⟩

/-- A production stops at a token, whatever is behind that token. -/
theorem Stops.replace {g : Goal} {ts us : List Token} {frames : List Frame} {t : Token}
    (h : Stops g ts frames (t :: us)) :
    ∃ ws, ts = ws ++ t :: us ∧ ∀ vs,
      Stops g (ws ++ t :: vs) frames (t :: vs) ∧ Starts g (ws ++ t :: us) (ws ++ t :: vs) := by
  generalize hts : t :: us = rest at h
  induction h with
  | dead h =>
    subst hts
    obtain ⟨ws, rfl, hagain⟩ := h.replace
    exact ⟨ws, rfl, fun vs => ⟨.dead (hagain vs).1, (hagain vs).2⟩⟩
  | call hcall _ ih =>
    obtain ⟨xs, rfl, hcalls⟩ := hcall.replace
    obtain ⟨ys, rfl, hstops⟩ := ih hts
    refine ⟨xs ++ ys, (List.append_assoc _ _ _).symm, fun vs => ?_⟩
    obtain ⟨hcall', hstarts⟩ := hcalls _ (hstops vs).2
    rw [List.append_assoc, List.append_assoc]
    exact ⟨.call hcall' (hstops vs).1, hstarts⟩

/-! ### Reading on to the end -/

section Close

variable {close : List Token} (hclose : Closed close)

include hclose

theorem Tail.noField {ts : List Token} (h : Tail close ts) (value : Expr) :
    Reads (.fields value) ts value ts := by
  obtain ⟨hnodot, hne⟩ := h.noDot hclose
  obtain ⟨t, ts, rfl⟩ := List.exists_cons_of_ne_nil hne
  exact .noField fun hdot => hnodot ((isDot_iff t).mpr hdot)

theorem Tail.operators {ts : List Token} (h : Tail close ts) (least : Nat) (left : Expr) :
    ReadsTo close (.operators least left) ts :=
  (tractable _).operators least left hclose h (Nat.lt_succ_self _)

/-- Behind a comparand a chain goes on, or it ends. -/
theorem ReadsTo.comparand {power : Nat} {left : Expr} {t : Token} {before : Option Expr}
    {ts : List Token} (h : ReadsTo close (.expression (power + 1)) ts) :
    ReadsTo close (.chain power left t before) ts := by
  obtain ⟨right, us, hright, hus⟩ := h
  obtain ⟨-, hne⟩ := hus.noDot hclose
  obtain ⟨next, us, rfl⟩ := List.exists_cons_of_ne_nil hne
  by_cases hnext : isComparison next
  · obtain ⟨o, vs, rfl, ho, hvs⟩ := hus.of_isComparison hclose hnext
    obtain ⟨e, ws, hchain, hws⟩ := (tractable _).chain power right next
      (some (conjoin before t left right)) hclose ho hvs (Nat.lt_succ_self _)
    exact ⟨e, ws, .chainMore hright hnext hchain, hws⟩
  · exact ⟨_, _, .chainEnd hright hnext, hus⟩

end Close

/-- The bracket that closes. -/
def closingBracket : Token := .ofText .bracket ")" .origin

/-- The closing brackets that the open productions ask for. -/
def closing (frames : List Frame) : List Token :=
  frames.flatMap fun
    | .brackets => [closingBracket]
    | _ => []

theorem closed_closing {close : List Token} (frames : List Frame) (hclose : Closed close) :
    Closed (closing frames ++ close) := by
  induction frames with
  | nil => exact hclose
  | cons frame frames ih =>
    cases frame with
    | brackets => exact nofun
    | _ => exact ih

theorem closing_append (frames opened : List Frame) (close : List Token) :
    closing (frames ++ opened) ++ close = closing frames ++ (closing opened ++ close) := by
  rw [closing, List.flatMap_append, List.append_assoc]
  rfl

/-- **If the called production reads on to its end, so does the calling one.** -/
theorem Calls.readsTo {g g' : Goal} {ts us close : List Token} {opened : List Frame}
    (h : Calls g ts opened g' us) (hclose : Closed close)
    (hus : ReadsTo (closing opened ++ close) g' us) : ReadsTo close g ts := by
  obtain ⟨e, vs, he, hvs⟩ := hus
  cases h with
  | operand =>
    -- what is left are operators with operands behind them, and those can be read
    obtain ⟨joined, ws, hjoined, hws⟩ := Tail.operators hclose hvs _ e
    exact ⟨joined, ws, .expression he hjoined, hws⟩
  | operators hleft => exact ⟨e, vs, .expression hleft he, hvs⟩
  | @right least _ _ ahead left hoffers hplain =>
    obtain ⟨joined, ws, hjoined, hws⟩ := Tail.operators hclose hvs least (ahead.join left e)
    exact ⟨joined, ws, .binary hoffers hplain he hjoined, hws⟩
  | joined hoffers hplain hright => exact ⟨e, vs, .binary hoffers hplain hright he, hvs⟩
  | @chain least _ _ _ _ hoffers hcomparison =>
    obtain ⟨joined, ws, hjoined, hws⟩ := Tail.operators hclose hvs least e
    exact ⟨joined, ws, .comparison hoffers hcomparison he hjoined, hws⟩
  | chained hoffers hcomparison hchain =>
    exact ⟨e, vs, .comparison hoffers hcomparison hchain he, hvs⟩
  | signed hpower => exact ⟨_, vs, .prefixed hpower he (Tail.noField hclose hvs _), hvs⟩
  | prefixed hpower hinner => exact ⟨e, vs, .prefixed hpower hinner he, hvs⟩
  | bracket hopen =>
    obtain rfl := hvs.eq_of_refuses he.refuses
    exact ⟨e, close, .bracketed hopen he rfl (Tail.noField hclose .done e), .done⟩
  | bracketed hopen hinner hbracket => exact ⟨e, vs, .bracketed hopen hinner hbracket he, hvs⟩
  | name hkind hconstant => exact ⟨e, vs, .name hkind hconstant he, hvs⟩
  | string hkind => exact ⟨e, vs, .string hkind he, hvs⟩
  | comparand => exact ReadsTo.comparand hclose ⟨e, vs, he, hvs⟩
  | comparison hright hnext => exact ⟨e, vs, .chainMore hright hnext he, hvs⟩
  | field hdot hproperty => exact ⟨e, vs, .field hdot hproperty he, hvs⟩

/-! ### Completions -/

/-- A name. -/
def someName : Token := .ofText .identifier "x" .origin

/-- A relation. -/
def someRelation : Token := .ofText .operator "in" .origin

/-- The tokens are neither blanks nor ends of a text. -/
def Plain (ts : List Token) : Prop := ∀ t ∈ ts, t.isBlank = false ∧ ¬ t.EndsText

theorem plain_nil : Plain [] := nofun

theorem plain_closing (frames : List Frame) : Plain (closing frames) := by
  intro t ht
  obtain ⟨frame, -, hframe⟩ := List.mem_flatMap.mp ht
  cases frame with
  | brackets =>
    obtain rfl := List.mem_singleton.mp hframe
    exact ⟨rfl, by simp [Token.EndsText, closingBracket, Token.ofText]⟩
  | _ => cases hframe

theorem plain_name : Plain [someName] := by
  simp [Plain, Token.isBlank, Token.EndsText, someName, Token.ofText]

theorem plain_relation : Plain [someRelation, someName] := by
  simp [Plain, Token.isBlank, Token.EndsText, someRelation, someName, Token.ofText]

/-- With the tokens `more` in place of what is behind the tokens `ws`, and with the brackets closed,
the production reads on to its end. -/
structure Completes (g : Goal) (ts : List Token) (frames : List Frame) (ws more : List Token) :
    Prop where
  plain : Plain more
  starts {close : List Token} (hclose : Closed close) :
    Starts g ts (ws ++ (more ++ (closing frames ++ close)))
  readsTo {close : List Token} (hclose : Closed close) :
    ReadsTo close g (ws ++ (more ++ (closing frames ++ close)))

/-- Where a production cannot go on at a token, it could with others in its place. -/
theorem Dead.completed {g : Goal} {ts us : List Token} {frames : List Frame} {t : Token}
    (h : Dead g ts frames (t :: us)) :
    ∃ ws more, ts = ws ++ t :: us ∧ Completes g ts frames ws more := by
  have hname : Phrase .operand [someName] :=
    .core (.value (.name rfl (by simp [IsConstant, someName, Token.ofText])))
  have hoperand : ∀ {close}, Closed close → ReadsTo close .operand (someName :: close) := by
    intro close hclose
    obtain ⟨hdot, hne⟩ := Tail.done.noDot hclose
    exact ⟨_, close, reads_name rfl hdot hne, .done⟩
  cases h with
  | operand | number => exact ⟨[], [someName], rfl, plain_name, fun _ => trivial, hoperand⟩
  | @unclosed t' _ us' _ inner hopen hinner =>
    obtain ⟨ws, rfl, -, hagain⟩ := hinner.replace
    have hrefuses : Refuses 0 (t :: us) := hinner.refuses
    -- the bracket that `closing` holds is all that is missing
    refine ⟨t' :: ws, [], rfl, plain_nil, fun _ => trivial, fun {close} hclose => ?_⟩
    have hbefore : Reads (.expression 0) (ws ++ closingBracket :: close) inner
        (closingBracket :: close) :=
      hagain (replaces_plain (isNegatable_of_refuses hrefuses).1 (by decide) us close)
    exact ⟨inner, close, .bracketed hopen hbefore rfl (Tail.noField hclose .done inner), .done⟩
  | @relation least left t' _ _ hnot hrelation =>
    have hop : IsBinary [t', someRelation] := .negated hnot.1 hnot.2 rfl
    exact ⟨[t'], [someRelation, someName], rfl, plain_relation,
      fun _ => replaces_dangling hnot hrelation us _,
      fun hclose => Tail.operators hclose (.more hop hname .done) least left⟩
  | @property value t' _ _ hdot =>
    have hnot : ¬ IsNot t' := not_isNot_of_isDot ((isDot_iff t').mpr hdot)
    exact ⟨[t'], [someName], rfl, plain_name, fun _ => replaces_head hnot _ _, fun hclose =>
      ⟨_, _, .field hdot (.inl rfl) (Tail.noField hclose .done _), .done⟩⟩

/-- Where a production stops at a token, it could go on with others in its place. -/
theorem Stops.completed {g : Goal} {ts us : List Token} {frames : List Frame} {t : Token}
    (h : Stops g ts frames (t :: us)) :
    ∃ ws more, ts = ws ++ t :: us ∧ Completes g ts frames ws more := by
  generalize hts : t :: us = rest at h
  induction h with
  | dead h =>
    subst hts
    exact h.completed
  | @call g g' ts us' _ opened frames hcall _ ih =>
    obtain ⟨xs, rfl, hcalls⟩ := hcall.replace
    obtain ⟨ys, more, rfl, hcompletes⟩ := ih hts
    refine ⟨xs ++ ys, more, (List.append_assoc _ _ _).symm, hcompletes.plain, ?_, ?_⟩
    all_goals
      intro close hclose
      have hclosing := closed_closing opened hclose
      obtain ⟨hcall', hstarts⟩ := hcalls _ (hcompletes.starts hclosing)
      rw [closing_append, List.append_assoc]
    · exact hstarts
    · exact hcall'.readsTo hclose (hcompletes.readsTo hclosing)

end Grammar

/-! ### Whole texts -/

open Grammar

/-- **A text halts at a token whatever is behind that token.** -/
theorem Halts.replace {ts us : List Token} {frames : List Frame} {t : Token}
    (h : Halts ts frames (t :: us)) :
    ∃ ws, ts = ws ++ t :: us ∧ ∀ vs, Halts (ws ++ t :: vs) frames (t :: vs) := by
  cases h with
  | inside h =>
    obtain ⟨ws, rfl, hagain⟩ := h.replace
    exact ⟨ws, rfl, fun vs => .inside (hagain vs).1⟩
  | behind h ht =>
    obtain ⟨ws, rfl, -, hagain⟩ := h.replace
    have hrefuses : Refuses 0 (t :: us) := h.refuses
    exact ⟨ws, rfl, fun vs =>
      .behind (hagain (replaces_head (isNegatable_of_refuses hrefuses).2 us vs)) ht⟩

/-- **Where a text halts at a token, it is read to its end with others in its place.** -/
theorem Halts.completed {ts us : List Token} {frames : List Frame} {t : Token}
    (h : Halts ts frames (t :: us)) :
    ∃ ws more, ts = ws ++ t :: us ∧ Plain more ∧ ∀ {stop : Token}, stop.EndsText →
      ∃ e, ReadsText (ws ++ (more ++ [stop])) e := by
  cases h with
  | inside h =>
    obtain ⟨ws, more, rfl, hcompletes⟩ := h.completed
    refine ⟨ws, more ++ closing frames, rfl, ?_, fun {stop} hstop => ?_⟩
    · intro u hu
      exact (List.mem_append.mp hu).elim (hcompletes.plain u) (plain_closing frames u)
    obtain ⟨e, vs, he, hvs⟩ := hcompletes.readsTo (hstop.closed [])
    obtain rfl := hvs.eq_of_refuses he.refuses
    rw [List.append_assoc]
    exact ⟨e, stop, [], he, hstop⟩
  | @behind _ _ e h ht =>
    obtain ⟨ws, rfl, -, hagain⟩ := h.replace
    have hrefuses : Refuses 0 (t :: us) := h.refuses
    refine ⟨ws, [], rfl, plain_nil, fun {stop} hstop => ⟨e, stop, [], ?_, hstop⟩⟩
    exact hagain (replaces_plain (isNegatable_of_refuses hrefuses).1 (hstop.closed []) us [])

/-- The tokens are read without a fault. -/
def Accepted (tokens : List Token) : Prop := ∃ e, parse tokens = ⟨some e, none⟩

theorem Halts.not_accepted {tokens us : List Token} {frames : List Frame} {t : Token}
    (h : Halts (solid tokens) frames (t :: us)) : ¬ Accepted tokens :=
  fun ⟨e, he⟩ => parse_ne_of_halts h e he

/-- A token that is not blank, with the tokens around it. -/
theorem exists_of_solid_eq {tokens ws us : List Token} {t : Token}
    (h : solid tokens = ws ++ t :: us) :
    ∃ before after, tokens = before ++ t :: after ∧ solid before = ws ∧ t.isBlank = false := by
  obtain ⟨front, behind, rfl, hfront, hbehind⟩ := List.filter_eq_append_iff.mp h
  obtain ⟨blanks, after, rfl, hblanks, ht, -⟩ := List.filter_eq_cons_iff.mp hbehind
  refine ⟨front ++ blanks, after, (List.append_assoc _ _ _).symm, ?_, by simpa using ht⟩
  have hnone : solid blanks = [] := List.filter_eq_nil_iff.mpr hblanks
  rw [solid_append, hnone, List.append_nil]
  exact hfront

/-- **The first fault is where the text goes wrong.**  The tokens in front of that place can be
completed to a text without a fault, and with the token at that place they cannot. -/
theorem parse_fault_viable_prefix {tokens : List Token} {last : Token} {f : Located ParseFault}
    (hlast : tokens.getLast? = some last) (heof : last.kind = .eof)
    (hfault : (parse tokens).fault = some f) :
    ∃ before t after, tokens = before ++ t :: after ∧ f.location = t.location ∧
      (∃ more stop, Plain more ∧ stop.kind = .eof ∧ Accepted (before ++ more ++ [stop])) ∧
      ∀ more, ¬ Accepted (before ++ t :: more) := by
  have hend : last.EndsText := .inl heof
  have hblank : last.isBlank = false := by
    rw [Token.isBlank, heof]
    rfl
  have hended : Ended (solid tokens) := by
    obtain ⟨front, rfl⟩ := List.getLast?_eq_some_iff.mp hlast
    rw [solid_append_end hend]
    exact ⟨last, List.getLast?_concat, hend⟩
  rcases reads_or_halts hended with ⟨e, t, us, hreads, ht⟩ | ⟨frames, t, us, hhalts⟩
  · rw [parse_of_reads hreads ht] at hfault
    cases hfault
  obtain ⟨f', hf', hlocation⟩ :=
    parse_of_halts (terminates_of_last hlast hend.opens) hlast hblank hhalts
  obtain rfl : f = f' := Option.some.inj (hfault.symm.trans hf')
  -- the same tokens are in front of the place, whatever is put behind them
  obtain ⟨ws, hws, hagain⟩ := hhalts.replace
  obtain ⟨ws', more, hws', hplain, hcompletes⟩ := hhalts.completed
  obtain rfl : ws' = ws := List.append_cancel_right (hws'.symm.trans hws)
  obtain ⟨before, after, htokens, rfl, ht⟩ := exists_of_solid_eq hws
  refine ⟨before, t, after, htokens, hlocation, ⟨more, last, hplain, heof, ?_⟩, fun more => ?_⟩
  · obtain ⟨e, u, us, hreads, hu⟩ := hcompletes hend
    have hmore : solid more = more := Solid.solid_eq fun u hu => (hplain u hu).1
    rw [← hmore, ← List.append_assoc, ← solid_append, ← solid_append_end hend] at hreads
    exact ⟨e, parse_of_reads hreads hu⟩
  · have hmore : Halts (solid (before ++ t :: more)) frames (t :: solid more) := by
      rw [solid_append, solid_cons (by simpa [Token.isBlank] using ht)]
      exact hagain (solid more)
    exact hmore.not_accepted

/-- In `( a + * b`, the text goes wrong at the star. -/
theorem parse_fault_viable_prefix_star :
    let star : Token := .ofText .operator "*" ⟨1, 6⟩
    let last : Token := .ofText .eof "" ⟨1, 9⟩
    let tokens : List Token := [.ofText .bracket "(" ⟨1, 0⟩, .ofText .identifier "a" ⟨1, 2⟩,
      .ofText .operator "+" ⟨1, 4⟩, star, .ofText .identifier "b" ⟨1, 8⟩, last]
    let fault : Located ParseFault := ⟨.unexpectedToken "* (operator)", star.location⟩
    tokens.getLast? = some last ∧ last.kind = .eof ∧ (parse tokens).fault = some fault ∧
      ∃ before t after, tokens = before ++ t :: after ∧ star.location = t.location ∧
        (∃ more stop, Plain more ∧ stop.kind = .eof ∧ Accepted (before ++ more ++ [stop])) ∧
        ∀ more, ¬ Accepted (before ++ t :: more) := by
  intro star last tokens fault
  have hlast : tokens.getLast? = some last := rfl
  have hfault : (parse tokens).fault = some fault := rfl
  exact ⟨hlast, rfl, hfault, parse_fault_viable_prefix hlast rfl hfault⟩

end FilterLang
