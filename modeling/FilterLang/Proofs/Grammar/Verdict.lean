import FilterLang.Proofs.Grammar.Stopping
import Mathlib.Data.List.TakeWhile

/-!
# Every text is read or stopped

* `Ended` — the tokens have an end of the text behind them.
* `Decided` — a production reads the tokens or stops in them.
* `decided` — every production does one of the two, by induction on the number of tokens.
* `Stops.not_reads`, `Reads.unique` — none does both, and what is read is one tree.
* `Halts` — reading a whole text stops, inside of its expression or behind it.
* `reads_or_halts` — a whole text is read or it halts.
* `parseStrict_of_halts`, `parseStrict_of_reads`, `parse_of_halts`, `parse_ne_of_halts` — what that
  means for the two readings.
-/

namespace FilterLang

namespace Grammar

/-! ### One of the two -/

/-- The last of the tokens ends the text. -/
def Ended (ts : List Token) : Prop := ∃ t ∈ ts.getLast?, t.EndsText

/-- The tokens behind some that do not end the text. -/
theorem Ended.of_append {ts us : List Token} (h : Ended (ts ++ us)) (hts : NoEnd ts) : Ended us := by
  obtain ⟨t, ht, hend⟩ := h
  rcases us.eq_nil_or_concat with rfl | ⟨vs, v, rfl⟩
  · rw [List.append_nil] at ht
    exact absurd hend (hts t (List.mem_of_getLast? ht))
  · rw [List.concat_eq_append, ← List.append_assoc, List.getLast?_concat] at ht
    exact ⟨t, by rwa [List.concat_eq_append, List.getLast?_concat], hend⟩

theorem Ended.of_cons {t : Token} {ts : List Token} {kind : TokenKind} (h : Ended (t :: ts))
    (hkind : t.kind = kind) (hplain : kind ≠ .eof ∧ kind ≠ .caret := by decide) : Ended ts :=
  Ended.of_append (show Ended ([t] ++ ts) from h) (noEnd_nil.cons_of_kind hkind hplain)

theorem Ended.exists_cons {ts : List Token} (h : Ended ts) : ∃ t us, ts = t :: us := by
  obtain ⟨t, ht, -⟩ := h
  cases ts with
  | nil => cases ht
  | cons u us => exact ⟨u, us, rfl⟩

theorem Reads.ended {g : Goal} {ts us : List Token} {e : Expr} (h : Reads g ts e us)
    (hts : Ended ts) : Ended us := by
  obtain ⟨ws, rfl, hws, -⟩ := h.replace
  exact hts.of_append hws

theorem Offers.ended {least : Nat} {ts us : List Token} {ahead : Ahead} (h : Offers least ts ahead us)
    (hts : Ended ts) : Ended us := by
  obtain ⟨op, rfl, hop, -⟩ := h.replace
  exact hts.of_append hop

theorem Offers.length {least : Nat} {ts us : List Token} {ahead : Ahead}
    (h : Offers least ts ahead us) : us.length < ts.length := by
  cases h <;> simp only [List.length_cons] <;> omega

/-- A production reads the tokens or stops in them. -/
inductive Decided (g : Goal) (ts : List Token) : Prop where
  | reads {e : Expr} {us : List Token} (h : Reads g ts e us)
  | stops {frames : List Frame} {t : Token} {us : List Token} (h : Stops g ts frames (t :: us))

theorem Decided.call {g g' : Goal} {ts us : List Token} {opened : List Frame} (h : Decided g' us)
    (hcall : Calls g ts opened g' us) (hreads : ∀ {e vs}, Reads g' us e vs → Decided g ts) :
    Decided g ts := by
  cases h with
  | reads h => exact hreads h
  | stops h => exact .stops (.call hcall h)

/-- Every production decides about fewer than `n` tokens. -/
def DecidedBelow (n : Nat) : Prop := ∀ g ts, Ended ts → ts.length < n → Decided g ts

section Step

variable {n : Nat} (ih : DecidedBelow n) {ts : List Token} (hts : Ended ts) (hn : ts.length ≤ n)

include ih hts hn

theorem decided_fields (value : Expr) : Decided (.fields value) ts := by
  obtain ⟨t, us, rfl⟩ := hts.exists_cons
  by_cases hdot : t.is .operator "."
  swap
  · exact .reads (.noField hdot)
  have hus := hts.of_cons (kind_of_is hdot)
  obtain ⟨property, us, rfl⟩ := hus.exists_cons
  by_cases hproperty : property.kind = .identifier ∨ property.kind = .operator
  swap
  · exact .stops (.dead (.property hdot hproperty))
  have hvs : Ended us := hproperty.elim (fun h => hus.of_cons h) fun h => hus.of_cons h
  have hfields := ih (.fields (.member (.at property.location) value
    (.identifier (.at property.location) property.value) false)) us hvs (by simp at hn; omega)
  exact hfields.call (.field hdot hproperty) fun h => .reads (.field hdot hproperty h)

theorem decided_operand : Decided .operand ts := by
  obtain ⟨t, us, rfl⟩ := hts.exists_cons
  rw [List.length_cons] at hn
  by_cases hstart : StartsOperand t
  swap
  · exact .stops (.dead (.operand hstart))
  rcases hstart with hsign | hopen | hname | hnumber | hstring
  · obtain ⟨power, hpower⟩ := Option.isSome_iff_exists.mp hsign
    have hus := hts.of_cons (kind_of_prefixPower? hpower)
    refine (ih (.expression power) us hus (by omega)).call (.signed hpower) fun {e vs} hinner => ?_
    have hlength : vs.length < us.length := hinner.length
    exact (ih _ vs (hinner.ended hus) (by omega)).call (.prefixed hpower hinner)
      fun h => .reads (.prefixed hpower hinner h)
  · have hus := hts.of_cons (kind_of_is hopen)
    refine (ih (.expression 0) us hus (by omega)).call (.bracket hopen) fun {e vs} hinner => ?_
    have hvs := hinner.ended hus
    have hlength : vs.length < us.length := hinner.length
    obtain ⟨close, ws, rfl⟩ := hvs.exists_cons
    by_cases hclose : close.is .bracket ")"
    · rw [List.length_cons] at hlength
      exact (ih _ ws (hvs.of_cons (kind_of_is hclose)) (by omega)).call
        (.bracketed hopen hinner hclose) fun h => .reads (.bracketed hopen hinner hclose h)
    · exact .stops (.dead (.unclosed hopen hinner hclose))
  · have hus := hts.of_cons hname
    cases hconstant : constant? t with
    | some e =>
      obtain ⟨u, us, rfl⟩ := hus.exists_cons
      exact .reads (.constant hname hconstant)
    | none =>
      exact (ih _ us hus (by omega)).call (.name hname hconstant)
        fun h => .reads (.name hname hconstant h)
  · obtain ⟨u, us, rfl⟩ := (hts.of_cons hnumber).exists_cons
    cases hvalue : Numeral.readInteger? t.value with
    | some value => exact .reads (.number hnumber hvalue)
    | none => exact .stops (.dead (.number hnumber hvalue))
  · exact (ih _ us (hts.of_cons hstring) (by omega)).call (.string hstring)
      fun h => .reads (.string hstring h)

/-- Where an operator is ahead. -/
theorem decided_offered {least : Nat} {ahead : Ahead} {us : List Token} (left : Expr)
    (hoffers : Offers least ts ahead us) : Decided (.operators least left) ts := by
  have hus := hoffers.ended hts
  have hlength := hoffers.length
  by_cases hcomparison : Operator.isComparison ahead.token.value
  · refine (ih _ us hus (by omega)).call (.chain hoffers hcomparison) fun {e vs} hchain => ?_
    have hlength : vs.length < us.length := hchain.length
    exact (ih _ vs (hchain.ended hus) (by omega)).call (.chained hoffers hcomparison hchain)
      fun h => .reads (.comparison hoffers hcomparison hchain h)
  · refine (ih _ us hus (by omega)).call (.right hoffers hcomparison) fun {e vs} hright => ?_
    have hlength : vs.length < us.length := hright.length
    exact (ih _ vs (hright.ended hus) (by omega)).call (.joined hoffers hcomparison hright)
      fun h => .reads (.binary hoffers hcomparison hright h)

theorem decided_operators (least : Nat) (left : Expr) : Decided (.operators least left) ts := by
  obtain ⟨t, us, rfl⟩ := hts.exists_cons
  by_cases hkind : t.kind = .operator
  swap
  · exact .reads (.stop (.kind hkind))
  by_cases hnot : t.value = "not"
  swap
  · cases hahead : Ahead.ofToken? least t none with
    | some ahead => exact decided_offered ih hts hn left (.plain hkind hnot hahead)
    | none => exact .reads (.stop (.plain hkind hnot hahead))
  obtain ⟨relation, us, rfl⟩ := (hts.of_cons hkind).exists_cons
  by_cases hrelation : isNegatable relation
  · cases hahead : Ahead.ofToken? least relation (some t.location) with
    | some ahead => exact decided_offered ih hts hn left (.negated hkind hnot hrelation hahead)
    | none => exact .reads (.stop (.negated hkind hnot hrelation hahead))
  · exact .stops (.dead (.relation ⟨hkind, hnot⟩ (Bool.eq_false_iff.mpr hrelation)))

theorem decided_expression (least : Nat) : Decided (.expression least) ts := by
  refine (decided_operand ih hts hn).call .operand fun {left us} hleft => ?_
  have hlength : us.length < ts.length := hleft.length
  exact (ih _ us (hleft.ended hts) (by omega)).call (.operators hleft)
    fun h => .reads (.expression hleft h)

theorem decided_chain (power : Nat) (left : Expr) (token : Token) (before : Option Expr) :
    Decided (.chain power left token before) ts := by
  refine (decided_expression ih hts hn (power + 1)).call .comparand fun {right us} hright => ?_
  have hus := hright.ended hts
  have hlength : us.length < ts.length := hright.length
  obtain ⟨next, us, rfl⟩ := hus.exists_cons
  rw [List.length_cons] at hlength
  by_cases hnext : isComparison next
  · exact (ih _ us (hus.of_cons (kind_of_isComparison hnext)) (by omega)).call
      (.comparison hright hnext) fun h => .reads (.chainMore hright hnext h)
  · exact .reads (.chainEnd hright hnext)

end Step

/-- **Every production reads the tokens or stops in them.** -/
theorem decided (g : Goal) {ts : List Token} (hts : Ended ts) : Decided g ts := by
  -- a production calls others on the same tokens only down to an operand, which reads some
  have hall : ∀ n, DecidedBelow n := by
    intro n
    induction n with
    | zero => exact fun _ _ _ h => absurd h (Nat.not_lt_zero _)
    | succ n ih =>
      intro g ts hts hn
      have hn := Nat.le_of_lt_succ hn
      cases g with
      | expression least => exact decided_expression ih hts hn least
      | operators least left => exact decided_operators ih hts hn least left
      | operand => exact decided_operand ih hts hn
      | chain power left token before => exact decided_chain ih hts hn power left token before
      | fields value => exact decided_fields ih hts hn value
  exact hall _ g ts hts (Nat.lt_succ_self _)

/-! ### Not both -/

/-- The tokens hold no blank. -/
def Solid (ts : List Token) : Prop := ∀ t ∈ ts, t.isBlank = false

theorem solid_solid (ts : List Token) : Solid (solid ts) := by
  intro t ht
  simpa using (List.mem_filter.mp ht).2

theorem Solid.solid_eq {ts : List Token} (h : Solid ts) : solid ts = ts := by
  rw [solid, List.filter_eq_self]
  intro t ht
  rw [h t ht]
  rfl

/-- A reader with these tokens in view. -/
theorem Solid.clear {t : Token} {ts : List Token} (h : Solid (t :: ts)) (frames : List Frame) :
    Clear { current := t, rest := ts, frames } (t :: ts) frames where
  inView := by
    refine ⟨?_, rfl⟩
    have hts : Solid ts := fun u hu => h u (.tail _ hu)
    rw [Reader.view, hts.solid_eq]
  last := by
    rw [Reader.last]
    cases hlast : ts.getLast? with
    | none => exact h t (.head _)
    | some u => exact h u (.tail _ (List.mem_of_getLast? hlast))
  frames := rfl

/-- **What is read is one tree.** -/
theorem Reads.unique {g : Goal} {ts us vs : List Token} {e e' : Expr} (h : Reads g ts e us)
    (h' : Reads g ts e' vs) (hts : Solid ts) : e = e' ∧ us = vs := by
  obtain ⟨t, ts, rfl⟩ := List.exists_cons_of_ne_nil h.ne_nil
  -- both are what one and the same run does
  have hclear := hts.clear []
  obtain ⟨N, hN⟩ := h.run
  obtain ⟨M, hM⟩ := h'.run
  obtain ⟨s, hs, hat⟩ := hN (N + M) (by omega) .abort _ hclear.inView
  obtain ⟨s', hs', hat'⟩ := hM (N + M) (by omega) .abort _ hclear.inView
  rw [hs] at hs'
  cases hs'
  exact ⟨rfl, hat.1.symm.trans hat'.1⟩

/-- **No production reads the tokens and stops in them.** -/
theorem Stops.not_reads {g : Goal} {ts us vs : List Token} {frames : List Frame} {t : Token}
    {e : Expr} (h : Stops g ts frames (t :: us)) (hts : Solid ts) : ¬ Reads g ts e vs := by
  intro h'
  obtain ⟨u, ts, rfl⟩ := List.exists_cons_of_ne_nil h.ne_nil
  have hclear := hts.clear (g.start [])
  obtain ⟨N, hN⟩ := h.breaks
  obtain ⟨M, hM⟩ := h'.run
  obtain ⟨s, f, hs, -⟩ := hN (N + M) (by omega) [] _ hclear
  obtain ⟨s', hs', -⟩ := hM (N + M) (by omega) .abort _ hclear.inView
  rw [hs] at hs'
  cases hs'

end Grammar

/-! ### Whole texts -/

open Grammar

/-- Reading a whole text stops at the head of the last list, with these productions open. -/
inductive Halts (ts : List Token) : List Frame → List Token → Prop where
  /-- inside of its expression -/
  | inside {frames : List Frame} {us : List Token} (h : Stops (.expression 0) ts frames us) :
      Halts ts frames us
  /-- behind its expression, where something else than the end is -/
  | behind {t : Token} {us : List Token} {e : Expr} (h : Reads (.expression 0) ts e (t :: us))
      (ht : ¬ t.EndsText) : Halts ts [] (t :: us)

/-- A whole text is read to an end. -/
def ReadsText (ts : List Token) (e : Expr) : Prop :=
  ∃ t us, Reads (.expression 0) ts e (t :: us) ∧ t.EndsText

/-- **A whole text is read or it halts.** -/
theorem reads_or_halts {ts : List Token} (h : Ended ts) :
    (∃ e, ReadsText ts e) ∨ ∃ frames t us, Halts ts frames (t :: us) := by
  cases decided (.expression 0) h with
  | @reads e us hreads =>
    obtain ⟨t, us, rfl⟩ := (hreads.ended h).exists_cons
    by_cases ht : t.EndsText
    · exact .inl ⟨e, t, us, hreads, ht⟩
    · exact .inr ⟨_, _, _, .behind hreads ht⟩
  | stops hstops => exact .inr ⟨_, _, _, .inside hstops⟩

/-- No text is read and halts. -/
theorem Halts.not_readsText {ts us : List Token} {frames : List Frame} {t : Token} {e : Expr}
    (h : Halts ts frames (t :: us)) (hts : Solid ts) : ¬ ReadsText ts e := by
  rintro ⟨u, vs, hreads, hu⟩
  cases h with
  | inside h => exact h.not_reads hts hreads
  | behind h ht =>
    obtain ⟨-, heq⟩ := h.unique hreads hts
    cases heq
    exact ht hu

/-- The whole text breaks off where it halts. -/
theorem Halts.breaks {ts us : List Token} {frames : List Frame} {t : Token}
    (h : Halts ts frames (t :: us)) :
    ∃ N, ∀ n, N ≤ n → Breaks (Grammar.text .abort n) ts [] t frames := by
  cases h with
  | inside h =>
    obtain ⟨N, hN⟩ := h.breaks
    refine ⟨N, fun n hn => ?_⟩
    have hexpression := hN n hn []
    rw [List.append_nil] at hexpression
    exact hexpression.bind _
  | behind h ht =>
    obtain ⟨N, hN⟩ := h.gets_same id
    refine ⟨N, fun n hn => (hN n hn []).breaks ((gets_current _ _ _).breaks ?_)⟩
    rw [if_pos (by rw [Token.EndsText] at ht; tauto)]
    exact (breaks_complain _ t _ _).bind _

/-- A strict reading of a text that halts breaks off there. -/
theorem runParser_of_halts {tokens us : List Token} {frames : List Frame} {t last : Token}
    (hlast : tokens.getLast? = some last) (hblank : last.isBlank = false)
    (h : Halts (solid tokens) frames (t :: us)) :
    ∃ s f, runParser .abort tokens = .broken s ∧ s.fault = some f ∧ f.location = t.location ∧
      s.frames = frames := by
  cases hdrop : tokens.dropWhile Token.isBlank with
  | nil =>
    rw [List.dropWhile_eq_nil_iff] at hdrop
    rw [hdrop last (List.mem_of_getLast? hlast)] at hblank
    cases hblank
  | cons token rest =>
    obtain ⟨N, hN⟩ := h.breaks
    have hclear : Clear { current := token, rest } (solid tokens) [] := by
      refine ⟨⟨(solid_eq_view hdrop).symm, rfl⟩, ?_, rfl⟩
      obtain ⟨front, hfront⟩ : (token :: rest) <:+ tokens := hdrop ▸ List.dropWhile_suffix _
      rw [← hfront, List.getLast?_append, List.getLast?_cons] at hlast
      cases hlast
      exact hblank
    obtain ⟨s, f, hs, hrest⟩ := hN (N + parserFuel tokens.length) (Nat.le_add_right _ _) _ hclear
    refine ⟨s, f, ?_, hrest⟩
    rw [← readText_eq_runParser .abort (Nat.le_add_left _ N), readText, hdrop]
    exact hs

/-- **The strict reading stops where the text halts**, with the productions that are open there. -/
theorem parseStrict_of_halts {tokens us : List Token} {frames : List Frame} {t last : Token}
    (hlast : tokens.getLast? = some last) (hblank : last.isBlank = false)
    (h : Halts (solid tokens) frames (t :: us)) :
    ∃ stop, parseStrict tokens = .error stop ∧ stop.fault.location = t.location ∧
      stop.frames = frames := by
  obtain ⟨s, f, hs, hfault, hlocation, hframes⟩ := runParser_of_halts hlast hblank h
  refine ⟨⟨f, frames⟩, ?_, hlocation, rfl⟩
  rw [parseStrict, hs]
  simp only [hfault, hframes, Option.getD_some]

/-- **The strict reading gives the tree of a derived text.** -/
theorem parseStrict_of_reads {tokens us : List Token} {e : Expr} {t : Token}
    (hterminates : Terminates tokens) (h : Reads (.expression 0) (solid tokens) e (t :: us))
    (ht : t.EndsText) : parseStrict tokens = .ok e := by
  have hparse := parse_of_reads h ht
  rcases sound_or_faulty hterminates with ⟨tree, r, hrun, hr, htree⟩ | ⟨r, f, -, -, hfault⟩
  · rw [hparse] at htree
    cases htree
    rw [parseStrict, hrun]
    simp only [hr]
  · rw [hparse] at hfault
    cases hfault

/-- **The first fault is where the text halts.** -/
theorem parse_of_halts {tokens us : List Token} {frames : List Frame} {t last : Token}
    (hterminates : Terminates tokens) (hlast : tokens.getLast? = some last)
    (hblank : last.isBlank = false) (h : Halts (solid tokens) frames (t :: us)) :
    ∃ f, (parse tokens).fault = some f ∧ f.location = t.location := by
  obtain ⟨s, f, hs, hfault, hlocation, -⟩ := runParser_of_halts hlast hblank h
  rcases sound_or_faulty hterminates with ⟨tree, r, hrun, -⟩ | ⟨r, f', hrun, hr, hparse⟩
  · rw [hs] at hrun
    cases hrun
  · rw [hs] at hrun
    cases hrun
    rw [hfault] at hr
    cases hr
    exact ⟨f, hparse, hlocation⟩

/-- What is read without a fault is read to an end. -/
theorem readsText_of_parse {tokens : List Token} {e : Expr} (h : parse tokens = ⟨some e, none⟩) :
    ReadsText (solid tokens) e := by
  have hterminates : Terminates tokens := by
    rw [terminates_iff]
    intro hspent
    rw [parse, hspent] at h
    cases h
  obtain ⟨tree, t, us, htree, hreads, ht⟩ := reads_of_parse hterminates (by rw [h])
  rw [h] at htree
  cases htree
  exact ⟨t, us, hreads, ht⟩

/-- A text that halts is not read without a fault. -/
theorem parse_ne_of_halts {tokens us : List Token} {frames : List Frame} {t : Token}
    (h : Halts (solid tokens) frames (t :: us)) (e : Expr) : parse tokens ≠ ⟨some e, none⟩ :=
  fun hparse => h.not_readsText (solid_solid tokens) (readsText_of_parse hparse)

end FilterLang
