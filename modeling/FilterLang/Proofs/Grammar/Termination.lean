import FilterLang.Proofs.Grammar.Indices
import FilterLang.Proofs.Grammar.Lookahead

/-!
# Reading comes to an end

Where the last token asks for an operand, reading past the faults may go on for ever
(`spent_of_opens`).  It gets there only if nothing stops it on the way, and what stops it is a token
that ends the text: no production reads over one without a fault, and behind a fault no production
asks for an operand any more.

* `HasEnd` — some token of a list ends the text, wherever it is.
* `Guarded` — a reader without a fault that has such a token in view.
* `Guarded.advance`, `Guarded.run` — moving on from another token, and every production that notes no
  fault, keep it.
* `productions_ne_spent` — on a guarded reader the fuel suffices for every production.
* `terminates_of_hasEnd` — so reading past the faults comes to an end.
* `reading_bounded` — when reading comes to an end, and that it never leaves the list.
-/

namespace FilterLang

namespace Grammar

open Reader

variable {α β : Type}

/-! ### An end in view -/

/-- Some token of the list ends the text. -/
def HasEnd (ts : List Token) : Prop := ∃ t ∈ ts, t.EndsText

/-- The tokens behind some that do not end the text. -/
theorem HasEnd.of_append {ts us : List Token} (h : HasEnd (ts ++ us)) (hts : NoEnd ts) :
    HasEnd us := by
  obtain ⟨t, ht, hend⟩ := h
  rcases List.mem_append.mp ht with ht | ht
  · exact absurd hend (hts t ht)
  · exact ⟨t, ht, hend⟩

theorem HasEnd.of_cons {t : Token} {ts : List Token} (h : HasEnd (t :: ts)) (ht : ¬ t.EndsText) :
    HasEnd ts :=
  HasEnd.of_append (show HasEnd ([t] ++ ts) from h) (noEnd_nil.cons ht)

theorem HasEnd.solid {ts : List Token} (h : HasEnd ts) : HasEnd (solid ts) := by
  obtain ⟨t, ht, hend⟩ := h
  refine ⟨t, List.mem_filter.mpr ⟨ht, ?_⟩, hend⟩
  rcases hend with hend | hend <;> rw [Token.isBlank, hend] <;> rfl

/-- A reader without a fault that has an end of the text in view. -/
structure Guarded (r : Reader) : Prop where
  sound : r.fault = none
  hasEnd : HasEnd r.view

variable {policy : Policy} {r s : Reader}

theorem Guarded.withFrames (h : Guarded r) (frames : List Frame) : Guarded (r.withFrames frames) :=
  ⟨h.sound, h.hasEnd⟩

/-- **Moving on** from a token that does not end the text is no fault, and keeps the end in view. -/
theorem Guarded.advance (h : Guarded r) (hs : advance policy r = .done () s)
    (hcurrent : ¬ r.current.EndsText) : Guarded s ∧ s.rest.length < r.rest.length := by
  have hbehind : HasEnd (solid r.rest) := HasEnd.of_cons h.hasEnd hcurrent
  obtain ⟨u, us, hus⟩ : ∃ u us, solid r.rest = u :: us := by
    obtain ⟨t, ht, -⟩ := hbehind
    exact List.exists_cons_of_ne_nil (List.ne_nil_of_mem ht)
  have hview : r.view = r.current :: u :: us := congrArg (r.current :: ·) hus
  obtain ⟨rest, hadvance, hrest⟩ := advance_of_view policy hview
  rw [hadvance] at hs
  cases hs
  have hguarded : Guarded (r.moveTo u rest) := by
    refine ⟨h.sound, ?_⟩
    show HasEnd (u :: solid rest)
    rw [hrest, ← hus]
    exact hbehind
  exact ⟨hguarded, length_lt_of_beyond (leaps_advance policy _ _ _ hadvance) hguarded.sound⟩

/-- **A production** that notes no fault has read over no end of the text. -/
theorem Guarded.run {g : Goal} {fuel : Nat} {e : Expr} (h : Guarded r)
    (hrun : g.run policy fuel r = .done e s) (hs : s.fault = none) : Guarded s := by
  obtain ⟨ws, hview, hws, -⟩ := (reads_of_run policy fuel hrun hs).replace
  have hend := h.hasEnd
  rw [hview] at hend
  exact ⟨hs, hend.of_append hws⟩

/-- An operator ahead is at hand, without a fault. -/
theorem Guarded.operatorAhead {least : Nat} {ahead : Ahead} (h : Guarded r)
    (hs : operatorAhead policy least r = .done (some ahead) s) :
    Guarded s ∧ s.current.kind = .operator ∧ s.rest.length ≤ r.rest.length := by
  by_cases hkind : r.current.kind = .operator
  swap
  · rw [operatorAhead_of_kind _ _ hkind] at hs
    cases hs
  by_cases hnot : r.current.value = "not"
  swap
  · rw [operatorAhead_of_ne_not _ _ hkind hnot] at hs
    injection hs with _ hs
    subst hs
    exact ⟨h, hkind, Nat.le_refl _⟩
  rw [operatorAhead_of_not _ _ hkind hnot] at hs
  cases hadvance : Grammar.advance policy r with
  | broken t =>
    rw [hadvance] at hs
    cases hs
  | spent =>
    rw [hadvance] at hs
    cases hs
  | done value t =>
    obtain ⟨ht, hlength⟩ := h.advance hadvance (not_endsText_of_kind hkind)
    rw [hadvance] at hs
    dsimp only at hs
    rw [afterNot] at hs
    split at hs
    · rename_i hrelation
      split at hs
      · cases hs
        exact ⟨ht, kind_of_isNegatable hrelation, Nat.le_of_lt hlength⟩
      · cases hs
    · obtain ⟨_, u, -, hs⟩ := bind_eq_done hs
      cases hs

theorem Guarded.retarget {left : Expr} {operator : String} (h : Guarded r)
    (hs : retarget left operator r = .done () s) :
    Guarded s ∧ s.current = r.current ∧ s.rest = r.rest := by
  rw [Grammar.retarget] at hs
  split at hs <;> cases hs <;> exact ⟨⟨h.sound, h.hasEnd⟩, rfl, rfl⟩

/-! ### Enough fuel for every production -/

theorem bind_ne_spent {a : Grammar α} {f : α → Grammar β} (ha : a r ≠ .spent)
    (hf : ∀ value s, a r = .done value s → f value s ≠ .spent) : (a >>= f) r ≠ .spent := by
  cases h : a r with
  | done value s =>
    rw [bind_done h]
    exact hf value s h
  | broken s =>
    rw [bind_broken h]
    nofun
  | spent => exact absurd h ha

theorem Settled.ne_spent {x y : Outcome α} (h : Settled False x y) : x ≠ .spent := h.spent

/-- With this fuel every production comes to an end on a guarded reader.  The operators behind a left
side also do where a fault has been noted. -/
structure Finishes (policy : Policy) (m : Nat) : Prop where
  expression (r : Reader) (least : Nat) (h : Guarded r) (hm : 4 * r.rest.length + 3 ≤ m) :
    Grammar.expression policy m least r ≠ .spent
  operators (r : Reader) (least : Nat) (left : Expr) (h : r.fault = none → Guarded r) (hpos : 0 < m)
    (hm : r.fault = none → 4 * r.rest.length + 5 ≤ m) :
    Grammar.operators policy m least left r ≠ .spent
  operand (r : Reader) (h : Guarded r) (hm : 4 * r.rest.length + 2 ≤ m) :
    Grammar.operand policy m r ≠ .spent
  chain (r : Reader) (power : Nat) (left : Expr) (token : Token) (before : Option Expr)
    (h : Guarded r) (hm : 4 * r.rest.length + 4 ≤ m) :
    Grammar.chain policy m power left token before r ≠ .spent

section Step

variable {m : Nat} (ih : Finishes policy m)

include ih

theorem Finishes.expression_succ (least : Nat) (h : Guarded r) (hm : 4 * r.rest.length + 3 ≤ m + 1) :
    Grammar.expression policy (m + 1) least r ≠ .spent := by
  rw [Grammar.expression]
  refine bind_ne_spent (ih.operand r h (by omega)) fun left s hs => ?_
  have hbeyond := leaps_operand policy m _ _ _ hs
  refine ih.operators s least left (h.run (g := .operand) hs) (by omega) fun hsound => ?_
  have := length_lt_of_beyond hbeyond hsound
  omega

/-- Behind the operators there are fewer tokens left, and so there are behind each right side. -/
theorem Finishes.operators_succ (least : Nat) (left : Expr) (h : r.fault = none → Guarded r)
    (hm : r.fault = none → 4 * r.rest.length + 5 ≤ m + 1) :
    Grammar.operators policy (m + 1) least left r ≠ .spent := by
  by_cases hsound : r.fault = none
  swap
  · rw [operators_of_faulty _ _ _ _ hsound]
    nofun
  have hm := hm hsound
  cases ha : Grammar.operatorAhead policy least r with
  | spent => exact absurd ha (settled_operatorAhead policy least r).ne_spent
  | broken s =>
    rw [operators_of_broken _ _ hsound ha]
    nofun
  | done ahead s =>
    cases ahead with
    | none =>
      rw [operators_of_none _ _ hsound ha]
      nofun
    | some ahead =>
      obtain ⟨hs, hkind, hle⟩ := (h hsound).operatorAhead ha
      rw [operators_of_some _ _ hsound ha]
      refine bind_ne_spent (advance_ne_spent _ _) fun _ u hu => ?_
      obtain ⟨hu, hlt⟩ := (hs.withFrames _).advance hu (not_endsText_of_kind hkind)
      rw [rest_withFrames] at hlt
      have hagain : ∀ v joined, Onward u v → (v.fault = none → Guarded v) →
          (leave >>= fun _ => Grammar.operators policy m least joined) v ≠ .spent := by
        intro v joined hv hguarded
        rw [leave_bind]
        refine ih.operators _ least joined (fun hsound => (hguarded hsound).withFrames _) (by omega)
          fun _ => ?_
        have := hv.length_le
        rw [rest_withFrames]
        omega
      split
      · refine bind_ne_spent (ih.chain u _ _ _ _ hu (by omega)) fun joined v hv => ?_
        exact hagain v joined (leads_run policy m (.chain _ _ _ _) u v (congrArg _ hv))
          (hu.run (g := .chain _ _ _ _) hv)
      · refine bind_ne_spent (ih.expression u _ hu (by omega)) fun right v hv => ?_
        exact hagain v _ (leaps_expression policy m _ _ _ _ hv).toOnward
          (hu.run (g := .expression _) hv)

theorem Finishes.operand_succ (h : Guarded r) (hm : 4 * r.rest.length + 2 ≤ m + 1) :
    Grammar.operand policy (m + 1) r ≠ .spent := by
  cases hsign : r.current.prefixPower? with
  | some power =>
    have hplain : ¬ r.current.EndsText := not_endsText_of_kind (kind_of_prefixPower? hsign)
    rw [operand_of_prefixed _ _ hsign]
    refine bind_ne_spent (advance_ne_spent _ _) fun _ s hs => ?_
    obtain ⟨hs, hlt⟩ := (h.withFrames _).advance hs hplain
    rw [rest_withFrames] at hlt
    refine bind_ne_spent (ih.expression s _ hs (by omega)) fun inner u hu => ?_
    have hle := (leaps_expression policy m _ _ _ _ hu).length_le
    refine bind_ne_spent ?_ fun value v _ => nofun
    exact (settled_fields (Nat.le_refl m) _ (by omega) fun _ => by omega).ne_spent
  | none =>
    by_cases hbracket : r.current.is .bracket "("
    swap
    · rw [operand_of_secondary _ _ hsign hbracket]
      exact (settled_secondary (Nat.le_refl m) (by omega)).ne_spent
    have hplain : ¬ r.current.EndsText := not_endsText_of_kind (kind_of_is hbracket)
    rw [operand_of_bracket _ _ hsign hbracket]
    refine bind_ne_spent (advance_ne_spent _ _) fun _ s hs => ?_
    obtain ⟨hs, hlt⟩ := (h.withFrames _).advance hs hplain
    rw [rest_withFrames] at hlt
    refine bind_ne_spent (ih.expression s _ hs (by omega)) fun inner u hu => ?_
    have hu := (leaps_expression policy m _ _ _ _ hu).length_le
    refine bind_ne_spent (settled_closeBracket u).ne_spent fun _ v hv => ?_
    have hv := (leads_closeBracket policy u v (congrArg _ hv)).length_le
    rw [leave_bind]
    exact (settled_fields (Nat.le_refl m) _ (by omega) fun _ => by
      rw [rest_withFrames]
      omega).ne_spent

theorem Finishes.chain_succ (power : Nat) (left : Expr) (token : Token) (before : Option Expr)
    (h : Guarded r) (hm : 4 * r.rest.length + 4 ≤ m + 1) :
    Grammar.chain policy (m + 1) power left token before r ≠ .spent := by
  rw [chain_eq]
  refine bind_ne_spent (ih.expression r _ h (by omega)) fun right s hs => ?_
  rw [current_bind, sound_bind]
  split
  · rename_i hnext
    rw [Bool.and_eq_true, Option.isNone_iff_eq_none] at hnext
    obtain ⟨hcomparison, hsound⟩ := hnext
    have hguarded := h.run (g := .expression _) hs hsound
    have hlength := length_lt_of_beyond (leaps_expression policy m _ _ _ _ hs) hsound
    refine bind_ne_spent (settled_retarget _ _ _).ne_spent fun _ u hu => ?_
    obtain ⟨hu, hcurrent, hrest⟩ := hguarded.retarget hu
    refine bind_ne_spent (advance_ne_spent _ _) fun _ v hv => ?_
    have hplain : ¬ u.current.EndsText := by
      rw [hcurrent]
      exact not_endsText_of_kind (kind_of_isComparison hcomparison)
    obtain ⟨hv, hlt⟩ := hu.advance hv hplain
    rw [hrest] at hlt
    exact ih.chain v _ _ _ _ hv (by omega)
  · nofun

end Step

/-- **The fuel suffices** for every production on a guarded reader, by induction on the fuel. -/
theorem productions_ne_spent (policy : Policy) (m : Nat) : Finishes policy m := by
  induction m with
  | zero =>
    refine ⟨fun _ _ _ _ => ?_, fun _ _ _ _ _ _ => ?_, fun _ _ _ => ?_, fun _ _ _ _ _ _ _ => ?_⟩ <;>
      omega
  | succ m ih =>
    exact ⟨fun _ => ih.expression_succ, fun _ least left h _ => ih.operators_succ least left h,
      fun _ => ih.operand_succ, fun _ => ih.chain_succ⟩

theorem text_ne_spent {m : Nat} (h : Guarded r) (hm : 4 * r.rest.length + 3 ≤ m) :
    text policy m r ≠ .spent := by
  refine bind_ne_spent ((productions_ne_spent policy m).expression r 0 h hm) fun value s _ => ?_
  rw [current_bind]
  split
  · exact bind_ne_spent (settled_complain policy _ _ s).ne_spent fun _ _ _ => nofun
  · nofun

end Grammar

/-! ### Lists of tokens -/

open Grammar

/-- **An end anywhere in the list** lets reading past its faults come to an end. -/
theorem terminates_of_hasEnd {tokens : List Token} (h : HasEnd tokens) : Terminates tokens := by
  refine ⟨parserFuel tokens.length, ?_⟩
  rw [readText]
  cases hdrop : tokens.dropWhile Token.isBlank with
  | nil =>
    intro h
    cases h
  | cons token rest =>
    have hguarded : Guarded { current := token, rest } := ⟨rfl, solid_eq_view hdrop ▸ h.solid⟩
    have hlength : (token :: rest).length ≤ tokens.length :=
      hdrop ▸ (List.dropWhile_suffix _).length_le
    rw [List.length_cons] at hlength
    refine text_ne_spent hguarded ?_
    show 4 * rest.length + 3 ≤ parserFuel tokens.length
    rw [parserFuel]
    omega

/-- A token opens an operand where it is a prefix operator or an opening bracket. -/
theorem Token.opens_iff (t : Token) : t.opens ↔ IsPrefix t ∨ t.is .bracket "(" := by
  rw [Token.opens, Bool.or_eq_true, Option.isSome_iff_exists, isPrefix_iff]

/-- **Reading comes to an end and stays in its list.**  A strict reading always comes to an end.
Reading past the faults does where some token ends the text, and where the last token is no prefix
operator and no opening bracket.  Under both policies, and however long a reading goes on, reading
by index comes to the same and asks for no token that is not there. -/
theorem reading_bounded (tokens : List Token) :
    runParser .abort tokens ≠ .spent ∧
      ((∃ t ∈ tokens, t.kind = .eof ∨ t.kind = .caret) ∨
          (∀ t, tokens.getLast? = some t → ¬ IsPrefix t ∧ ¬ t.is .bracket "(") →
        runParser .collect tokens ≠ .spent) ∧
      ∀ policy fuel, visitText policy fuel tokens ≠ .astray ∧
        (visitText policy fuel tokens).verdict = (readText policy fuel tokens).verdict := by
  refine ⟨fun hspent => ?_, ?_, fun policy fuel => visitText_spec policy fuel tokens⟩
  · obtain ⟨hcollect, -⟩ := (settled_readText .abort (Nat.le_refl _)).spent hspent
    cases hcollect
  rintro (hend | hlast)
  · exact (terminates_iff tokens).mp (terminates_of_hasEnd hend)
  · intro hspent
    obtain ⟨-, t, ht, hopens⟩ := (settled_readText .collect (Nat.le_refl _)).spent hspent
    obtain ⟨hsign, hbracket⟩ := hlast t ht
    exact (t.opens_iff.mp hopens).elim hsign hbracket

/-- An end that is read as a field stops a reading whose last token is a sign, and so does a name
behind a sign that has no end at all. -/
theorem reading_bounded_behind_sign :
    let minus (column : Nat) : Token := .ofText .operator "-" ⟨1, column⟩
    let field : List Token := [.ofText .identifier "a" ⟨1, 0⟩, .ofText .operator "." ⟨1, 1⟩]
    let last : Token := .ofText .eof "" ⟨1, 2⟩
    let name : Token := .ofText .identifier "b" ⟨1, 1⟩
    last.kind = .eof ∧ ¬ IsPrefix name ∧ ¬ name.is .bracket "(" ∧
      runParser .collect (field ++ [last, minus 2]) ≠ .spent ∧
      runParser .collect [minus 0, name] ≠ .spent := by
  intro minus field last name
  have hlast : last.kind = .eof := rfl
  have hsign : ¬ IsPrefix name := by
    rintro ⟨hkind, -⟩
    cases hkind
  have hbracket : ¬ name.is .bracket "(" := by decide
  refine ⟨hlast, hsign, hbracket, (reading_bounded (field ++ [last, minus 2])).2.1 (.inl ?_),
    (reading_bounded [minus 0, name]).2.1 (.inr ?_)⟩
  · exact ⟨last, by simp, .inl hlast⟩
  · rintro t ⟨⟩
    exact ⟨hsign, hbracket⟩

end FilterLang
