import FilterLang.Completion
import FilterLang.Proofs.Grammar.Verdict

/-!
# Blank tokens are not read

Reading moves over blank tokens, so that two lists which differ in nothing else are read alike.  The
exception is a blank token at the very end: where the tokens run out the last one of all is at hand,
whatever it is.

* `Reader.Like` — readers that differ in blank tokens only, and end with the same token.
* `Alike` — outcomes that differ in such readers only.
* `Blind` — actions whose outcomes on readers that are like each other are alike, if the fuel of the
  first one suffices.
* `respects_blind` — the basic actions are blind, and so is the grammar.
* `alike_runParser` — lists that differ in blank tokens are read alike.
* `parse_solid` — reading the tokens that are not blank.
-/

namespace FilterLang

/-! ### Readers and outcomes -/

/-- Readers that differ in blank tokens only. -/
structure Reader.Like (r s : Reader) : Prop where
  current : r.current = s.current
  behind : solid r.rest = solid s.rest
  /-- where the tokens run out, this one comes to be at hand -/
  last : r.last = s.last
  fault : r.fault = s.fault
  frames : r.frames = s.frames

theorem Reader.Like.withFrames {r s : Reader} (h : r.Like s) {frames frames' : List Frame}
    (hframes : frames = frames') : (r.withFrames frames).Like (s.withFrames frames') :=
  ⟨h.current, h.behind, h.last, h.fault, hframes⟩

theorem Reader.Like.symm {r s : Reader} (h : r.Like s) : s.Like r :=
  ⟨h.current.symm, h.behind.symm, h.last.symm, h.fault.symm, h.frames.symm⟩

/-- Outcomes that differ in blank tokens only. -/
inductive Alike {α : Type} : Outcome α → Outcome α → Prop where
  | done (value : α) {r s : Reader} (h : r.Like s) : Alike (.done value r) (.done value s)
  | broken {r s : Reader} (h : r.Like s) : Alike (.broken r) (.broken s)
  | spent : Alike .spent .spent

theorem Alike.symm {α : Type} {x y : Outcome α} (h : Alike x y) : Alike y x := by
  cases h with
  | done value h => exact .done value h.symm
  | broken h => exact .broken h.symm
  | spent => exact .spent

/-- Two lists with the same tokens that are not blank start with the same one of them. -/
theorem solid_cases {ts us : List Token} (h : solid ts = solid us) :
    ts.dropWhile Token.isBlank = [] ∧ us.dropWhile Token.isBlank = [] ∨
      ∃ t vs ws, ts.dropWhile Token.isBlank = t :: vs ∧ us.dropWhile Token.isBlank = t :: ws ∧
        solid vs = solid ws := by
  cases hts : ts.dropWhile Token.isBlank with
  | nil =>
    cases hus : us.dropWhile Token.isBlank with
    | nil => exact .inl ⟨rfl, rfl⟩
    | cons u ws =>
      rw [solid_eq_nil hts, solid_eq_cons hus] at h
      cases h
  | cons t vs =>
    cases hus : us.dropWhile Token.isBlank with
    | nil =>
      rw [solid_eq_cons hts, solid_eq_nil hus] at h
      cases h
    | cons u ws =>
      rw [solid_eq_cons hts, solid_eq_cons hus] at h
      obtain ⟨rfl, hsolid⟩ := List.cons_eq_cons.mp h
      exact .inr ⟨t, vs, ws, rfl, rfl, hsolid⟩

namespace Grammar

variable {α β : Type}

/-! ### Blind actions -/

/-- Two actions whose outcomes differ in blank tokens only, on readers that do so, if the fuel of the
first one suffices. -/
def Blind (α : Type) (a b : Grammar α) : Prop :=
  ∀ r s, r.Like s → a r = .spent ∨ Alike (a r) (b s)

theorem blind_bind {a b : Grammar α} {f g : α → Grammar β} (hab : Blind α a b)
    (hfg : ∀ value, Blind β (f value) (g value)) : Blind β (a >>= f) (b >>= g) := by
  intro r s h
  rcases hab r s h with hspent | halike
  · exact .inl (bind_spent hspent f)
  rw [bind_apply a f, bind_apply b g]
  generalize a r = x, b s = y at halike
  cases halike with
  | done value h => exact hfg value _ _ h
  | broken h => exact .inr (.broken h)
  | spent => exact .inl rfl

theorem blind_pure (value : α) : Blind α (pure value) (pure value) :=
  fun _ _ h => .inr (.done value h)

theorem blind_current : Blind Token current current := by
  intro r s h
  refine .inr ?_
  rw [current, current, h.current]
  exact .done _ h

theorem blind_sound : Blind Bool sound sound := by
  intro r s h
  refine .inr ?_
  rw [sound, sound, h.fault]
  exact .done _ h

theorem like_note {r s : Reader} (h : r.Like s) (fault : ParseFault) (location : Location) :
    (note fault location r).Like (note fault location s) :=
  ⟨h.current, h.behind, h.last, congrArg (Option.or · _) h.fault, h.frames⟩

theorem blind_complain (policy : Policy) (fault : ParseFault) (location : Location) :
    Blind Unit (complain policy fault location) (complain policy fault location) := by
  intro r s h
  cases policy with
  | collect => exact .inr (.done () (like_note h fault location))
  | abort => exact .inr (.broken (like_note h fault location))

theorem blind_fail (fault : ParseFault) (location : Location) :
    Blind α (fail fault location) (fail fault location) :=
  fun _ _ h => .inr (.broken (like_note h fault location))

/-- **Moving on** comes to the same token, or to the last one of all with the same fault. -/
theorem blind_advance (policy : Policy) : Blind Unit (advance policy) (advance policy) := by
  intro r s h
  rw [advance_eq, advance_eq]
  rcases solid_cases h.behind with ⟨hr, hs⟩ | ⟨t, vs, ws, hr, hs, hsolid⟩
  · rw [hr, hs, h.last]
    have hend : (r.moveTo s.last []).Like (s.moveTo s.last []) :=
      ⟨rfl, rfl, rfl, h.fault, h.frames⟩
    exact blind_complain policy _ _ _ _ hend
  · have hlast : (r.moveTo t vs).last = (s.moveTo t ws).last := by
      rw [r.last_moveTo_of_suffix (hr ▸ List.dropWhile_suffix _),
        s.last_moveTo_of_suffix (hs ▸ List.dropWhile_suffix _), h.last]
    rw [hr, hs]
    exact .inr (.done () ⟨rfl, hsolid, hlast, h.fault, h.frames⟩)

/-- **Looking for an operator**: behind a `not` that is put back both readers are as they were. -/
theorem blind_operatorAhead (policy : Policy) (least : Nat) :
    Blind (Option Ahead) (operatorAhead policy least) (operatorAhead policy least) := by
  intro r s h
  by_cases hkind : r.current.kind = .operator
  swap
  · rw [operatorAhead_of_kind policy least hkind,
      operatorAhead_of_kind policy least (h.current ▸ hkind)]
    exact .inr (.done none h)
  by_cases hnot : r.current.value = "not"
  swap
  · rw [operatorAhead_of_ne_not policy least hkind hnot,
      operatorAhead_of_ne_not policy least (h.current ▸ hkind) (h.current ▸ hnot), h.current]
    exact .inr (.done _ h)
  rw [operatorAhead_of_not policy least hkind hnot,
    operatorAhead_of_not policy least (h.current ▸ hkind) (h.current ▸ hnot)]
  rcases blind_advance policy r s h with hspent | halike
  · exact absurd hspent (advance_ne_spent policy r)
  generalize advance policy r = x, advance policy s = y at halike
  cases halike with
  | spent => exact .inl rfl
  | broken h' => exact .inr (.broken h')
  | @done _ r' s' h' =>
    have hback : (r'.moveTo r.current r.rest).Like (s'.moveTo s.current s.rest) :=
      ⟨h.current, h.behind, h.last, h'.fault, h'.frames⟩
    dsimp only
    rw [afterNot, afterNot, h'.current, congrArg Token.location h.current]
    split
    · split
      · exact .inr (.done _ h')
      · exact .inr (.done none hback)
    · exact blind_bind (blind_complain policy _ _) (fun _ => blind_pure none) r' s' h'

theorem blind_retarget (left : Expr) (operator : String) :
    Blind Unit (retarget left operator) (retarget left operator) := by
  intro r s h
  refine .inr ?_
  rw [retarget, retarget, h.frames]
  split
  · exact .done () (h.withFrames rfl)
  · exact .done () h

/-- **The basic actions are blind.** -/
theorem respects_blind (policy : Policy) : Respects policy policy Blind where
  outOfFuel _ := fun _ _ _ => .inl rfl
  pure := blind_pure
  bind := blind_bind
  current := blind_current
  sound := blind_sound
  complain := blind_complain policy
  fail := blind_fail
  advance := blind_advance policy
  operatorAhead := blind_operatorAhead policy
  enter frame := fun _ _ h => .inr (.done () (h.withFrames (congrArg (frame :: ·) h.frames)))
  leave := fun _ _ h => .inr (.done () (h.withFrames (congrArg List.tail h.frames)))
  retarget := blind_retarget

end Grammar

/-! ### Lists of tokens -/

open Grammar

section Lists

variable {ts us : List Token} (hsolid : solid ts = solid us) (hlast : ts.getLast? = us.getLast?)

include hsolid hlast

theorem blind_readText (policy : Policy) (fuel : Nat) :
    readText policy fuel ts = .spent ∨ Alike (readText policy fuel ts) (readText policy fuel us) := by
  rw [readText, readText]
  rcases solid_cases hsolid with ⟨hts, hus⟩ | ⟨t, vs, ws, hts, hus, hbehind⟩
  · rw [hts, hus]
    exact .inr (.broken ⟨rfl, rfl, rfl, rfl, rfl⟩)
  · rw [hts, hus]
    refine ((Grammar.respects_blind policy).text (Nat.le_refl fuel)) _ _ ⟨rfl, hbehind, ?_, rfl, rfl⟩
    rw [getLast?_of_dropWhile hts, getLast?_of_dropWhile hus] at hlast
    exact Option.some.inj hlast

/-- **Lists that differ in blank tokens are read alike**, if they end with the same token.  Each is
read with the fuel that it has, which comes to the same as the fuel of both. -/
theorem alike_runParser (policy : Policy) : Alike (runParser policy ts) (runParser policy us) := by
  have hts := readText_eq_runParser policy
    (Nat.le_add_right (parserFuel ts.length) (parserFuel us.length))
  have hus := readText_eq_runParser policy
    (Nat.le_add_left (parserFuel us.length) (parserFuel ts.length))
  have hforth := blind_readText hsolid hlast policy (parserFuel ts.length + parserFuel us.length)
  have hback := blind_readText hsolid.symm hlast.symm policy
    (parserFuel ts.length + parserFuel us.length)
  rw [hts, hus] at hforth hback
  rcases hforth with hspent | halike
  · -- then the other reading is out of fuel as well, or it would be like this one
    rw [hspent] at hback ⊢
    rcases hback with hspent | halike
    · rw [hspent]
      exact .spent
    · exact halike.symm
  · exact halike

theorem terminates_congr : Terminates ts ↔ Terminates us := by
  rw [terminates_iff, terminates_iff]
  have halike := alike_runParser hsolid hlast .collect
  generalize runParser .collect ts = x, runParser .collect us = y at halike
  cases halike <;> simp

theorem parse_congr : parse ts = parse us := by
  rw [parse, parse]
  have halike := alike_runParser hsolid hlast .collect
  generalize runParser .collect ts = x, runParser .collect us = y at halike
  cases halike with
  | done value h => exact congrArg (Parse.mk (some value)) h.fault
  | broken h => exact congrArg (Parse.mk none) h.fault
  | spent => rfl

theorem parseStrict_congr : parseStrict ts = parseStrict us := by
  rw [parseStrict, parseStrict]
  have halike := alike_runParser hsolid hlast .abort
  generalize runParser .abort ts = x, runParser .abort us = y at halike
  cases halike with
  | done value h =>
    dsimp only
    rw [h.fault, h.frames]
  | broken h =>
    dsimp only
    rw [h.fault, h.frames]
  | spent => rfl

end Lists

theorem getLast?_solid {tokens : List Token}
    (h : ∀ t, tokens.getLast? = some t → t.kind ≠ .whitespace) :
    (solid tokens).getLast? = tokens.getLast? := by
  cases hlast : tokens.getLast? with
  | none =>
    rw [List.getLast?_eq_none_iff.mp hlast]
    rfl
  | some t =>
    obtain ⟨front, rfl⟩ := List.getLast?_eq_some_iff.mp hlast
    rw [solid_append, solid_cons (h t hlast)]
    exact List.getLast?_concat

/-- **Blank tokens are invisible to reading.**  A list whose last token is not blank is read like the
list of its tokens that are not: one reading comes to an end just where the other does, and both
policies come to the same tree, fault and open productions.  So a completion, which leaves the blanks
out, asks what the tokens in front of the cursor ask for as they stand. -/
theorem parse_solid {tokens : List Token}
    (hlast : ∀ t, tokens.getLast? = some t → t.kind ≠ .whitespace) :
    (Terminates (solid tokens) ↔ Terminates tokens) ∧
      parse (solid tokens) = parse tokens ∧
      parseStrict (solid tokens) = parseStrict tokens ∧
      ∀ column, parseStrict (Completion.completeTokens column tokens ++ [Completion.caret column]) =
        parseStrict (Cursor.tokensUntil column tokens ++ [Completion.caret column]) := by
  have hsolid : solid (solid tokens) = solid tokens := (solid_solid tokens).solid_eq
  have hsame := getLast?_solid hlast
  refine ⟨terminates_congr hsolid hsame, parse_congr hsolid hsame, parseStrict_congr hsolid hsame,
    fun column => parseStrict_congr ?_ ?_⟩
  · rw [solid_append, solid_append, Completion.completeTokens]
    exact congrArg (· ++ solid [Completion.caret column]) (solid_solid _).solid_eq
  · rw [List.getLast?_concat, List.getLast?_concat]

/-- The blanks around a `not` that waits for its right side do not count. -/
theorem parse_solid_negation :
    let gap (column : Nat) : Token := .ofText .whitespace " " ⟨1, column⟩
    let tokens : List Token :=
      [.ofText .identifier "a" ⟨1, 0⟩, gap 1, .ofText .operator "not" ⟨1, 2⟩, gap 5,
        .ofText .operator "in" ⟨1, 6⟩, gap 8, .ofText .caret "" ⟨1, 9⟩]
    (∀ t, tokens.getLast? = some t → t.kind ≠ .whitespace) ∧ (solid tokens).length = 4 ∧
      Terminates (solid tokens) ∧ parse (solid tokens) = parse tokens ∧
      parseStrict (solid tokens) = parseStrict tokens := by
  intro gap tokens
  have hlast : ∀ t, tokens.getLast? = some t → t.kind ≠ .whitespace := by
    rintro t ⟨⟩
    decide
  obtain ⟨hterminates, hparse, hstrict, -⟩ := parse_solid hlast
  exact ⟨hlast, rfl, hterminates.mpr (terminates_of_last rfl rfl), hparse, hstrict⟩

end FilterLang
