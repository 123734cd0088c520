import FilterLang.Proofs.Grammar.Fuel

/-!
# Two policies, one reading

Up to the first fault reading does the same under both policies.  From there on `collect` may do
what it likes to the tree and the open productions, but it keeps the fault that `abort` stopped at.

* `Follows` — the outcome of `abort` follows from the outcome of any policy.
* `Agree` — actions under the two policies whose outcomes follow wherever no fault is noted yet.
* `respects_agree` — the basic actions agree, and so do all that are built from them.
* `parseStrict_eq_error_iff` — the strict reading stops with the fault and the open productions of
  the reader that it leaves.
* `parseStrict_agrees` — the two readings of a list of tokens.
-/

namespace FilterLang

namespace Grammar

variable {α β : Type}

/-- What an outcome under some policy says of the outcome under `abort`. -/
inductive Follows : Outcome α → Outcome α → Prop where
  /-- nothing, if it lacks fuel -/
  | spent (y : Outcome α) : Follows .spent y
  /-- the same, as long as there is no fault -/
  | sound {value : α} {r : Reader} (h : r.fault = none) : Follows (.done value r) (.done value r)
  /-- the same fault, once there is one -/
  | faulty {x : Outcome α} {r s : Reader} {f : Located ParseFault} (hx : x.reader? = some r)
      (hr : r.fault = some f) (hs : s.fault = some f) : Follows x (.broken s)

/-- An action that keeps the first fault. -/
def Keeps (a : Grammar α) : Prop :=
  ∀ r f, r.fault = some f → ∀ s, (a r).reader? = some s → s.fault = some f

/-- Two actions, under some policy and under `abort`, that do the same up to the first fault. -/
structure Agree (α : Type) (a b : Grammar α) : Prop where
  keeps : Keeps a
  follows : ∀ r, r.fault = none → Follows (a r) (b r)

theorem keeps_bind {a : Grammar α} {f : α → Grammar β} (ha : Keeps a)
    (hf : ∀ value, Keeps (f value)) : Keeps (a >>= f) := by
  intro r fault hr s hs
  cases h : a r with
  | done value t =>
    rw [bind_done h] at hs
    exact hf value t fault (ha r fault hr t (by rw [h]; rfl)) s hs
  | broken t =>
    rw [bind_broken h] at hs
    exact ha r fault hr s (by rw [h]; exact hs)
  | spent =>
    rw [bind_spent h] at hs
    cases hs

/-- **Sequences agree.**  The first part may note a fault and go on; the second part keeps it, and is
not run under `abort`. -/
theorem agree_bind {a b : Grammar α} {f g : α → Grammar β} (hab : Agree α a b)
    (hfg : ∀ value, Agree β (f value) (g value)) : Agree β (a >>= f) (b >>= g) where
  keeps := keeps_bind hab.keeps fun value => (hfg value).keeps
  follows r hr := by
    have h := hab.follows r hr
    rw [bind_apply a f, bind_apply b g]
    generalize a r = x, b r = y at h
    cases h with
    | spent y => exact .spent _
    | @sound value s hs => exact (hfg value).follows s hs
    | @faulty x s t fault hx hs ht =>
      cases x with
      | spent => cases hx
      | broken s' =>
        cases hx
        exact .faulty rfl hs ht
      | done value s' =>
        cases hx
        show Follows (f value s) (.broken t)
        cases hf : f value s with
        | spent => exact .spent _
        | done v u => exact .faulty rfl ((hfg value).keeps s fault hs u (by rw [hf]; rfl)) ht
        | broken u => exact .faulty rfl ((hfg value).keeps s fault hs u (by rw [hf]; rfl)) ht

/-- An action that notes no fault and does not look at the policy agrees with itself. -/
theorem agree_of_quiet {a : Grammar α} (h : ∀ r, ∃ value s, a r = .done value s ∧ s.fault = r.fault) :
    Agree α a a where
  keeps r f hr s hs := by
    obtain ⟨value, t, ht, hfault⟩ := h r
    rw [ht] at hs
    cases hs
    rw [hfault, hr]
  follows r hr := by
    obtain ⟨value, t, ht, hfault⟩ := h r
    rw [ht]
    exact .sound (hfault.trans hr)

theorem keeps_note {r : Reader} {f : Located ParseFault} (h : r.fault = some f) (fault : ParseFault)
    (location : Location) : (note fault location r).fault = some f := by
  show r.fault.or _ = some f
  rw [h]
  rfl

theorem fault_note {r : Reader} (h : r.fault = none) (fault : ParseFault) (location : Location) :
    (note fault location r).fault = some ⟨fault, location⟩ := by
  show r.fault.or _ = _
  rw [h]
  rfl

theorem agree_complain (policy : Policy) (fault : ParseFault) (location : Location) :
    Agree Unit (complain policy fault location) (complain .abort fault location) where
  keeps r f hr s hs := by
    cases policy <;> cases hs <;> exact keeps_note hr fault location
  follows r hr := by
    have hnote := fault_note hr fault location
    cases policy <;> exact .faulty rfl hnote hnote

theorem agree_fail (fault : ParseFault) (location : Location) :
    Agree Expr (fail fault location) (fail fault location) where
  keeps r f hr s hs := by
    cases hs
    exact keeps_note hr fault location
  follows r hr := .faulty rfl (fault_note hr fault location) (fault_note hr fault location)

theorem agree_advance (policy : Policy) : Agree Unit (advance policy) (advance .abort) where
  keeps r f hr s hs := (beyond_advance hs).fault f hr
  follows r hr := by
    rw [advance_eq, advance_eq]
    split
    · exact .sound hr
    · exact (agree_complain policy _ _).follows (r.moveTo r.last []) hr

theorem agree_operatorAhead (policy : Policy) (least : Nat) :
    Agree (Option Ahead) (operatorAhead policy least) (operatorAhead .abort least) := by
  have hpure : ∀ ahead : Option Ahead, Agree (Option Ahead) (pure ahead) (pure ahead) :=
    fun ahead => agree_of_quiet fun r => ⟨ahead, r, rfl, rfl⟩
  have hcurrent : Agree Token current current := agree_of_quiet fun r => ⟨_, r, rfl, rfl⟩
  refine agree_bind hcurrent fun token => ?_
  split
  · exact hpure none
  split
  · exact hpure _
  refine agree_bind (agree_of_quiet fun r => ⟨_, r, rfl, rfl⟩) fun rest =>
    agree_bind (agree_advance policy) fun _ => agree_bind hcurrent fun relation => ?_
  split
  · split
    · exact hpure _
    · exact agree_bind (agree_of_quiet fun r => ⟨_, _, rfl, rfl⟩) fun _ => hpure none
  · exact agree_bind (agree_complain policy _ _) fun _ => hpure none

/-- **The basic actions agree.** -/
theorem respects_agree (policy : Policy) : Respects policy .abort Agree where
  outOfFuel b := ⟨by rintro r f hr s ⟨⟩, fun r _ => .spent _⟩
  pure value := agree_of_quiet fun r => ⟨value, r, rfl, rfl⟩
  bind := agree_bind
  current := agree_of_quiet fun r => ⟨_, r, rfl, rfl⟩
  sound := agree_of_quiet fun r => ⟨_, r, rfl, rfl⟩
  complain := agree_complain policy
  fail := agree_fail
  advance := agree_advance policy
  operatorAhead := agree_operatorAhead policy
  enter frame := agree_of_quiet fun r => ⟨_, _, rfl, rfl⟩
  leave := agree_of_quiet fun r => ⟨_, _, rfl, rfl⟩
  retarget left operator := agree_of_quiet fun r => by
    rw [retarget]
    split
    · exact ⟨_, _, rfl, rfl⟩
    · exact ⟨_, r, rfl, rfl⟩

end Grammar

/-! ### Lists of tokens -/

/-- The outcomes for a list of tokens follow. -/
theorem runParser_follows (policy : Policy) (tokens : List Token) :
    Grammar.Follows (runParser policy tokens) (runParser .abort tokens) := by
  rw [runParser_eq_readText, runParser_eq_readText, readText, readText]
  split
  · exact .faulty rfl rfl rfl
  · exact ((Grammar.respects_agree policy).text (Nat.le_refl _)).follows _ rfl

/-- **The strict reading stops with what the reader holds** where it breaks off: its fault and its
open productions.  It breaks off just where it notes a fault, as its outcome follows from itself, and
it is never out of fuel. -/
theorem parseStrict_eq_error_iff {tokens : List Token} {stop : Interruption} :
    parseStrict tokens = .error stop ↔
      ∃ r, runParser .abort tokens = .broken r ∧ r.fault = some stop.fault ∧
        r.frames = stop.frames := by
  have hfollows := runParser_follows .abort tokens
  have hfuel : runParser .abort tokens ≠ .spent := by
    intro hspent
    obtain ⟨hcollect, -⟩ := (settled_readText .abort (Nat.le_refl _)).spent hspent
    cases hcollect
  rw [parseStrict]
  generalize runParser .abort tokens = x at hfollows hfuel
  cases x with
  | spent => exact absurd rfl hfuel
  | done tree r =>
    cases hfollows with
    | sound hr => simp [hr]
  | broken r =>
    cases hfollows with
    | faulty _ _ hr =>
      obtain ⟨fault, frames⟩ := stop
      simp [hr]

/-- Both readings give the same tree and note no fault, or both note the same one. -/
theorem sound_or_faulty {tokens : List Token} (h : Terminates tokens) :
    (∃ tree r, runParser .abort tokens = .done tree r ∧ r.fault = none ∧
      parse tokens = ⟨some tree, none⟩) ∨
    (∃ r f, runParser .abort tokens = .broken r ∧ r.fault = some f ∧
      (parse tokens).fault = some f) := by
  rw [terminates_iff] at h
  have hfollows := runParser_follows .collect tokens
  rw [parse]
  generalize runParser .collect tokens = x, runParser .abort tokens = y at h hfollows ⊢
  cases hfollows with
  | spent y => exact absurd rfl h
  | @sound tree r hr => exact .inl ⟨tree, r, rfl, hr, congrArg (Parse.mk (some tree)) hr⟩
  | @faulty x r s f hx hr hs =>
    refine .inr ⟨s, f, rfl, hs, ?_⟩
    cases x <;> cases hx <;> exact hr

/-- **The two readings agree.**  The strict one gives a tree just where the other notes no fault, and
then it is the same tree; otherwise it stops at the fault that the other notes first.  So there is
always a tree or a fault, and neither reading ever has to invent one. -/
theorem parseStrict_agrees {tokens : List Token} (h : Terminates tokens) :
    (∀ tree, parseStrict tokens = .ok tree ↔
      (parse tokens).fault = none ∧ (parse tokens).tree = some tree) ∧
    ((∃ tree, parseStrict tokens = .ok tree) ↔ (parse tokens).fault = none) ∧
    (∀ stop, parseStrict tokens = .error stop → (parse tokens).fault = some stop.fault) ∧
    (parse tokens).toExcept = (parseStrict tokens).mapError Interruption.fault ∧
    ¬ ((parse tokens).tree = none ∧ (parse tokens).fault = none) ∧
    runParser .abort tokens ≠ .spent ∧
    (∀ r, (runParser .abort tokens).reader? = some r → r.fault = none →
      ∃ tree, runParser .abort tokens = .done tree r) := by
  rw [parseStrict, Parse.toExcept]
  rcases sound_or_faulty h with ⟨tree, r, hrun, hr, hparse⟩ | ⟨r, f, hrun, hr, hparse⟩
  · rw [hrun, hparse]
    simp only [hr]
    refine ⟨fun _ => by simp, by simp, nofun, rfl, nofun, nofun, ?_⟩
    rintro s ⟨⟩ -
    exact ⟨tree, rfl⟩
  · rw [hrun, hparse]
    simp only [hr]
    refine ⟨fun _ => by simp, by simp, ?_, rfl, nofun, nofun, ?_⟩
    · rintro stop ⟨⟩
      rfl
    · rintro s ⟨⟩ hnone
      rw [hr] at hnone
      cases hnone

/-- In `-(9223372036854775808 b` an integer is out of range, its bracket is not closed, and a name is
left over.  The strict reading stops at the integer.  The other one goes on to a tree with another
integer in its place, and of its three faults it keeps that one. -/
theorem parseStrict_agrees_out_of_range :
    let tokens : List Token :=
      [.ofText .operator "-" ⟨1, 0⟩, .ofText .bracket "(" ⟨1, 1⟩,
        .ofText .number "9223372036854775808" ⟨1, 2⟩, .ofText .identifier "b" ⟨1, 22⟩,
        .ofText .eof "" ⟨1, 23⟩]
    let fault : Located ParseFault := ⟨.invalidInteger "9223372036854775808", ⟨1, 2⟩⟩
    let tree : Expr := .unary (.at ⟨1, 0⟩) "-" (.integer (.at ⟨1, 2⟩) 0)
    Terminates tokens ∧ parse tokens = ⟨some tree, some fault⟩ ∧
      ∃ stop, parseStrict tokens = .error stop ∧ stop.fault = fault := by
  intro tokens fault tree
  have h : Terminates tokens := terminates_of_last rfl rfl
  have hparse : parse tokens = ⟨some tree, some fault⟩ := rfl
  obtain ⟨-, hread, hstop, -⟩ := parseStrict_agrees h
  refine ⟨h, hparse, ?_⟩
  cases hstrict : parseStrict tokens with
  | ok found =>
    have hnone := hread.mp ⟨found, hstrict⟩
    rw [hparse] at hnone
    cases hnone
  | error stop =>
    have hfault := hstop stop hstrict
    rw [hparse] at hfault
    exact ⟨stop, rfl, (Option.some.inj hfault).symm⟩

end FilterLang
