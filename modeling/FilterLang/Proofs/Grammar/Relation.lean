import FilterLang.Proofs.Grammar.Reader

/-!
# Two runs of the grammar

Many properties of the grammar compare two of its runs: under both policies, or with two amounts of
fuel.  Such a property is a relation between actions.  Where the basic actions respect it and it
passes from actions to what is built from them, the whole grammar respects it.

* `Respects` — the basic actions respect a relation, under two policies, and so do sequences.
* `Respects.fields`, `Respects.secondary` and `Respects.productions` — then every production does,
  also when the second run has more fuel.
* `respects_extends` — more fuel keeps every outcome but the lack of fuel.
-/

namespace FilterLang

namespace Grammar

variable {α β : Type}

/-- **Respected relations.**  The basic actions under two policies respect a relation, the lack of
fuel is related to everything, and sequences of related actions are related. -/
structure Respects (p q : Policy) (R : ∀ α : Type, Grammar α → Grammar α → Prop) : Prop where
  outOfFuel {α : Type} (b : Grammar α) : R α outOfFuel b
  pure {α : Type} (value : α) : R α (pure value) (pure value)
  bind {α β : Type} {a b : Grammar α} {f g : α → Grammar β} (hab : R α a b)
    (hfg : ∀ value, R β (f value) (g value)) : R β (a >>= f) (b >>= g)
  current : R Token current current
  sound : R Bool sound sound
  complain (fault : ParseFault) (location : Location) :
    R Unit (complain p fault location) (complain q fault location)
  fail (fault : ParseFault) (location : Location) :
    R Expr (fail fault location) (fail fault location)
  advance : R Unit (advance p) (advance q)
  operatorAhead (least : Nat) : R (Option Ahead) (operatorAhead p least) (operatorAhead q least)
  enter (frame : Frame) : R Unit (enter frame) (enter frame)
  leave : R Unit leave leave
  retarget (left : Expr) (operator : String) :
    R Unit (retarget left operator) (retarget left operator)

namespace Respects

variable {p q : Policy} {R : ∀ α : Type, Grammar α → Grammar α → Prop}

theorem fields (h : Respects p q R) {m n : Nat} (hmn : m ≤ n) (value : Expr) :
    R Expr (Grammar.fields p m value) (Grammar.fields q n value) := by
  induction m generalizing n value with
  | zero => exact h.outOfFuel _
  | succ m ih =>
    obtain ⟨n, rfl⟩ : ∃ k, n = k + 1 := ⟨n - 1, by omega⟩
    rw [Grammar.fields, Grammar.fields]
    refine h.bind h.current fun token => h.bind h.sound fun _ => ?_
    split
    · refine h.bind (h.enter _) fun _ => h.bind h.advance fun _ => h.bind h.current fun property =>
        h.bind h.advance fun _ => ?_
      have hrest : R Expr
          (do
            Grammar.leave
            Grammar.fields p m (.member (.at property.location) value
              (.identifier (.at property.location) property.value) false))
          (do
            Grammar.leave
            Grammar.fields q n (.member (.at property.location) value
              (.identifier (.at property.location) property.value) false)) :=
        h.bind h.leave fun _ => ih (by omega) _
      dsimp only
      split
      · exact h.bind (h.complain _ _) fun _ => hrest
      · exact hrest
    · exact h.pure _

theorem secondary (h : Respects p q R) {m n : Nat} (hmn : m ≤ n) :
    R Expr (Grammar.secondary p m) (Grammar.secondary q n) := by
  have hfields : ∀ value, R Expr (secondary.withFields p m value) (secondary.withFields q n value) :=
    fun value => h.bind (h.enter _) fun _ => h.bind (h.fields hmn value) fun _ =>
      h.bind h.leave fun _ => h.pure _
  refine h.bind h.current fun token => ?_
  dsimp only
  split
  · refine h.bind h.advance fun _ => ?_
    split
    · exact h.pure _
    split
    · exact h.pure _
    split
    · exact h.pure _
    exact hfields _
  · refine h.bind h.advance fun _ => ?_
    split
    · exact h.pure _
    · exact h.bind (h.complain _ _) fun _ => h.pure _
  · exact h.bind h.advance fun _ => hfields _
  · exact h.fail _ _

theorem closeBracket (h : Respects p q R) : R Unit (Grammar.closeBracket p) (Grammar.closeBracket q) := by
  refine h.bind h.current fun token => ?_
  split
  · exact h.advance
  · exact h.complain _ _

/-- **The grammar respects what its basic actions respect.** -/
theorem productions (h : Respects p q R) {m n : Nat} (hmn : m ≤ n) :
    (∀ least, R Expr (expression p m least) (expression q n least)) ∧
    (∀ least left, R Expr (operators p m least left) (operators q n least left)) ∧
    R Expr (operand p m) (operand q n) ∧
    (∀ power left token before,
      R Expr (chain p m power left token before) (chain q n power left token before)) := by
  induction m generalizing n with
  | zero =>
    refine ⟨fun _ => ?_, fun _ _ => ?_, ?_, fun _ _ _ _ => ?_⟩
    · rw [expression]
      exact h.outOfFuel _
    · rw [operators]
      exact h.outOfFuel _
    · rw [operand]
      exact h.outOfFuel _
    · rw [chain]
      exact h.outOfFuel _
  | succ m ih =>
    obtain ⟨n, rfl⟩ : ∃ k, n = k + 1 := ⟨n - 1, by omega⟩
    obtain ⟨hexpression, hoperators, hoperand, hchain⟩ := ih (n := n) (by omega)
    have hmn : m ≤ n := by omega
    refine ⟨fun least => ?_, fun least left => ?_, ?_, fun power left token before => ?_⟩
    · rw [expression, expression]
      exact h.bind hoperand fun left => hoperators least left
    · rw [operators, operators]
      refine h.bind h.sound fun _ => ?_
      split
      · refine h.bind (h.operatorAhead least) fun ahead => ?_
        split
        · refine h.bind (h.enter _) fun _ => h.bind h.advance fun _ => ?_
          split
          · exact h.bind (hchain _ _ _ _) fun joined => h.bind h.leave fun _ => hoperators _ _
          · exact h.bind (hexpression _) fun right => h.bind h.leave fun _ => hoperators _ _
        · exact h.pure _
      · exact h.pure _
    · rw [operand, operand]
      refine h.bind h.current fun token => ?_
      split
      · exact h.bind (h.enter _) fun _ => h.bind h.advance fun _ => h.bind (hexpression _) fun _ =>
          h.bind (h.fields hmn _) fun _ => h.bind h.leave fun _ => h.pure _
      · split
        · exact h.bind (h.enter _) fun _ => h.bind h.advance fun _ => h.bind (hexpression _) fun _ =>
            h.bind h.closeBracket fun _ => h.bind h.leave fun _ => h.fields hmn _
        · exact h.secondary hmn
    · rw [chain, chain]
      refine h.bind (hexpression _) fun right => ?_
      dsimp only
      refine h.bind h.current fun next => h.bind h.sound fun _ => ?_
      split
      · exact h.bind (h.retarget _ _) fun _ => h.bind h.advance fun _ => hchain _ _ _ _
      · exact h.pure _

theorem text (h : Respects p q R) {m n : Nat} (hmn : m ≤ n) :
    R Expr (Grammar.text p m) (Grammar.text q n) := by
  refine h.bind ((h.productions hmn).1 0) fun value => h.bind h.current fun token => ?_
  dsimp only
  split
  · exact h.bind (h.complain _ _) fun _ => h.pure _
  · exact h.pure _

end Respects

/-! ### More fuel -/

/-- Where one action has enough fuel, the other does the same. -/
def Extends (α : Type) (a b : Grammar α) : Prop :=
  ∀ r, a r = .spent ∨ b r = a r

theorem extends_refl (a : Grammar α) : Extends α a a := fun _ => .inr rfl

theorem respects_extends (policy : Policy) : Respects policy policy Extends where
  outOfFuel _ _ := .inl rfl
  pure _ := extends_refl _
  bind {_ _ a b f g} hab hfg r := by
    rcases hab r with h | h
    · exact .inl (bind_spent h f)
    · rw [bind_apply a f, bind_apply b g, h]
      cases a r with
      | done value r' => exact hfg value r'
      | broken r' => exact .inr rfl
      | spent => exact .inl rfl
  current := extends_refl _
  sound := extends_refl _
  complain _ _ := extends_refl _
  fail _ _ := extends_refl _
  advance := extends_refl _
  operatorAhead _ := extends_refl _
  enter _ := extends_refl _
  leave := extends_refl _
  retarget _ _ := extends_refl _

end Grammar

end FilterLang
