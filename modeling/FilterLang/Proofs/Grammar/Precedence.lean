import FilterLang.Proofs.Grammar.Lookahead
import FilterLang.Proofs.Printing.RoundTrip

/-!
# Climbing through the powers

Operands with binary operators between them are read one operator after the other.  What comes of it
is the tree that the powers of the operators prescribe: its root is the last of the weakest ones.

* `Operand` — the tokens of an operand that needs no operator, and its tree.
* `Link` — a binary operator with the operand behind it.  Comparisons are left out, since they form
  chains.
* `Grouped` — the tree of an operand and the links behind it, with the root at the last of the
  weakest operators.
* `exists_grouped` — there is such a tree.
* `Grouped.parses` — the tokens are read as it.
* `parse_grouped` — both for whole texts.
-/

namespace FilterLang

open Grammar

/-! ### Operands and links -/

/-- The tokens of an operand, and its tree. -/
inductive Operand : List Token → Expr → Prop where
  | name {t : Token} (hkind : t.kind = .identifier) : Operand [t] (nameTree t)
  | string {t : Token} (hkind : t.kind = .string) : Operand [t] (.string (.at t.location) t.value)
  | number {t : Token} {value : Int} (hkind : t.kind = .number)
      (hvalue : Numeral.readInteger? t.value = some value) :
      Operand [t] (.integer (.at t.location) value)
  | bracketed {t close last : Token} {ts : List Token} {e : Expr} (hopen : t.is .bracket "(")
      (hnoEnd : NoEnd ts) (hlast : last.kind = .eof) (hparse : parse (ts ++ [last]) = ⟨some e, none⟩)
      (hclose : close.is .bracket ")") : Operand (t :: (ts ++ [close])) e

/-- A binary operator other than a comparison, with the operand behind it. -/
structure Link where
  operator : Token
  power : Nat
  /-- the tokens of the operand -/
  operand : List Token
  /-- the tree of the operand -/
  tree : Expr
  isOperator : operator.kind = .operator
  power_eq : Operator.binaryPower operator.value = some power
  isPlain : ¬ Operator.isComparison operator.value
  isOperand : Operand operand tree

/-- The tokens of a link. -/
def Link.tokens (link : Link) : List Token := link.operator :: link.operand

/-- **The tree of an operand and the links behind it.**  Its root is the last of the weakest
operators, and its children are the trees of what is on either side. -/
inductive Grouped : Expr → List Link → Expr → Prop where
  | operand (first : Expr) : Grouped first [] first
  | root {first left right : Expr} {before after : List Link} {link : Link}
      (hbefore : ∀ l ∈ before, link.power ≤ l.power) (hafter : ∀ l ∈ after, link.power < l.power)
      (hleft : Grouped first before left) (hright : Grouped link.tree after right) :
      Grouped first (before ++ link :: after)
        (.binary (.at link.operator.location) link.operator.value left right)

/-- Some operator is the last of the weakest. -/
theorem exists_last_weakest {links : List Link} (h : links ≠ []) :
    ∃ before link after, links = before ++ link :: after ∧
      (∀ l ∈ before, link.power ≤ l.power) ∧ ∀ l ∈ after, link.power < l.power := by
  induction links with
  | nil => exact absurd rfl h
  | cons first links ih =>
    by_cases hnil : links = []
    · subst hnil
      exact ⟨[], first, [], rfl, by simp, by simp⟩
    obtain ⟨before, link, after, rfl, hbefore, hafter⟩ := ih hnil
    -- the first operator is the root only where all the others bind more tightly
    by_cases hle : link.power ≤ first.power
    · refine ⟨first :: before, link, after, rfl, ?_, hafter⟩
      rintro l (_ | ⟨_, hl⟩)
      · exact hle
      · exact hbefore l hl
    · refine ⟨[], first, _, rfl, by simp, fun l hl => ?_⟩
      rcases List.mem_append.mp hl with hl | hl
      · have := hbefore l hl
        omega
      · cases hl with
        | head => omega
        | tail _ hl =>
          have := hafter l hl
          omega

/-- Every operand with links behind it has a tree. -/
theorem exists_grouped (links : List Link) (first : Expr) : ∃ e, Grouped first links e := by
  by_cases hnil : links = []
  · subst hnil
    exact ⟨first, .operand first⟩
  obtain ⟨before, link, after, hlinks, hbefore, hafter⟩ := exists_last_weakest hnil
  have hlength : links.length = before.length + (after.length + 1) := by
    rw [hlinks, List.length_append, List.length_cons]
  obtain ⟨left, hleft⟩ := exists_grouped before first
  obtain ⟨right, hright⟩ := exists_grouped after link.tree
  rw [hlinks]
  exact ⟨_, .root hbefore hafter hleft hright⟩
termination_by links.length

/-! ### The tokens are read as the tree -/

/-- The tokens of an operand are read as its tree. -/
theorem Operand.parses {ts : List Token} {e : Expr} (h : Operand ts e) (binding : Binding) :
    Parses binding (solid ts) e := by
  cases h with
  | @name t hkind =>
    rw [solid_cons (kind_ne hkind)]
    intro least rest us v _ _ hdot hreads
    exact .expression (reads_name hkind hdot hreads.ne_nil) hreads
  | @string t hkind =>
    rw [solid_cons (kind_ne hkind)]
    have hholds : Holds [t] (.string (.at t.location) t.value) :=
      fun _ _ _ hfields => .string hkind hfields
    exact hholds.parses binding
  | @number t value hkind hvalue =>
    rw [solid_cons (kind_ne hkind)]
    exact parses_number hkind hvalue binding
  | @bracketed t close last ts e hopen hnoEnd hlast hparse hclose =>
    have hcloseKind := kind_of_is hclose
    rw [solid_cons (kind_ne (kind_of_is hopen)), solid_append, solid_cons (kind_ne hcloseKind)]
    have hholds : Holds (t :: (solid ts ++ [close])) e := by
      intro rest us v hfields
      -- the closing bracket stands where the text in the brackets had its end
      have hreads := reads_in_front (.inl hlast) hnoEnd hparse (kind_ne hcloseKind) rest
      have hassoc : t :: (solid ts ++ [close]) ++ rest = t :: (solid ts ++ close :: rest) := by simp
      rw [hassoc]
      exact .bracketed hopen hreads hclose hfields
    exact hholds.parses binding

/-- The tree of an operand with links holds together by the power of one of them. -/
def Binds (links : List Link) (binding : Binding) : Prop :=
  binding = .atom ∨ ∃ l ∈ links, binding = .ofOperator l.operator.value

theorem Link.binding_eq (l : Link) :
    Binding.ofOperator l.operator.value = .binary l.power false := by
  rw [ofOperator_eq l.power_eq, Bool.eq_false_iff.mpr l.isPlain]

theorem Binds.proper {links : List Link} {binding : Binding} (h : Binds links binding) :
    binding.Proper := by
  rcases h with rfl | ⟨l, -, rfl⟩
  · trivial
  · exact proper_ofOperator _

/-- **The tokens of an operand with links are read as their tree.**  On either side of the root the
operators bind tightly enough to need no brackets. -/
theorem Grouped.parses {ts : List Token} {first e : Expr} {links : List Link}
    (h : Grouped first links e) (hfirst : Operand ts first) :
    ∃ binding, Binds links binding ∧
      Parses binding (solid (ts ++ links.flatMap Link.tokens)) e := by
  induction h generalizing ts with
  | operand first =>
    rw [List.flatMap_nil, List.append_nil]
    exact ⟨.atom, .inl rfl, hfirst.parses .atom⟩
  | @root first left right before after link hbefore hafter _ _ ihleft ihright =>
    obtain ⟨leftBinding, hleftBinds, hleft⟩ := ihleft hfirst
    obtain ⟨rightBinding, hrightBinds, hright⟩ := ihright link.isOperand
    have hsays : Says [link.operator] ⟨link.operator, link.power, none⟩ :=
      .plain link.isOperator link.power_eq
    have hleftDue : leftBinding.needsBracketsLeftOf link.operator.value = false := by
      rcases hleftBinds with rfl | ⟨l, hl, rfl⟩
      · rfl
      · simp [l.binding_eq, Binding.needsBracketsLeftOf, link.power_eq, hbefore l hl]
    have hrightDue : rightBinding.needsBracketsRightOf link.operator.value = false := by
      rcases hrightBinds with rfl | ⟨l, hl, rfl⟩
      · rfl
      · simp [l.binding_eq, Binding.needsBracketsRightOf, link.power_eq, hafter l hl]
    have hparses := hsays.parses hleft hright hleftBinds.proper hrightBinds.proper hleftDue hrightDue
    refine ⟨_, .inr ⟨link, by simp, rfl⟩, ?_⟩
    have htokens : solid (ts ++ (before ++ link :: after).flatMap Link.tokens) =
        solid (ts ++ before.flatMap Link.tokens) ++
          ([link.operator] ++ solid (link.operand ++ after.flatMap Link.tokens)) := by
      have hoperator : link.operator.kind ≠ .whitespace := kind_ne link.isOperator
      rw [List.flatMap_append, List.flatMap_cons, ← List.append_assoc, solid_append, Link.tokens,
        List.cons_append, solid_cons hoperator]
      rfl
    rw [htokens]
    exact hparses

/-! ### Whole texts -/

/-- **Precedence climbing.**  Operands with binary operators between them, none of them a comparison,
are read without a fault.  What is read is the one tree whose root is the last of the weakest
operators and whose children are the trees of what is on either side. -/
theorem parse_grouped {ts : List Token} {first : Expr} (hfirst : Operand ts first)
    (links : List Link) {last : Token} (hlast : last.kind = .eof) :
    ∃ e, parse (ts ++ links.flatMap Link.tokens ++ [last]) = ⟨some e, none⟩ ∧
      ∀ tree, Grouped first links tree ↔ tree = e := by
  have hend : last.EndsText := .inl hlast
  have hparse : ∀ {e}, Grouped first links e →
      parse (ts ++ links.flatMap Link.tokens ++ [last]) = ⟨some e, none⟩ := by
    intro e he
    obtain ⟨binding, -, hparses⟩ := he.parses hfirst
    have hreads := hparses.closed (hend.closed []) []
    rw [← solid_append_end hend] at hreads
    exact parse_of_reads hreads hend
  obtain ⟨e, he⟩ := exists_grouped links first
  refine ⟨e, hparse he, fun tree => ⟨fun htree => ?_, fun htree => htree ▸ he⟩⟩
  have heq := (hparse htree).symm.trans (hparse he)
  injection heq with heq
  injection heq

/-- The tree of `a - (b) * 'c'` is the difference of `a` and a product. -/
theorem parse_grouped_difference :
    let a : Token := .ofText .identifier "a" ⟨1, 0⟩
    let b : Token := .ofText .identifier "b" ⟨1, 5⟩
    let c : Token := .ofText .string "c" ⟨1, 10⟩
    let minus : Token := .ofText .operator "-" ⟨1, 2⟩
    let times : Token := .ofText .operator "*" ⟨1, 8⟩
    let last : Token := .ofText .eof "" ⟨1, 11⟩
    let product : Expr := .binary (.at times.location) "*" (nameTree b) (.string (.at c.location) "c")
    Operand [a] (nameTree a) ∧ last.kind = .eof ∧
      parse [a, minus, .ofText .bracket "(" ⟨1, 4⟩, b, .ofText .bracket ")" ⟨1, 6⟩, times, c, last] =
        ⟨some (.binary (.at minus.location) "-" (nameTree a) product), none⟩ := by
  intro a b c minus times last product
  have ha : Operand [a] (nameTree a) := .name rfl
  have hlast : last.kind = .eof := rfl
  have hnoEnd : NoEnd [b] := noEnd_nil.cons_of_kind rfl
  have hparse : parse ([b] ++ [last]) = ⟨some (nameTree b), none⟩ := rfl
  have hb : Operand [.ofText .bracket "(" ⟨1, 4⟩, b, .ofText .bracket ")" ⟨1, 6⟩] (nameTree b) :=
    .bracketed rfl hnoEnd hlast hparse rfl
  have hc : Operand [c] (.string (.at c.location) "c") := .string rfl
  let difference : Link := ⟨minus, 30, _, _, rfl, rfl, by decide, hb⟩
  let factor : Link := ⟨times, 60, _, _, rfl, rfl, by decide, hc⟩
  obtain ⟨e, hparse, hgrouped⟩ := parse_grouped ha [difference, factor] hlast
  have hproduct : Grouped (nameTree b) ([] ++ factor :: []) product :=
    .root (by simp) (by simp) (.operand _) (.operand _)
  have htree : Grouped (nameTree a) ([] ++ difference :: [factor])
      (.binary (.at minus.location) "-" (nameTree a) product) :=
    .root (by simp) (by simp [difference, factor]) (.operand _) hproduct
  obtain rfl := (hgrouped _).mp htree
  exact ⟨ha, rfl, hparse⟩

end FilterLang
