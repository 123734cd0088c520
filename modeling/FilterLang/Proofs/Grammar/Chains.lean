import FilterLang.Proofs.Grammar.Precedence

/-!
# Chains of comparisons

Comparisons in a row are no nested comparisons.  `a < b <= c` compares every operand with the one in
front of it and joins these comparisons by conjunctions, from the left.

* `Comparison` — a comparison operator with the operand behind it.
* `comparisons` — the comparisons of a chain one by one, and `conjunction`, what joins them.
* `chainTree` — the tree of a chain.
* `reads_comparisons` — the production of a chain reads it to the end.
* `reads_chain` — so does an expression, and it goes on behind it with the chain as its left side.
* `parse_chain` — both for whole texts: the chain alone, and in front of another relation.
-/

namespace FilterLang

open Grammar

/-! ### The tree of a chain -/

/-- A comparison operator with the operand behind it. -/
structure Comparison where
  operator : Token
  /-- the tokens of the operand -/
  operand : List Token
  /-- the tree of the operand -/
  tree : Expr
  isOperator : operator.kind = .operator
  isComparison : operator.value ∈ ["<", ">", "<=", ">="]
  isOperand : Operand operand tree

namespace Comparison

/-- The tokens of a comparison. -/
def tokens (c : Comparison) : List Token := c.operator :: c.operand

/-- The comparison behind its left side. -/
def behind (c : Comparison) (left : Expr) : Expr :=
  .binary (.at c.operator.location) c.operator.value left c.tree

theorem isComparison_value (c : Comparison) : Operator.isComparison c.operator.value := by
  have h := c.isComparison
  rw [Operator.isComparison, Operator.comparisons, List.contains_iff_mem]
  exact h

/-- A comparison is what its token says. -/
theorem operator_reads (c : Comparison) : Says [c.operator] ⟨c.operator, 20, none⟩ :=
  .plain c.isOperator (Operator.binaryPower_of_isComparison c.isComparison_value)

end Comparison

/-- The comparisons of a chain behind `left`: each operand is compared with the one in front. -/
def comparisons (left : Expr) : List Comparison → List Expr
  | [] => []
  | c :: cs => c.behind left :: comparisons c.tree cs

/-- Expressions that are joined by conjunctions from the left.  A conjunction stands where its right
side does. -/
def conjunction (first : Expr) (others : List Expr) : Expr :=
  others.foldl (fun before next => .binary (.at next.location) "&&" before next) first

/-- The tree of a chain of one comparison or more. -/
def chainTree (left : Expr) (c : Comparison) (cs : List Comparison) : Expr :=
  conjunction (c.behind left) (comparisons c.tree cs)

/-! ### The tokens are read as the tree -/

/-- The tokens of an operand are read up to an operator that is too weak for it. -/
theorem Operand.reads {ts rest : List Token} {e : Expr} {least : Nat} (h : Operand ts e)
    (hrefuses : Refuses least rest) (hdot : NoDot rest) :
    Reads (.expression least) (solid ts ++ rest) e rest :=
  (h.parses .atom).whole trivial trivial hrefuses hdot

theorem solid_tokens (c : Comparison) (cs : List Comparison) :
    solid ((c :: cs).flatMap Comparison.tokens) =
      c.operator :: solid (c.operand ++ cs.flatMap Comparison.tokens) :=
  solid_cons (kind_ne c.isOperator) _

section Chain

variable {rest : List Token} (hrefuses : Refuses 21 rest) (hcomparison : NoComparison rest)
  (hdot : NoDot rest)

include hrefuses hcomparison hdot

/-- **A chain is read to its end.**  The induction is on the comparisons that are still to come; the
conjunction of those that have been read grows with each of them. -/
theorem reads_comparisons (left : Expr) (c : Comparison) (cs : List Comparison)
    (before : Option Expr) :
    Reads (.chain 20 left c.operator before)
      (solid (c.operand ++ cs.flatMap Comparison.tokens) ++ rest)
      (conjunction (conjoin before c.operator left c.tree) (comparisons c.tree cs)) rest := by
  induction cs generalizing left c before with
  | nil =>
    have hright : Reads (.expression 21) (solid c.operand ++ rest) c.tree rest :=
      c.isOperand.reads hrefuses hdot
    have hne : rest ≠ [] := by cases hrefuses <;> nofun
    obtain ⟨next, us, rfl⟩ := List.exists_cons_of_ne_nil hne
    rw [List.flatMap_nil, List.append_nil]
    exact .chainEnd hright (hcomparison next us rfl)
  | cons d ds ih =>
    rw [solid_append, solid_tokens, List.append_assoc]
    -- the operand ends in front of the next comparison, which binds no more tightly
    have hrefuses := d.operator_reads.refuses (Nat.lt_succ_self 20)
      (solid (d.operand ++ ds.flatMap Comparison.tokens) ++ rest)
    have hright := c.isOperand.reads hrefuses (d.operator_reads.noDot _)
    have hnext : Grammar.isComparison d.operator := by
      rw [Grammar.isComparison, d.isOperator, d.isComparison_value]
      rfl
    exact .chainMore hright hnext (ih c.tree d (some (conjoin before c.operator left c.tree)))

/-- **An expression that starts with a chain** goes on behind it, with the chain as its left side. -/
theorem reads_chain {ts us : List Token} {first e : Expr} (hfirst : Operand ts first)
    (c : Comparison) (cs : List Comparison)
    (hoperators : Reads (.operators 0 (chainTree first c cs)) rest e us) :
    Reads (.expression 0) (solid (ts ++ (c :: cs).flatMap Comparison.tokens) ++ rest) e us := by
  have hchain := reads_comparisons hrefuses hcomparison hdot first c cs none
  have hoffers := c.operator_reads.offers (Nat.zero_le 20)
    (solid (c.operand ++ cs.flatMap Comparison.tokens) ++ rest)
  rw [solid_append, List.append_assoc, solid_tokens]
  exact hfirst.parses .atom trivial trivial (c.operator_reads.noDot _)
    (.comparison hoffers c.isComparison_value hchain hoperators)

end Chain

/-! ### Whole texts -/

/-- The relations that bind like comparisons and form no chains. -/
def plainRelations : List String :=
  ["==", "!=", "in", "matches", "contains", "startsWith", "endsWith"]

theorem Link.power_of_plainRelation {link : Link} (h : link.operator.value ∈ plainRelations) :
    link.power = 20 := by
  have hall : ∀ operator ∈ plainRelations, Operator.binaryPower operator = some 20 := by decide
  have hpower := link.power_eq
  rw [hall _ h] at hpower
  exact (Option.some.inj hpower).symm

/-- **Chains of comparisons.**  Operands with comparisons between them are read without a fault, as
the conjunctions of the comparisons of neighbours.  Another relation behind them takes the whole of
it as its left side. -/
theorem parse_chain {ts : List Token} {first : Expr} (hfirst : Operand ts first) (c : Comparison)
    (cs : List Comparison) {last : Token} (hlast : last.kind = .eof) :
    parse (ts ++ (c :: cs).flatMap Comparison.tokens ++ [last]) =
        ⟨some (chainTree first c cs), none⟩ ∧
      ∀ link : Link, link.operator.value ∈ plainRelations →
        parse (ts ++ (c :: cs).flatMap Comparison.tokens ++ link.tokens ++ [last]) =
          ⟨some (.binary (.at link.operator.location) link.operator.value (chainTree first c cs)
            link.tree), none⟩ := by
  have hend : last.EndsText := .inl hlast
  have hplain : last.kind ≠ .operator := kind_ne hlast
  have hstop : ∀ least, Refuses least [last] := fun _ => .kind hplain
  have hnoDot : NoDot [last] := fun hdot => hplain hdot.1
  refine ⟨?_, fun link hlink => ?_⟩
  · have hnoComparison : NoComparison [last] := (hstop 20).noComparison (Nat.le_refl _)
    have hreads := reads_chain (hstop 21) hnoComparison hnoDot hfirst c cs (.stop (hstop 0))
    rw [← solid_append_end hend] at hreads
    exact parse_of_reads hreads hend
  · have hpower := link.power_of_plainRelation hlink
    have htoken : Says [link.operator] ⟨link.operator, link.power, none⟩ :=
      .plain link.isOperator link.power_eq
    have hright := link.isOperand.reads (hstop (link.power + 1)) hnoDot
    have hoperators : Reads (.operators 0 (chainTree first c cs))
        (link.operator :: (solid link.operand ++ [last]))
        (.binary (.at link.operator.location) link.operator.value (chainTree first c cs) link.tree)
        [last] :=
      .binary (htoken.offers (Nat.zero_le _) _) link.isPlain hright (.stop (hstop 0))
    have hrefuses : Refuses 21 (link.operator :: (solid link.operand ++ [last])) :=
      htoken.refuses (Nat.lt_succ_of_le hpower.le) _
    have hreads := reads_chain hrefuses (htoken.noComparison link.isPlain _) (htoken.noDot _) hfirst
      c cs hoperators
    have htokens : solid (ts ++ (c :: cs).flatMap Comparison.tokens ++ link.tokens ++ [last]) =
        solid (ts ++ (c :: cs).flatMap Comparison.tokens) ++
          link.operator :: (solid link.operand ++ [last]) := by
      rw [solid_append_end hend, solid_append, Link.tokens, solid_cons (kind_ne link.isOperator),
        List.append_assoc]
      rfl
    rw [← htokens] at hreads
    exact parse_of_reads hreads hend

/-- The tokens `(a) < (b) <= (c)` are read as `a < b && b <= c`, and `(a) < (b) <= (c) == (d)` as the
equation of that with `d`. -/
theorem parse_chain_between :
    let opening (column : Nat) : Token := .ofText .bracket "(" ⟨1, column⟩
    let closing (column : Nat) : Token := .ofText .bracket ")" ⟨1, column⟩
    let name (letter : String) (column : Nat) : Token := .ofText .identifier letter ⟨1, column⟩
    let tree (letter : String) (column : Nat) : Expr := .identifier (.at ⟨1, column⟩) letter
    let less : Token := .ofText .operator "<" ⟨1, 4⟩
    let atMost : Token := .ofText .operator "<=" ⟨1, 10⟩
    let equals : Token := .ofText .operator "==" ⟨1, 17⟩
    let last : Token := .ofText .eof "" ⟨1, 23⟩
    let chain : List Token :=
      [opening 0, name "a" 1, closing 2, less, opening 6, name "b" 7, closing 8, atMost,
        opening 13, name "c" 14, closing 15]
    let both : Expr := .binary (.at ⟨1, 10⟩) "&&"
      (.binary (.at ⟨1, 4⟩) "<" (tree "a" 1) (tree "b" 7))
      (.binary (.at ⟨1, 10⟩) "<=" (tree "b" 7) (tree "c" 14))
    Operand [opening 0, name "a" 1, closing 2] (tree "a" 1) ∧ last.kind = .eof ∧
      parse (chain ++ [last]) = ⟨some both, none⟩ ∧
      equals.value ∈ plainRelations ∧
      parse (chain ++ [equals, opening 20, name "d" 21, closing 22] ++ [last]) =
        ⟨some (.binary (.at ⟨1, 17⟩) "==" both (tree "d" 21)), none⟩ := by
  intro opening closing name tree less atMost equals last chain both
  have hlast : last.kind = .eof := rfl
  have hname : ∀ letter column, (name letter column).kind = .identifier := fun _ _ => rfl
  have hnoEnd : ∀ letter column, NoEnd [name letter column] :=
    fun letter column => noEnd_nil.cons_of_kind (hname letter column)
  have ha : Operand [opening 0, name "a" 1, closing 2] (tree "a" 1) :=
    .bracketed rfl (hnoEnd "a" 1) hlast rfl rfl
  have hb : Operand [opening 6, name "b" 7, closing 8] (tree "b" 7) :=
    .bracketed rfl (hnoEnd "b" 7) hlast rfl rfl
  have hc : Operand [opening 13, name "c" 14, closing 15] (tree "c" 14) :=
    .bracketed rfl (hnoEnd "c" 14) hlast rfl rfl
  have hd : Operand [opening 20, name "d" 21, closing 22] (tree "d" 21) :=
    .bracketed rfl (hnoEnd "d" 21) hlast rfl rfl
  have hequals : equals.value ∈ plainRelations := by decide
  obtain ⟨hchain, hrelation⟩ := parse_chain ha ⟨less, _, _, rfl, by decide, hb⟩
    [⟨atMost, _, _, rfl, by decide, hc⟩] hlast
  exact ⟨ha, hlast, hchain, hequals, hrelation ⟨equals, 20, _, _, rfl, rfl, by decide, hd⟩ hequals⟩

end FilterLang
