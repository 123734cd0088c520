import FilterLang.Proofs.Scanner.Abreast
import Mathlib.Algebra.Order.Ring.Nat

/-!
# The tokens of a line

In a text without line feeds the tokens stand side by side, from the first column to the last.

* `InLine` — tokens side by side in front of a column, each as wide as its text.
* `stable_lined` — the scanner puts its tokens in line.
* `exists_inLine` — the tokens of a line, and the end token behind them.
* `InLine.sum_le` — the texts in a line leave room for each other.
-/

namespace FilterLang

/-- The tokens, the latest first, stand side by side in front of the column.  All but strings are as
wide as their texts. -/
def InLine : Nat → List Token → Prop
  | _, [] => True
  | column, token :: before =>
    token.endColumn ≤ column ∧ (token.kind ≠ .string → token.width = token.value.length) ∧
      InLine token.location.column before

theorem InLine.mono {column column' : Nat} {tokens : List Token} (h : InLine column tokens)
    (hle : column ≤ column') : InLine column' tokens := by
  cases tokens with
  | nil => trivial
  | cons token before => exact ⟨Nat.le_trans h.1 hle, h.2⟩

theorem InLine.endColumn_le {column : Nat} {tokens : List Token} (h : InLine column tokens) :
    ∀ token ∈ tokens, token.endColumn ≤ column := by
  induction tokens generalizing column with
  | nil => exact nofun
  | cons token before ih =>
    have hstart : token.location.column ≤ column := Nat.le_trans (Nat.le_add_right _ _) h.1
    exact List.forall_mem_cons.mpr
      ⟨h.1, fun other hother => Nat.le_trans (ih h.2.2 other hother) hstart⟩

/-- **The texts in a line leave room for each other.** -/
theorem InLine.sum_le {column : Nat} {tokens : List Token} (h : InLine column tokens)
    (hplain : ∀ token ∈ tokens, token.kind ≠ .string) :
    (tokens.map fun token => token.value.length).sum ≤ column := by
  induction tokens generalizing column with
  | nil => exact Nat.zero_le _
  | cons token before ih =>
    obtain ⟨hend, hwidth, hbefore⟩ := h
    obtain ⟨hkind, hplain⟩ := List.forall_mem_cons.mp hplain
    have hsum := ih hbefore hplain
    rw [Token.endColumn, hwidth hkind] at hend
    rw [List.map_cons, List.sum_cons]
    omega

namespace Scanner

variable {c : Nat}

/-- The scanner has put its tokens in line, on its way to the column `c` where the text ends. -/
structure Lined (c : Nat) (s : Scanner) : Prop where
  before : Before c [] s
  tokens : InLine s.start.column s.tokens

theorem Lined.start_le {s : Scanner} (h : Lined c s) : s.start.column ≤ s.here.column :=
  h.before.span ▸ Nat.le_add_right _ _

/-- **The tokens of a line are put in line.** -/
theorem stable_lined (c : Nat) : Stable (Lined c) where
  read h n := ⟨(stable_before c []).read h.before n, h.tokens⟩
  noteAt h location fault := ⟨(stable_before c []).noteAt h.before location fault, h.tokens⟩
  emitValue {s kind value} h hne hkind hvalue := {
    before := (stable_before c []).emitValue h.before hne hkind hvalue
    tokens := by
      refine ⟨Nat.le_of_eq h.before.span.symm, fun hstring => ?_, h.tokens⟩
      show s.lexeme.length = (String.ofList value).length
      rw [hvalue hstring, String.length_ofList] }
  skip segment h hdrops :=
    ⟨(stable_before c []).skip segment h.before hdrops, h.tokens.mono h.start_le⟩

/-- **The tokens of a line stand side by side**, up to the end of the text. -/
theorem exists_inLine {source : String} (hline : '\n' ∉ source.toList) :
    ∃ front last, (scan source).tokens = front ++ [last] ∧ last.kind = .eof ∧
      last.location.column = source.length ∧ InLine source.length front.reverse := by
  have hinit : Lined source.length { rest := source.toList } := {
    before := {
      line := by rwa [List.append_nil]
      span := rfl
      near := by
        rw [String.length_toList]
        exact Nat.zero_add _
      undivided := fun _ _ hd => nomatch hd }
    tokens := trivial }
  obtain ⟨t, hlined, hlexeme, hrest, hfinish⟩ := (stable_lined source.length).whole hinit
  have hcolumn : t.start.column = source.length := by
    have hspan := hlined.before.span
    have hnear := hlined.before.near
    rw [hlexeme] at hspan
    rw [hrest] at hnear
    exact hspan.symm.trans hnear
  have hinline := hlined.tokens
  rw [hcolumn, ← List.reverse_reverse t.tokens] at hinline
  let last : Token :=
    { kind := .eof, value := String.ofList t.lexeme, location := t.start, width := t.lexeme.length }
  refine ⟨t.tokens.reverse, last, ?_, rfl, hcolumn, hinline⟩
  rw [scan, scanChars_eq, hfinish]
  exact List.reverse_cons

end Scanner

end FilterLang
