import FilterLang.Proofs.Grammar.Fuel
import FilterLang.Proofs.Scanner.Numbers

/-!
# Integer literals

* `scan_of_spells` — each spelling of an integer is one token.
* `parse_number` — a number by itself is an integer, or a zero with a fault.
* `parse_literal` — an integer literal denotes its value, up to the greatest integer.
-/

namespace FilterLang

open Grammar

/-- Each spelling of an integer is a number. -/
theorem isNumber_of_spells {base value : Nat} {cs : List Char}
    (h : Numeral.Spells base cs value) : Scanner.IsNumber cs := by
  refine .inl ⟨Scanner.exists_isDigit_of_spells h, fun s hrest => ?_⟩
  exact Scanner.readNumber_of_spells h (hrest.trans (List.append_nil cs).symm) nofun

/-- **Each spelling of an integer is one token**, and there is no fault in it. -/
theorem scan_of_spells {base value : Nat} {text : String}
    (h : Numeral.Spells base text.toList value) :
    scan text = ⟨[.ofText .number text .origin,
      .ofText .eof "" (Location.origin.advance text.toList)], none⟩ :=
  scan_number (isNumber_of_spells h)

/-- Where no operator is at hand, the left side is all there is. -/
theorem operators_of_kind (policy : Policy) (fuel least : Nat) (left : Expr) {r : Reader}
    (h : r.current.kind ≠ .operator) : operators policy (fuel + 1) least left r = .done left r := by
  by_cases hfault : r.fault = none
  · exact operators_of_none fuel left hfault (operatorAhead_of_kind policy least h)
  · exact operators_of_faulty policy fuel least left hfault

/-- **A number by itself** is an integer.  Where it denotes none that fits, the fault is at its
place. -/
theorem parse_number {literal last : Token} (hliteral : literal.kind = .number)
    (hlast : last.kind = .eof) :
    parse [literal, last] = match Numeral.readInteger? literal.value with
      | some value => ⟨some (.integer (.at literal.location) value), none⟩
      | none => ⟨some (.integer (.at literal.location) 0),
          some ⟨.invalidInteger literal.value, literal.location⟩⟩ := by
  have hmove : advance .collect { current := literal, rest := [last] }
      = .done () { current := last, rest := [] } := by
    have hblank : ¬ last.isBlank := by simp [Token.isBlank, hlast]
    rw [advance_eq, List.dropWhile_cons_of_neg hblank]
    rfl
  have hoperand : operand .collect 15 { current := literal, rest := [last] }
      = behindNumber .collect literal { current := last, rest := [] } := by
    rw [operand_of_plain _ _ (kind_ne hliteral) (kind_ne hliteral),
      secondary_of_number _ _ hliteral, bind_done hmove]
  -- behind the number nothing is read, whether there is a fault or not
  have htext : ∀ {value : Expr} {s : Reader}, s.current = last →
      behindNumber .collect literal { current := last, rest := [] } = .done value s →
      runParser .collect [literal, last] = .done value s := by
    intro value s hs hnumber
    have hend : s.current.kind = .eof := by rw [hs, hlast]
    have hblank : ¬ literal.isBlank := by simp [Token.isBlank, hliteral]
    have hexpression : expression .collect 16 0 { current := literal, rest := [last] }
        = .done value s := by
      rw [expression, bind_done (hoperand.trans hnumber)]
      exact operators_of_kind _ _ _ _ (kind_ne hend)
    rw [runParser_eq_readText, readText, List.dropWhile_cons_of_neg hblank]
    show Grammar.text .collect 16 _ = _
    rw [Grammar.text, bind_done hexpression, current_bind, if_neg (by simp [hend])]
    rfl
  rw [behindNumber] at htext
  cases hvalue : Numeral.readInteger? literal.value with
  | some value =>
    rw [hvalue] at htext
    rw [parse, htext rfl rfl]
  | none =>
    rw [hvalue] at htext
    rw [parse, htext rfl rfl]
    rfl

/-- **Integer literals denote their values.**  A spelling of an integer is one token without a
fault.  Up to the greatest integer it is read as its value, and beyond it as zero, with a fault at
its place. -/
theorem parse_literal {base value : Nat} {text : String}
    (h : Numeral.Spells base text.toList value) :
    scan text = ⟨[.ofText .number text .origin,
        .ofText .eof "" (Location.origin.advance text.toList)], none⟩ ∧
      (value ≤ 9223372036854775807 →
        parse (scan text).tokens = ⟨some (.integer (.at .origin) value), none⟩) ∧
      (9223372036854775807 < value →
        parse (scan text).tokens =
          ⟨some (.integer (.at .origin) 0), some ⟨.invalidInteger text, .origin⟩⟩) := by
  let literal : Token := .ofText .number text .origin
  let last : Token := .ofText .eof "" (Location.origin.advance text.toList)
  have hscan : scan text = ⟨[literal, last], none⟩ := scan_of_spells h
  have hliteral : literal.kind = .number := rfl
  have hparse := parse_number hliteral (rfl : last.kind = .eof)
  have hvalue : Numeral.readInteger? literal.value =
      if (value : Int) ≤ Numeral.integerMax then some (value : Int) else none :=
    Numeral.readInteger?_of_spells h
  rw [hvalue, Numeral.integerMax] at hparse
  refine ⟨hscan, fun hle => ?_, fun hlt => ?_⟩
  · rw [hscan, hparse, if_pos (by omega)]
    rfl
  · rw [hscan, hparse, if_neg (by omega)]
    rfl

/-- The greatest integer in hexadecimal digits, and the first number beyond it in decimal ones. -/
theorem parse_literal_greatest :
    let greatest := "0x7fff_FFFF_ffff_FFFF"
    let next := "09_223_372_036_854_775_808_"
    Numeral.Spells 16 greatest.toList 9223372036854775807 ∧
      parse (scan greatest).tokens =
        ⟨some (.integer (.at .origin) 9223372036854775807), none⟩ ∧
      Numeral.Spells 10 next.toList 9223372036854775808 ∧
      parse (scan next).tokens =
        ⟨some (.integer (.at .origin) 0), some ⟨.invalidInteger next, .origin⟩⟩ := by
  intro greatest next
  have hgreatest : Numeral.Spells 16 greatest.toList 9223372036854775807 := by decide
  have hnext : Numeral.Spells 10 next.toList 9223372036854775808 := by decide
  exact ⟨hgreatest, (parse_literal hgreatest).2.1 (by decide), hnext,
    (parse_literal hnext).2.2 (by decide)⟩

end FilterLang
