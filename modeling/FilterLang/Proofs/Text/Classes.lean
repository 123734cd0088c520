import FilterLang.Text.Blank
import FilterLang.Text.Digit
import Mathlib.Tactic.SplitIfs

/-!
# How the character classes lie

* `isDigitOf_ten` — the digits of base ten are the ASCII digits.
* `isWordChar_of_isDigitOf` — the digits of every base may stand in a word.
* `isWordChar_of_isBlank` — no blank may stand in a word.
-/

namespace FilterLang.Text

variable {c : Char}

/-- An ASCII digit, by its code point. -/
theorem isDigit_iff_toNat : c.isDigit ↔ 48 ≤ c.toNat ∧ c.toNat ≤ 57 := by
  simp only [Char.isDigit, Bool.and_eq_true, decide_eq_true_eq, ge_iff_le, UInt32.le_iff_toNat_le]
  rfl

theorem isDigitOf_ten (c : Char) : isDigitOf 10 c = c.isDigit := by
  rw [Bool.eq_iff_iff, isDigit_iff_toNat]
  unfold isDigitOf digitValue?
  simp only [Option.isSome_ite, Bool.and_eq_true, decide_eq_true_eq]
  split_ifs <;> omega

/-- A digit of any base may stand in a word: each of them is looked up. -/
theorem isWordChar_of_isDigitOf {base : Nat} (h : isDigitOf base c) : isWordChar c := by
  have hall : ∀ n < 0x67, isDigitOf 16 (Char.ofNat n) → isWordChar (Char.ofNat n) := by
    decide +kernel
  have hsixteen : isDigitOf 16 c ∧ c.toNat < 0x67 := by
    unfold isDigitOf digitValue? at h ⊢
    simp only [Option.isSome_ite, Bool.and_eq_true, decide_eq_true_eq] at h ⊢
    split_ifs at h ⊢ <;> omega
  have hc := hall c.toNat hsixteen.2
  rw [Char.ofNat_toNat] at hc
  exact hc hsixteen.1

theorem isWordChar_of_isDigit (h : c.isDigit) : isWordChar c :=
  isWordChar_of_isDigitOf ((isDigitOf_ten c).trans h)

/-- The code points of the blanks. -/
def blankCodes : List Nat :=
  [0x09, 0x0A, 0x0B, 0x0C, 0x0D, 0x20, 0x85, 0xA0, 0x1680, 0x2000, 0x2001, 0x2002, 0x2003, 0x2004,
    0x2005, 0x2006, 0x2007, 0x2008, 0x2009, 0x200A, 0x2028, 0x2029, 0x202F, 0x205F, 0x3000]

theorem toNat_mem_blankCodes (h : isBlank c) : c.toNat ∈ blankCodes := by
  simp only [isBlank, Bool.or_eq_true, Bool.and_eq_true, decide_eq_true_eq, beq_iff_eq] at h
  simp only [blankCodes, List.mem_cons, List.not_mem_nil, or_false]
  omega

/-- No blank may stand in a word: each of them is looked up. -/
theorem isWordChar_of_isBlank (h : isBlank c) : isWordChar c = false := by
  have hall : ∀ n ∈ blankCodes, isWordChar (Char.ofNat n) = false := by decide +kernel
  have hc := hall _ (toNat_mem_blankCodes h)
  rwa [Char.ofNat_toNat] at hc

end FilterLang.Text
