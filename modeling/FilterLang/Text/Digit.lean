/-!
# Digits

Digits of the bases up to sixteen, in either case, and the number a list of them denotes.

* **`digitValue?`** — the value of a digit of a base; a character that is none has no value.
* **`isDigitOf`** — whether a character is a digit of a base.
* **`valueOfDigits`** — the number written by digits, the most significant one first.
* **`codeWord`** — what becomes of it in a word of 32 bits.
-/

namespace FilterLang.Text

/-- The value of a digit of the base, with the letters from `a` to `f` standing for ten to
fifteen in either case. -/
def digitValue? (base : Nat) (c : Char) : Option Nat :=
  let n := c.toNat
  let value :=
    if 0x30 ≤ n && n ≤ 0x39 then n - 0x30
    else if 0x61 ≤ n && n ≤ 0x66 then n - 0x61 + 10
    else if 0x41 ≤ n && n ≤ 0x46 then n - 0x41 + 10
    else 16
  if value < base ∧ value < 16 then some value else none

/-- Whether the character is a digit of the base. -/
def isDigitOf (base : Nat) (c : Char) : Bool :=
  (digitValue? base c).isSome

/-- The number that digits denote in a base; a character that is no digit counts as zero. -/
def valueOfDigits (base : Nat) (digits : List Char) : Nat :=
  digits.foldl (fun value c => value * base + (digitValue? base c).getD 0) 0

/-- The number that digits add up to in a word of 32 bits, where products and sums wrap. -/
def codeWord (base : Nat) (digits : List Char) : UInt32 :=
  digits.foldl (fun code c => code * UInt32.ofNat base + UInt32.ofNat ((digitValue? base c).getD 0)) 0

theorem digitValue?_lt {base value : Nat} {c : Char} (h : digitValue? base c = some value) :
    value < base := by
  unfold digitValue? at h
  simp only [Option.ite_none_right_eq_some, Option.some.injEq] at h
  omega

theorem valueOfDigits_append_singleton (base : Nat) (digits : List Char) (c : Char) :
    valueOfDigits base (digits ++ [c])
      = valueOfDigits base digits * base + (digitValue? base c).getD 0 := by
  simp [valueOfDigits]

end FilterLang.Text
