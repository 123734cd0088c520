import FilterLang.Expr.Numeral
import FilterLang.Proofs.Text.Classes
import Mathlib.Data.List.Induction
import Mathlib.Data.List.TakeWhile

/-!
# What integer literals denote

* `IsDigit`, `Denotes` — digits of a base with underscores among them, and the number they denote.
* `Spells` — the spellings of an integer: decimal, or behind the mark of a base.
* `denotes_iff`, `spells_iff` — digits and underscores denote a number, and nothing else does; both
  can be computed.
* `readInteger?_of_spells` — an integer is read from each of its spellings, up to the greatest one.
* `spells_toDigits` — the decimal digits of a number are one of them (`readInteger?_toString`).
-/

namespace FilterLang.Numeral

open Text

/-! ### Spellings -/

/-- The character is the digit of the value `d`, in either case. -/
def IsDigit (d : Nat) (c : Char) : Prop :=
  "0123456789abcdef".toList[d]? = some c ∨ "0123456789ABCDEF".toList[d]? = some c

/-- The characters are digits of the base, the most significant one first, with underscores among
them, and denote the value. -/
inductive Denotes (base : Nat) : List Char → Nat → Prop where
  | nothing : Denotes base [] 0
  | digit {cs : List Char} {value d : Nat} {c : Char} (h : Denotes base cs value)
      (hdigit : IsDigit d c) (hlt : d < base) : Denotes base (cs ++ [c]) (value * base + d)
  | underscore {cs : List Char} {value : Nat} (h : Denotes base cs value) :
      Denotes base (cs ++ ['_']) value

/-- The letters that mark a base behind a leading zero. -/
def baseMarks : List (Nat × Char) :=
  [(2, 'b'), (2, 'B'), (8, 'o'), (8, 'O'), (16, 'x'), (16, 'X')]

/-- The characters spell an integer in the base, and it has the value. -/
inductive Spells : Nat → List Char → Nat → Prop where
  | decimal {c : Char} {cs : List Char} {value : Nat} (hdigit : c.isDigit)
      (h : Denotes 10 (c :: cs) value) : Spells 10 (c :: cs) value
  | marked {base value : Nat} {mark : Char} {cs : List Char} (hmark : (base, mark) ∈ baseMarks)
      (hsome : ∃ c ∈ cs, c ≠ '_') (h : Denotes base cs value) : Spells base ('0' :: mark :: cs) value

/-! ### Digits -/

/-- Each of the sixteen digits has its value, in both cases. -/
theorem IsDigit.digitValue?_eq {base d : Nat} {c : Char} (h : IsDigit d c) (hlt : d < base) :
    digitValue? base c = some d := by
  have hall : ∀ digits ∈ ["0123456789abcdef".toList, "0123456789ABCDEF".toList], ∀ d < 16,
      digits[d]?.all fun c => digitValue? 16 c == some d := by decide
  have hc : ∃ digits ∈ ["0123456789abcdef".toList, "0123456789ABCDEF".toList],
      digits[d]? = some c := by
    rcases h with h | h
    · exact ⟨_, .head _, h⟩
    · exact ⟨_, .tail _ (.head _), h⟩
  obtain ⟨digits, hdigits, hc⟩ := hc
  have hd : d < 16 := by
    obtain ⟨hlength, -⟩ := List.getElem?_eq_some_iff.mp hc
    simp only [List.mem_cons, List.not_mem_nil, or_false] at hdigits
    rcases hdigits with rfl | rfl <;> exact hlength
  have hvalue := hall digits hdigits d hd
  rw [hc, Option.all_some, beq_iff_eq] at hvalue
  simp only [digitValue?, Option.ite_none_right_eq_some, Option.some.injEq] at hvalue ⊢
  exact ⟨⟨hvalue.2 ▸ hlt, hvalue.1.2⟩, hvalue.2⟩

/-- Nothing else has a value as a digit. -/
theorem isDigit_of_digitValue? {base d : Nat} {c : Char} (h : digitValue? base c = some d) :
    IsDigit d c := by
  have hall : ∀ n < 0x67, (digitValue? 16 (Char.ofNat n)).all fun d =>
      "0123456789abcdef".toList[d]? = some (Char.ofNat n) ∨
        "0123456789ABCDEF".toList[d]? = some (Char.ofNat n) := by decide
  have hsixteen : digitValue? 16 c = some d ∧ c.toNat < 0x67 := by
    simp only [digitValue?, Bool.and_eq_true, decide_eq_true_eq, Option.ite_none_right_eq_some,
      Option.some.injEq] at h ⊢
    split_ifs at h ⊢ <;> omega
  have hdigit := hall c.toNat hsixteen.2
  rw [Char.ofNat_toNat, hsixteen.1, Option.all_some, decide_eq_true_eq] at hdigit
  exact hdigit

theorem IsDigit.isDigitOf {base d : Nat} {c : Char} (h : IsDigit d c) (hlt : d < base) :
    isDigitOf base c := by
  rw [Text.isDigitOf, h.digitValue?_eq hlt]
  rfl

theorem ne_underscore_of_isDigitOf {base : Nat} {c : Char} (h : isDigitOf base c) : c ≠ '_' := by
  rintro rfl
  have hnone : digitValue? base '_' = none := by
    simp [digitValue?]
  rw [isDigitOf, hnone] at h
  cases h

namespace Denotes

variable {base value : Nat} {cs : List Char}

/-- Nothing but digits and underscores denotes a number. -/
theorem numerals (h : Denotes base cs value) : ∀ c ∈ cs, isDigitOf base c ∨ c = '_' := by
  induction h with
  | nothing => exact nofun
  | digit _ hdigit hlt ih =>
    intro c hc
    rcases List.mem_append.mp hc with hc | hc
    · exact ih c hc
    · exact .inl (List.mem_singleton.mp hc ▸ hdigit.isDigitOf hlt)
  | underscore _ ih =>
    intro c hc
    rcases List.mem_append.mp hc with hc | hc
    · exact ih c hc
    · exact .inr (List.mem_singleton.mp hc)

/-- Without the underscores there are only digits. -/
theorem isDigitOf_of_mem_filter (h : Denotes base cs value) {c : Char}
    (hc : c ∈ cs.filter (· != '_')) : isDigitOf base c := by
  obtain ⟨hmem, hne⟩ := List.mem_filter.mp hc
  exact (h.numerals c hmem).resolve_right (bne_iff_ne.mp hne)

/-- **The digits have the value** that they denote. -/
theorem valueOfDigits_eq (h : Denotes base cs value) :
    valueOfDigits base (cs.filter (· != '_')) = value := by
  induction h with
  | nothing => rfl
  | digit _ hdigit hlt ih =>
    have hne := ne_underscore_of_isDigitOf (hdigit.isDigitOf hlt)
    rw [List.filter_append, List.filter_cons_of_pos (by simpa using hne), List.filter_nil,
      valueOfDigits_append_singleton, ih, hdigit.digitValue?_eq hlt]
    rfl
  | underscore _ ih =>
    rw [List.filter_append, List.filter_cons_of_neg (by decide), List.filter_nil, List.append_nil]
    exact ih

end Denotes

/-- All digits and underscores denote something, and just what they have as their value. -/
theorem denotes_iff {base value : Nat} {cs : List Char} : Denotes base cs value ↔
    cs.all (fun c => isDigitOf base c || c == '_') ∧
      valueOfDigits base (cs.filter (· != '_')) = value := by
  constructor
  · intro h
    refine ⟨List.all_eq_true.mpr fun c hc => ?_, h.valueOfDigits_eq⟩
    rw [Bool.or_eq_true, beq_iff_eq]
    exact h.numerals c hc
  · rintro ⟨hcs, rfl⟩
    induction cs using List.reverseRecOn with
    | nil => exact .nothing
    | append_singleton cs c ih =>
      rw [List.all_append, Bool.and_eq_true] at hcs
      have hdenotes := ih hcs.1
      have hc : isDigitOf base c ∨ c = '_' := by simpa using hcs.2
      rw [List.filter_append]
      rcases hc with hc | rfl
      · have hne := ne_underscore_of_isDigitOf hc
        obtain ⟨d, hd⟩ := Option.isSome_iff_exists.mp hc
        rw [List.filter_cons_of_pos (by simpa using hne), List.filter_nil,
          valueOfDigits_append_singleton, hd]
        exact hdenotes.digit (isDigit_of_digitValue? hd) (digitValue?_lt hd)
      · rw [List.filter_cons_of_neg (by decide), List.filter_nil, List.append_nil]
        exact hdenotes.underscore

instance (base value : Nat) (cs : List Char) : Decidable (Denotes base cs value) :=
  decidable_of_iff _ denotes_iff.symm

/-- Whether a spelling is decimal or has a mark is seen from its first two characters. -/
theorem spells_iff {base value : Nat} {cs : List Char} : Spells base cs value ↔
    (base = 10 ∧ cs.head?.any Char.isDigit ∧ Denotes 10 cs value) ∨
      (cs.head? = some '0' ∧ (cs.tail.head?.any fun mark => baseMarks.contains (base, mark)) ∧
        (cs.drop 2).any (· != '_') ∧ Denotes base (cs.drop 2) value) := by
  constructor
  · rintro (⟨hdigit, h⟩ | ⟨hmark, hsome, h⟩)
    · exact .inl ⟨rfl, hdigit, h⟩
    · exact .inr ⟨rfl, List.contains_iff_mem.mpr hmark, by simpa using hsome, h⟩
  · rintro (⟨rfl, hdigit, h⟩ | ⟨hzero, hmark, hsome, h⟩)
    · cases cs with
      | nil => cases hdigit
      | cons c cs => exact .decimal hdigit h
    · rcases cs with _ | ⟨c, _ | ⟨mark, cs⟩⟩
      · cases hzero
      · cases hmark
      · cases hzero
        exact .marked (List.contains_iff_mem.mp hmark) (by simpa using hsome) h

instance (base value : Nat) (cs : List Char) : Decidable (Spells base cs value) :=
  decidable_of_iff _ spells_iff.symm

/-! ### Reading -/

/-- A natural number is in range up to the greatest integer. -/
theorem inRange?_natCast (n : Nat) :
    inRange? n = if (n : Int) ≤ integerMax then some (n : Int) else none := by
  have hmin : integerMin ≤ n := by rw [integerMin]; omega
  rw [inRange?]
  simp only [hmin, true_and]

/-- A text of decimal digits and underscores marks no base. -/
theorem readInteger?_of_decimal {text : String} {value : Nat} (h : Denotes 10 text.toList value) :
    readInteger? text = inRange? value := by
  have hdigits : ∀ c ∈ text.toList.filter (· != '_'), c.isDigit := fun c hc =>
    isDigitOf_ten c ▸ h.isDigitOf_of_mem_filter hc
  have hdecimal : readDecimal? (text.toList.filter (· != '_')) = inRange? value := by
    have htake := List.takeWhile_eq_self_iff.mpr fun c hc => h.isDigitOf_of_mem_filter hc
    rw [readDecimal?, htake, h.valueOfDigits_eq]
  rw [readInteger?]
  split
  · next c rest heq =>
    rw [heq] at hdigits hdecimal
    have hc : c.isDigit := hdigits c (.tail _ (.head _))
    have hno : ∀ letter, letter.isDigit = false → ¬ (c == letter) := by
      intro letter hletter hbeq
      rw [eq_of_beq hbeq, hletter] at hc
      cases hc
    rw [if_neg, if_neg, if_neg]
    · exact hdecimal
    · rw [Bool.or_eq_true]
      exact fun h => h.elim (hno _ rfl) (hno _ rfl)
    · rw [Bool.or_eq_true]
      exact fun h => h.elim (hno _ rfl) (hno _ rfl)
    · rw [Bool.or_eq_true]
      exact fun h => h.elim (hno _ rfl) (hno _ rfl)
  · exact hdecimal

/-- Digits behind the mark of a base have no sign in front. -/
theorem readBased?_of_denotes {base value : Nat} {cs : List Char} (h : Denotes base cs value)
    (hsome : ∃ c ∈ cs, c ≠ '_') :
    readBased? base (cs.filter (· != '_')) = inRange? value := by
  have hdigits : ∀ c ∈ cs.filter (· != '_'), isDigitOf base c :=
    fun c hc => h.isDigitOf_of_mem_filter hc
  have hread : readDigits? base (cs.filter (· != '_')) = some (value : Int) := by
    obtain ⟨c, hc, hne⟩ := hsome
    have hmem : c ∈ cs.filter (· != '_') := List.mem_filter.mpr ⟨hc, bne_iff_ne.mpr hne⟩
    have hempty : (cs.filter (· != '_')).isEmpty = false :=
      List.isEmpty_eq_false_iff_exists_mem.mpr ⟨c, hmem⟩
    rw [readDigits?, hempty, List.all_eq_true.mpr hdigits, h.valueOfDigits_eq]
    rfl
  have hsign : ∀ sign, isDigitOf base sign = false → ∀ rest, cs.filter (· != '_') ≠ sign :: rest := by
    intro sign hsign rest heq
    have hdigit := hdigits sign (by rw [heq]; exact .head _)
    rw [hsign] at hdigit
    cases hdigit
  have hminus : isDigitOf base '-' = false := by simp [Text.isDigitOf, digitValue?]
  have hplus : isDigitOf base '+' = false := by simp [Text.isDigitOf, digitValue?]
  unfold readBased?
  dsimp only
  split
  · next heq => exact absurd heq (hsign _ hminus _)
  · next heq => exact absurd heq (hsign _ hplus _)
  · rw [hread]
    rfl

/-- **Integers are read from their spellings**, up to the greatest one. -/
theorem readInteger?_of_spells {base value : Nat} {text : String} (h : Spells base text.toList value) :
    readInteger? text = if (value : Int) ≤ integerMax then some (value : Int) else none := by
  rw [← inRange?_natCast]
  generalize hcs : text.toList = cs at h
  cases h with
  | decimal _ h => exact readInteger?_of_decimal (hcs ▸ h)
  | @marked base value mark cs hmark hsome h =>
    have hbased := readBased?_of_denotes h hsome
    simp only [baseMarks, List.mem_cons, List.not_mem_nil, or_false, Prod.mk.injEq] at hmark
    rw [readInteger?, hcs]
    rcases hmark with h | h | h | h | h | h <;> obtain ⟨rfl, rfl⟩ := h <;> exact hbased

/-! ### Decimal digits -/

theorem denotes_toDigits (n : Nat) : Denotes 10 (Nat.toDigits 10 n) n := by
  have hall : ∀ d < 10, "0123456789abcdef".toList[d]? = some (Nat.digitChar d) := by decide
  induction n using Nat.strongRecOn with
  | ind n ih =>
    by_cases hn : n < 10
    · rw [Nat.toDigits_of_lt_base hn]
      have hdenotes := Denotes.nothing.digit (.inl (hall n hn)) hn
      rwa [Nat.zero_mul, Nat.zero_add] at hdenotes
    · have hmod : n % 10 < 10 := Nat.mod_lt n (by omega)
      have hdenotes := (ih (n / 10) (by omega)).digit (.inl (hall _ hmod)) hmod
      rw [Nat.toDigits_of_base_le (by omega) (by omega)]
      rwa [Nat.div_add_mod'] at hdenotes

/-- The decimal digits of a number spell it. -/
theorem spells_toDigits (n : Nat) : Spells 10 (Nat.toDigits 10 n) n := by
  have hdenotes := denotes_toDigits n
  have hdigits : ∀ c ∈ Nat.toDigits 10 n, c.isDigit := fun c hc =>
    Nat.isDigit_of_mem_toDigits (by omega) (by omega) hc
  obtain ⟨c, cs, hcons⟩ := List.exists_cons_of_ne_nil (Nat.toDigits_ne_nil (n := n) (b := 10))
  rw [hcons] at hdenotes hdigits ⊢
  exact .decimal (hdigits c (.head _)) hdenotes

theorem toList_toString (n : Nat) : (toString (n : Int)).toList = Nat.toDigits 10 n :=
  Nat.toList_repr

/-- Integers are read back from the texts that they are printed as. -/
theorem readInteger?_toString {n : Nat} (h : (n : Int) ≤ integerMax) :
    readInteger? (toString (n : Int)) = some (n : Int) := by
  have hspells := spells_toDigits n
  rw [← toList_toString] at hspells
  rw [readInteger?_of_spells hspells, if_pos h]

end FilterLang.Numeral
