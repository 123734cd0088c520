import FilterLang.Library.Json.Reader
import FilterLang.Library.Json.Writer
import Mathlib.Data.List.Basic

/-!
# JSON strings read back

* `readString?_quoteChar` — a character that has been quoted is read as its code point, whatever is
  behind it.
* `joinSurrogates?_toNat` — code points are characters again: none of them is half of a pair.
* `readString?_quote`, `ofUnits_toNat` — so quoting loses nothing.
-/

namespace FilterLang.Json

/-! ### Characters -/

/-- Two digits of the base sixteen are enough for what must not stand in a string. -/
theorem codeUnit?_hexDigits {n : Nat} (h : n < 0x20) :
    codeUnit? ['0', '0', hexDigit (n / 16), hexDigit (n % 16)] = some n := by
  have hall : ∀ n < 0x20, codeUnit? ['0', '0', hexDigit (n / 16), hexDigit (n % 16)] = some n := by
    decide
  exact hall n h

/-- A letter behind a backslash is read as what it stands for. -/
theorem readString?_escaped {letter value : Char} (hletter : letter ≠ 'u')
    (hvalue : escaped? letter = some value) (cs : List Char) :
    readString? ('\\' :: letter :: cs) =
      (readString? cs).map fun r => (value.toNat :: r.1, r.2) := by
  rw [readString?]
  · rw [hvalue]
    cases readString? cs <;> rfl
  · rintro _ _ _ _ _ rfl
    exact absurd rfl hletter

/-- A character that need not be quoted is read as it is. -/
theorem readString?_plain {c : Char} (hquote : c ≠ '"') (hbackslash : c ≠ '\\')
    (hcontrol : ¬ c.toNat < 0x20) (cs : List Char) :
    readString? (c :: cs) = (readString? cs).map fun r => (c.toNat :: r.1, r.2) := by
  rw [readString?]
  · rw [if_neg (not_or.mpr ⟨hcontrol, hbackslash⟩)]
    cases readString? cs <;> rfl
  · exact hquote
  · exact fun _ _ _ _ _ heq => absurd heq hbackslash
  · exact fun _ _ heq => absurd heq hbackslash

/-- **A character in quotes is read as its code point**, whatever is behind it. -/
theorem readString?_quoteChar (c : Char) (cs : List Char) :
    readString? (quoteChar c ++ cs) = (readString? cs).map fun r => (c.toNat :: r.1, r.2) := by
  unfold quoteChar
  split
  · exact readString?_escaped (by decide) rfl cs
  · exact readString?_escaped (by decide) rfl cs
  · exact readString?_escaped (by decide) rfl cs
  · exact readString?_escaped (by decide) rfl cs
  · exact readString?_escaped (by decide) rfl cs
  · exact readString?_escaped (by decide) rfl cs
  · exact readString?_escaped (by decide) rfl cs
  · next hquote hbackslash _ _ _ _ _ =>
    by_cases hcontrol : c.toNat < 0x20
    · rw [if_pos hcontrol]
      show readString? ('\\' :: 'u' :: '0' :: '0' :: hexDigit (c.toNat / 16) ::
        hexDigit (c.toNat % 16) :: cs) = _
      rw [readString?, codeUnit?_hexDigits hcontrol]
      cases readString? cs <;> rfl
    · rw [if_neg hcontrol]
      exact readString?_plain hquote hbackslash hcontrol cs

/-- The code point of a character is no half of a pair. -/
theorem not_isSurrogate_toNat (c : Char) :
    isHighSurrogate c.toNat = false ∧ isLowSurrogate c.toNat = false := by
  have hvalid : c.toNat < 0xD800 ∨ 0xDFFF < c.toNat ∧ c.toNat < 0x110000 := c.valid
  simp only [isHighSurrogate, isLowSurrogate, Bool.and_eq_false_iff, decide_eq_false_iff_not]
  omega

/-! ### Strings -/

/-- Code points are the characters again that they were taken from. -/
theorem joinSurrogates?_toNat (cs : List Char) : joinSurrogates? (cs.map Char.toNat) = some cs := by
  induction cs with
  | nil => rfl
  | cons c cs ih =>
    obtain ⟨hhigh, hlow⟩ := not_isSurrogate_toNat c
    cases cs with
    | nil =>
      rw [List.map_cons, List.map_nil, joinSurrogates?, hhigh, hlow, Char.ofNat_toNat]
      rfl
    | cons d ds =>
      rw [List.map_cons] at ih
      rw [List.map_cons, List.map_cons, joinSurrogates?, hhigh, hlow, ih, Char.ofNat_toNat]
      rfl

/-- **Quoting loses nothing.**  Up to the closing quote there are the code points of the text. -/
theorem readString?_quote (text rest : List Char) :
    readString? (text.flatMap quoteChar ++ '"' :: rest) = some (text.map Char.toNat, rest) := by
  induction text with
  | nil => rfl
  | cons c text ih =>
    rw [List.flatMap_cons, List.append_assoc, readString?_quoteChar, ih]
    rfl

theorem ofUnits_toNat (text : String) : ofUnits (text.toList.map Char.toNat) = .string text := by
  rw [ofUnits, joinSurrogates?_toNat]
  dsimp only
  rw [String.ofList_toList]

/-- Members are read under their names. -/
theorem ofMembers_toNat (members : List (String × Json)) :
    ofMembers (members.map fun m => (m.1.toList.map Char.toNat, m.2)) = .object members := by
  have hnames : (members.map fun m => (m.1.toList.map Char.toNat, m.2)).mapM (fun m =>
      (joinSurrogates? m.1).map fun cs => (String.ofList cs, m.2)) = some members := by
    induction members with
    | nil => rfl
    | cons m members ih =>
      rw [List.map_cons, List.mapM_cons, ih, joinSurrogates?_toNat, Option.map_some,
        String.ofList_toList]
      rfl
  rw [ofMembers, hnames]

theorem toList_quote (text : String) :
    (quote text).toList = '"' :: (text.toList.flatMap quoteChar ++ ['"']) := by
  rw [quote, String.toList_ofList, List.cons_append]

end FilterLang.Json
