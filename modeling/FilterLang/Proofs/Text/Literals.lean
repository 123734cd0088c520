import FilterLang.Proofs.Text.Classes
import FilterLang.Text.Quoted
import Mathlib.Data.List.TakeWhile

/-!
# Quoted texts read back

* `read_quoteChars` — a text between double quotes stands for itself.
* `IsPlain` — the texts in which nothing needs to be escaped, and `read_plain`, by which they stand
  for themselves as they are.
* `length_value_readFrom`, `plain_of_length_readFrom` — nothing is longer than how it is written, and
  only plain texts are as long.
-/

namespace FilterLang.Text

/-- A character between double quotes is read back, whatever is behind it. -/
theorem readFrom_quoteChar (c : Char) (here : Location) (cs : List Char) :
    ∃ there, Quoted.readFrom '"' here 0 (quoteChar c ++ cs) =
      { Quoted.readFrom '"' there 0 cs with
        value := c :: (Quoted.readFrom '"' there 0 cs).value
        length := (Quoted.readFrom '"' there 0 cs).length + (quoteChar c).length } := by
  unfold quoteChar
  split
  · exact ⟨_, rfl⟩
  · exact ⟨_, rfl⟩
  · exact ⟨_, rfl⟩
  · exact ⟨_, rfl⟩
  · exact ⟨_, rfl⟩
  · next hbackslash hquote hfeed _ _ =>
    refine ⟨here.after c, ?_⟩
    have hc : ∀ d, c ≠ d → (c == d) = false := fun d hd => beq_false_of_ne hd
    rw [List.singleton_append, Quoted.readFrom, hc _ hfeed, hc _ hbackslash, hc _ hquote]
    rfl

/-- **Quoting loses nothing.**  The text between double quotes is the text that was quoted. -/
theorem read_quoteChars (text rest : List Char) (here : Location) :
    Quoted.read '"' here (text.flatMap quoteChar ++ '"' :: rest) =
      ⟨text, (text.flatMap quoteChar).length + 1, true, none⟩ := by
  unfold Quoted.read
  induction text generalizing here with
  | nil => rfl
  | cons c text ih =>
    obtain ⟨there, hread⟩ := readFrom_quoteChar c here (text.flatMap quoteChar ++ '"' :: rest)
    rw [List.flatMap_cons, List.append_assoc, hread, ih there, List.length_append]
    have hlength : (text.flatMap quoteChar).length + 1 + (quoteChar c).length =
        (quoteChar c).length + (text.flatMap quoteChar).length + 1 := by omega
    exact congrArg (fun n => (⟨c :: text, n, true, none⟩ : Quoted)) hlength

/-- Nothing in the text means anything else between double quotes. -/
def IsPlain (text : List Char) : Prop := ∀ c ∈ text, c ≠ '"' ∧ c ≠ '\\' ∧ c ≠ '\n'

theorem isPlain_cons {c : Char} {cs : List Char} :
    IsPlain (c :: cs) ↔ (c ≠ '"' ∧ c ≠ '\\' ∧ c ≠ '\n') ∧ IsPlain cs :=
  List.forall_mem_cons

/-- **A plain text stands for itself.** -/
theorem read_plain {text : List Char} (h : IsPlain text) (rest : List Char) (here : Location) :
    Quoted.read '"' here (text ++ '"' :: rest) = ⟨text, text.length + 1, true, none⟩ := by
  unfold Quoted.read
  induction text generalizing here with
  | nil => rfl
  | cons c text ih =>
    obtain ⟨⟨hquote, hbackslash, hfeed⟩, htext⟩ := isPlain_cons.mp h
    rw [List.cons_append, Quoted.readFrom, if_neg (by simpa using hfeed),
      if_neg (by simpa using hbackslash), if_neg (by simpa using hquote)]
    dsimp only
    rw [ih htext, List.length_cons]

/-- An escape that stands for a character takes one behind its backslash. -/
theorem length_char_ofCode {lead base most : Nat} {exact : Bool} {cs : List Char}
    (h : exact = true → 0 < lead) :
    (Escape.ofCode lead base most exact cs).char.toList.length ≤
      (Escape.ofCode lead base most exact cs).length := by
  unfold Escape.ofCode
  dsimp only
  generalize hdigits : (cs.take most).takeWhile (isDigitOf base) = digits
  split
  · next c hc =>
    show 1 ≤ lead + digits.length
    cases exact with
    | true =>
      have := h rfl
      omega
    | false =>
      cases digits with
      | nil => cases hc
      | cons d digits => exact Nat.le_add_left _ _
  · exact Nat.zero_le _

theorem length_char_escape (quote : Char) (cs : List Char) :
    (Escape.read quote cs).char.toList.length ≤ (Escape.read quote cs).length := by
  unfold Escape.read
  split
  · exact Nat.zero_le _
  · split
    · exact Nat.le_refl _
    split_ifs
    · exact Nat.le_refl _
    · exact length_char_ofCode nofun
    · exact length_char_ofCode fun _ => Nat.one_pos
    · exact length_char_ofCode fun _ => Nat.one_pos
    · exact length_char_ofCode fun _ => Nat.one_pos
    · exact Nat.zero_le _

/-- **Nothing is longer than how it is written**, counted with what is skipped and the closing
quote. -/
theorem length_value_readFrom (quote : Char) (here : Location) (skip : Nat) (cs : List Char)
    (h : (Quoted.readFrom quote here skip cs).closed = true) :
    (Quoted.readFrom quote here skip cs).value.length + skip + 1 ≤
      (Quoted.readFrom quote here skip cs).length := by
  fun_induction Quoted.readFrom quote here skip cs with
  | case1 | case3 => cases h
  | case2 here skip c cs tail ih =>
    have htail : tail.value.length + skip + 1 ≤ tail.length := ih h
    show tail.value.length + (skip + 1) + 1 ≤ tail.length + 1
    omega
  | case4 here c cs hfeed hbackslash escape inside tail ih =>
    have htail : tail.value.length + escape.length + 1 ≤ tail.length := ih h
    have hescape : escape.char.toList.length ≤ escape.length := length_char_escape quote cs
    show (escape.char.toList ++ tail.value).length + 0 + 1 ≤ tail.length + 1
    rw [List.length_append]
    omega
  | case5 => exact Nat.le_refl _
  | case6 here c cs hfeed hbackslash hquote tail ih =>
    have htail : tail.value.length + 0 + 1 ≤ tail.length := ih h
    show (c :: tail.value).length + 0 + 1 ≤ tail.length + 1
    rw [List.length_cons]
    omega

/-- **Only a plain text is as long as it is written**, and then it is written as it is. -/
theorem plain_of_length_readFrom (here : Location) (cs : List Char)
    (h : (Quoted.readFrom '"' here 0 cs).closed = true)
    (hlength : (Quoted.readFrom '"' here 0 cs).length ≤
      (Quoted.readFrom '"' here 0 cs).value.length + 1) :
    IsPlain (Quoted.readFrom '"' here 0 cs).value ∧
      (Quoted.readFrom '"' here 0 cs).value ++ ['"'] <+: cs := by
  induction cs generalizing here with
  | nil => cases h
  | cons c cs ih =>
    rw [Quoted.readFrom] at h hlength ⊢
    split at h
    · cases h
    next hfeed =>
    rw [if_neg hfeed] at hlength ⊢
    split at h
    · next hbackslash =>
      -- an escape is longer than the character that it stands for
      rw [if_pos hbackslash] at hlength
      have htail := length_value_readFrom _ _ _ _ h
      have hescape := length_char_escape '"' cs
      dsimp only at hlength htail
      rw [List.length_append] at hlength
      omega
    next hbackslash =>
    rw [if_neg hbackslash] at hlength ⊢
    split at h
    · next hquote =>
      rw [if_pos hquote]
      rw [beq_iff_eq] at hquote
      subst hquote
      exact ⟨nofun, List.cons_prefix_cons.mpr ⟨rfl, List.nil_prefix⟩⟩
    next hquote =>
    rw [if_neg hquote] at hlength ⊢
    have ⟨hplain, hprefix⟩ := ih _ h (Nat.le_of_succ_le_succ hlength)
    rw [beq_iff_eq] at hfeed hbackslash hquote
    exact ⟨isPlain_cons.mpr ⟨⟨hquote, hbackslash, hfeed⟩, hplain⟩,
      List.cons_prefix_cons.mpr ⟨rfl, hprefix⟩⟩

/-- A text that is put between double quotes as it is stands for nothing longer, and for something as
long only if it is plain. -/
theorem length_value_read {text : List Char} {here : Location}
    (h : (Quoted.read '"' here (text ++ ['"'])).closed = true) :
    (Quoted.read '"' here (text ++ ['"'])).value.length ≤ text.length ∧
      (text.length ≤ (Quoted.read '"' here (text ++ ['"'])).value.length → IsPlain text) := by
  have hvalue := length_value_readFrom _ _ _ _ h
  have hread := Quoted.length_readFrom_le '"' here 0 (text ++ ['"'])
  rw [List.length_append, List.length_singleton] at hread
  refine ⟨by rw [Quoted.read]; omega, fun hlength => ?_⟩
  obtain ⟨hplain, hprefix⟩ := plain_of_length_readFrom here _ h (by rw [Quoted.read] at hlength; omega)
  have hwhole := hprefix.eq_of_length_le (by
    rw [List.length_append, List.length_append]
    exact Nat.add_le_add_right hlength _)
  rwa [List.append_cancel_right hwhole] at hplain

end FilterLang.Text
