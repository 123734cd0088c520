import FilterLang.Cursor
import Mathlib.Data.List.TakeWhile
import Mathlib.Tactic.SplitIfs

/-!
# The word at the end of a text

* `EndsIn` — a word of query characters at the end of a text.
* `Lead` — what may stand in front of the word being typed, and `Captures` — a word with a lead in front.
* `lastWord_cases` — what is taken for the word being typed has a lead in front, and nothing is taken
  only if no word has.
* `endsIn_lastWord` — so it stands at the end of the text.
* `lastWord_blank` — behind a blank no word has been begun.
-/

namespace FilterLang.Cursor

open Text (isBlank)

variable {cs front lead blanks word : List Char} {atStart : Prop}

theorem isQueryChar_iff {c : Char} :
    isQueryChar c ↔ ¬ isBlank c ∧ c ≠ '(' ∧ c ≠ ')' ∧ c ≠ '.' := by
  simp [isQueryChar, and_assoc]

/-- The text ends in a word, or in none if that is empty. -/
structure EndsIn (word cs : List Char) : Prop where
  suffix : word <:+ cs
  query : ∀ c ∈ word, isQueryChar c

/-! ### Leads -/

/-- What stands in front of the word being typed: the start of the text or an opening parenthesis with any
number of blanks, or a visible character with at least one, or a dot. -/
inductive Lead (atStart : Prop) : List Char → Prop where
  | start {blanks : List Char} (h : atStart) (hblanks : ∀ c ∈ blanks, isBlank c) :
      Lead atStart blanks
  | bracket {blanks : List Char} (hblanks : ∀ c ∈ blanks, isBlank c) : Lead atStart ('(' :: blanks)
  | visible {c : Char} {blanks : List Char} (hc : ¬ isBlank c) (hne : blanks ≠ [])
      (hblanks : ∀ c ∈ blanks, isBlank c) : Lead atStart (c :: blanks)
  | dot : Lead atStart ['.']

theorem Lead.imp {p q : Prop} (h : Lead p lead) (hpq : p → q) : Lead q lead := by
  cases h with
  | start hp hblanks => exact .start (hpq hp) hblanks
  | bracket hblanks => exact .bracket hblanks
  | visible hc hne hblanks => exact .visible hc hne hblanks
  | dot => exact .dot

/-- The text ends in a word that has a lead in front of it. -/
def Captures (cs word : List Char) : Prop :=
  ∃ front lead, cs = front ++ (lead ++ word) ∧ Lead (front = []) lead ∧ ∀ c ∈ word, isQueryChar c

theorem Captures.endsIn (h : Captures cs word) : EndsIn word cs := by
  obtain ⟨front, lead, rfl, -, hquery⟩ := h
  exact ⟨(List.suffix_append lead word).trans (List.suffix_append front _), hquery⟩

/-! ### The word behind a lead -/

theorem word?_eq_some_iff : word? cs = some word ↔ cs = word ∧ ∀ c ∈ cs, isQueryChar c := by
  rw [word?]
  split_ifs with hall
  · simpa using fun _ => List.all_eq_true.mp hall
  · simpa using fun _ => fun h => hall (List.all_eq_true.mpr h)

theorem dropWhile_blanks (hblanks : ∀ c ∈ blanks, isBlank c) (hquery : ∀ c ∈ word, isQueryChar c) :
    (blanks ++ word).dropWhile isBlank = word := by
  rw [List.dropWhile_append_of_pos hblanks]
  cases word with
  | nil => rfl
  | cons c word => exact List.dropWhile_cons_of_neg (isQueryChar_iff.mp (hquery c (.head _))).1

/-- A word behind blanks. -/
theorem blanks_of_word? (h : word? (cs.dropWhile isBlank) = some word) :
    cs = cs.takeWhile isBlank ++ word ∧ (∀ c ∈ cs.takeWhile isBlank, isBlank c) ∧
      ∀ c ∈ word, isQueryChar c := by
  obtain ⟨rfl, hquery⟩ := word?_eq_some_iff.mp h
  exact ⟨List.takeWhile_append_dropWhile.symm, fun c hc => List.mem_takeWhile_imp hc, hquery⟩

/-- What is found behind the first character has a lead in front that starts with it. -/
theorem lead_of_wordBehindLead? (h : wordBehindLead? cs = some word) :
    ∃ lead, cs = lead ++ word ∧ Lead False lead ∧ ∀ c ∈ word, isQueryChar c := by
  cases cs with
  | nil => cases h
  | cons c rest =>
    rw [wordBehindLead?] at h
    rcases Option.or_eq_some_iff.mp h with hblank | ⟨-, hdot⟩
    · rcases Option.or_eq_some_iff.mp hblank with hbracket | ⟨-, hvisible⟩
      · split_ifs at hbracket with hc
        obtain ⟨hrest, hblanks, hquery⟩ := blanks_of_word? hbracket
        refine ⟨c :: rest.takeWhile isBlank, congrArg _ hrest, ?_, hquery⟩
        exact beq_iff_eq.mp hc ▸ .bracket hblanks
      · split_ifs at hvisible with hc
        obtain ⟨hrest, hblanks, hquery⟩ := blanks_of_word? hvisible
        obtain ⟨hc, hhead⟩ := Bool.and_eq_true_iff.mp hc
        refine ⟨c :: rest.takeWhile isBlank, congrArg _ hrest, .visible ?_ ?_ hblanks, hquery⟩
        · simpa using hc
        · cases rest with
          | nil => cases hhead
          | cons d rest =>
            have hd : isBlank d := hhead
            rw [List.takeWhile_cons_of_pos hd]
            exact List.cons_ne_nil _ _
    · split_ifs at hdot with hc
      obtain ⟨rfl, hquery⟩ := word?_eq_some_iff.mp hdot
      exact ⟨[c], rfl, beq_iff_eq.mp hc ▸ .dot, hquery⟩

/-- Behind a lead the word is found. -/
theorem wordBehindLead?_ne_none (h : Lead False lead) (hquery : ∀ c ∈ word, isQueryChar c) :
    wordBehindLead? (lead ++ word) ≠ none := by
  have hword : word? word = some word := word?_eq_some_iff.mpr ⟨rfl, hquery⟩
  cases h with
  | start hfalse => exact hfalse.elim
  | bracket hblanks => simp [wordBehindLead?, dropWhile_blanks hblanks hquery, hword]
  | @visible c blanks hc hne hblanks =>
    cases blanks with
    | nil => exact absurd rfl hne
    | cons d blanks =>
      have hd : isBlank d := hblanks d (.head _)
      have hdrop := dropWhile_blanks hblanks hquery
      rw [List.cons_append] at hdrop
      simp [wordBehindLead?, hdrop, hword, hc, hd]
  | dot => simp [wordBehindLead?, hword]

/-- What is found has a lead in front. -/
theorem lead_of_search? (h : search? cs = some word) :
    ∃ front lead, cs = front ++ (lead ++ word) ∧ Lead False lead ∧ ∀ c ∈ word, isQueryChar c := by
  induction cs with
  | nil => cases h
  | cons c rest ih =>
    rw [search?] at h
    rcases Option.or_eq_some_iff.mp h with h | ⟨-, h⟩
    · obtain ⟨lead, hcs, hlead, hquery⟩ := lead_of_wordBehindLead? h
      exact ⟨[], lead, hcs, hlead, hquery⟩
    · obtain ⟨front, lead, hrest, hlead, hquery⟩ := ih h
      exact ⟨c :: front, lead, congrArg _ hrest, hlead, hquery⟩

/-- A word with a lead in front is found, or another one before it. -/
theorem search?_ne_none (front : List Char) (h : wordBehindLead? cs ≠ none) :
    search? (front ++ cs) ≠ none := by
  induction front with
  | nil =>
    cases cs with
    | nil => exact absurd rfl h
    | cons c rest =>
      intro hnone
      exact h (Option.or_eq_none_iff.mp hnone).1
  | cons c front ih =>
    intro hnone
    exact ih (Option.or_eq_none_iff.mp hnone).2

/-- **What is taken for the word being typed** has a lead in front of it, and nothing is taken only if no
word has. -/
theorem lastWord_cases (cs : List Char) :
    Captures cs (lastWord cs) ∨ lastWord cs = [] ∧ ∀ word, ¬ Captures cs word := by
  rw [lastWord]
  cases hword : (word? (cs.dropWhile isBlank)).or (search? cs) with
  | some word =>
    refine .inl ?_
    rcases Option.or_eq_some_iff.mp hword with h | ⟨-, h⟩
    · obtain ⟨hcs, hblanks, hquery⟩ := blanks_of_word? h
      exact ⟨[], _, hcs, .start rfl hblanks, hquery⟩
    · obtain ⟨front, lead, hcs, hlead, hquery⟩ := lead_of_search? h
      exact ⟨front, lead, hcs, hlead.imp False.elim, hquery⟩
  | none =>
    refine .inr ⟨rfl, ?_⟩
    rintro word ⟨front, lead, rfl, hlead, hquery⟩
    obtain ⟨hstart, hsearch⟩ := Option.or_eq_none_iff.mp hword
    have hbehind : Lead False lead → False :=
      fun h => search?_ne_none front (wordBehindLead?_ne_none h hquery) hsearch
    cases hlead with
    | start hfront hblanks =>
      rw [hfront, List.nil_append, dropWhile_blanks hblanks hquery] at hstart
      rw [word?_eq_some_iff.mpr ⟨rfl, hquery⟩] at hstart
      cases hstart
    | bracket hblanks => exact hbehind (.bracket hblanks)
    | visible hc hne hblanks => exact hbehind (.visible hc hne hblanks)
    | dot => exact hbehind .dot

/-- **What is taken for the word being typed stands at the end of the text**, and all its characters
can be part of a word. -/
theorem endsIn_lastWord (cs : List Char) : EndsIn (lastWord cs) cs := by
  rcases lastWord_cases cs with h | ⟨hnil, -⟩
  · exact h.endsIn
  · rw [hnil]
    exact ⟨List.nil_suffix, nofun⟩

/-- **Behind a blank no word has been begun.** -/
theorem lastWord_blank {c : Char} (hc : isBlank c) (cs : List Char) :
    lastWord (cs ++ [c]) = [] := by
  obtain ⟨hsuffix, hquery⟩ := endsIn_lastWord (cs ++ [c])
  rcases List.suffix_concat_iff.mp hsuffix with hnil | ⟨front, hword, -⟩
  · exact hnil
  · have hmem : c ∈ lastWord (cs ++ [c]) := by
      rw [hword]
      simp
    exact absurd hc (isQueryChar_iff.mp (hquery c hmem)).1

end FilterLang.Cursor
