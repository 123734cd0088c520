import FilterLang.Proofs.Cursor
import Mathlib.Data.List.Induction
import Mathlib.Data.List.Infix
import Mathlib.Data.List.TakeWhile
import Mathlib.Tactic.SplitIfs

/-!
# The pattern of the word being typed

The word at the cursor is what a pattern captures: behind the start of the text or an opening
parenthesis and any blanks, or behind a visible character and at least one blank, or behind a dot there
is a word up to the end of the text.  Which of the ways to match is found makes no difference, because
all of them capture the same word, the longest one at the end of the text; and there is none just where
a closing parenthesis stands in front of it.

* `Pattern` and `Pattern.ways` — patterns, and the ways to match at a place in the order in which they
  are tried; `Pattern.leftmost?` — the first way at the leftmost place that has one.
* `wordPattern` — the pattern of the word being typed.
* `Cut` — a text cut in front of the longest word at its end.
* `captures_iff` — the word of a text that has a lead in front of it.
* `leftmost?_wordPattern` — search by the pattern finds this word, as search by hand does, and so they
  agree (`lastWord_eq`).
* `partialWord_start`, `drop_partialWord` — where the word at the cursor starts.
* `partialWord_longest` — which word that is.
-/

namespace FilterLang.Cursor

open Text (isBlank)

/-! ### Patterns -/

/-- A pattern over the characters of a text. -/
inductive Pattern where
  /-- the start of the text -/
  | start
  /-- the end of the text -/
  | finish
  /-- one character of a class -/
  | one (p : Char → Bool)
  /-- any number of characters of a class, as many as possible -/
  | many (p : Char → Bool)
  /-- one pattern and then another one -/
  | seq (first second : Pattern)
  /-- one pattern or, failing that, another one -/
  | alt (first second : Pattern)
  /-- a pattern whose text is kept -/
  | capture (inner : Pattern)

/-- A way to match a pattern. -/
structure Way where
  /-- what is behind the match -/
  rest : List Char
  /-- the text that is kept -/
  captured : Option (List Char) := none
deriving DecidableEq

namespace Pattern

/-- One character of a class or more, as many as possible. -/
def more (p : Char → Bool) : Pattern := .seq (.one p) (.many p)

/-- What can be behind a number of characters of a class.  More characters are tried before fewer. -/
def runs (p : Char → Bool) : List Char → List (List Char)
  | [] => [[]]
  | c :: cs => (if p c then runs p cs else []) ++ [c :: cs]

/-- The ways to match a pattern of a text where `cs` is left of it, in the order in which they are
tried. -/
def ways (text : List Char) : Pattern → List Char → List Way
  | start, cs => if cs = text then [{ rest := cs }] else []
  | finish, cs => if cs = [] then [{ rest := cs }] else []
  | one _, [] => []
  | one p, c :: cs => if p c then [{ rest := cs }] else []
  | many p, cs => (runs p cs).map fun rest => { rest }
  | seq first second, cs =>
    (first.ways text cs).flatMap fun way =>
      (second.ways text way.rest).map fun next =>
        { next with captured := next.captured.or way.captured }
  | alt first second, cs => first.ways text cs ++ second.ways text cs
  | capture inner, cs =>
    (inner.ways text cs).map fun way =>
      { way with captured := some (cs.take (cs.length - way.rest.length)) }

/-- The first way to match at the leftmost place. -/
def leftmost? (pattern : Pattern) (text : List Char) : Option Way :=
  text.tails.findSome? fun cs => (pattern.ways text cs).head?

variable {text cs : List Char} {p : Char → Bool} {first second inner : Pattern} {way : Way}

theorem mem_runs {rest : List Char} :
    rest ∈ runs p cs ↔ ∃ taken, cs = taken ++ rest ∧ ∀ c ∈ taken, p c := by
  induction cs with
  | nil =>
    simp only [runs, List.mem_singleton, List.nil_eq, List.append_eq_nil_iff]
    exact ⟨fun h => ⟨[], ⟨rfl, h⟩, nofun⟩, fun ⟨_, ⟨_, h⟩, _⟩ => h⟩
  | cons c cs ih =>
    rw [runs, List.mem_append, List.mem_singleton]
    constructor
    · rintro (h | rfl)
      · split_ifs at h with hc
        · obtain ⟨taken, rfl, htaken⟩ := ih.mp h
          exact ⟨c :: taken, rfl, List.forall_mem_cons.mpr ⟨hc, htaken⟩⟩
        · cases h
      · exact ⟨[], rfl, nofun⟩
    · rintro ⟨taken, hcs, htaken⟩
      cases taken with
      | nil => exact .inr hcs.symm
      | cons d taken =>
        obtain ⟨rfl, rfl⟩ := List.cons.inj hcs
        obtain ⟨hc, htaken⟩ := List.forall_mem_cons.mp htaken
        rw [if_pos hc]
        exact .inl (ih.mpr ⟨taken, rfl, htaken⟩)

theorem mem_ways_start : way ∈ start.ways text cs ↔ cs = text ∧ way = { rest := cs } := by
  change way ∈ (if cs = text then [{ rest := cs }] else []) ↔ _
  split_ifs with h <;> simp [h]

theorem mem_ways_finish : way ∈ finish.ways text cs ↔ cs = [] ∧ way = { rest := cs } := by
  change way ∈ (if cs = [] then [{ rest := cs }] else []) ↔ _
  split_ifs with h <;> simp [h]

theorem mem_ways_one :
    way ∈ (one p).ways text cs ↔ ∃ c rest, cs = c :: rest ∧ p c ∧ way = { rest } := by
  cases cs with
  | nil => exact ⟨nofun, fun ⟨_, _, h, _⟩ => nomatch h⟩
  | cons c cs =>
    change way ∈ (if p c then [{ rest := cs }] else []) ↔ _
    split_ifs with h <;> simp [h]

theorem mem_ways_many : way ∈ (many p).ways text cs ↔
    ∃ taken rest, cs = taken ++ rest ∧ (∀ c ∈ taken, p c) ∧ way = { rest } := by
  change way ∈ (runs p cs).map (fun rest => { rest }) ↔ _
  simp only [List.mem_map, mem_runs]
  constructor
  · rintro ⟨rest, ⟨taken, hcs, htaken⟩, rfl⟩
    exact ⟨taken, rest, hcs, htaken, rfl⟩
  · rintro ⟨taken, rest, hcs, htaken, rfl⟩
    exact ⟨rest, ⟨taken, hcs, htaken⟩, rfl⟩

theorem mem_ways_seq : way ∈ (seq first second).ways text cs ↔
    ∃ before ∈ first.ways text cs, ∃ next ∈ second.ways text before.rest,
      way = { next with captured := next.captured.or before.captured } := by
  change way ∈ ((first.ways text cs).flatMap fun before => (second.ways text before.rest).map
    fun next => { next with captured := next.captured.or before.captured }) ↔ _
  simp only [List.mem_flatMap, List.mem_map, eq_comm]

theorem mem_ways_alt : way ∈ (alt first second).ways text cs ↔
    way ∈ first.ways text cs ∨ way ∈ second.ways text cs :=
  List.mem_append

theorem mem_ways_capture : way ∈ (capture inner).ways text cs ↔
    ∃ before ∈ inner.ways text cs,
      way = { before with captured := some (cs.take (cs.length - before.rest.length)) } := by
  change way ∈ ((inner.ways text cs).map fun before =>
    { before with captured := some (cs.take (cs.length - before.rest.length)) }) ↔ _
  simp only [List.mem_map, eq_comm]

theorem mem_ways_more : way ∈ (more p).ways text cs ↔
    ∃ taken rest, cs = taken ++ rest ∧ taken ≠ [] ∧ (∀ c ∈ taken, p c) ∧ way = { rest } := by
  simp only [more, mem_ways_seq, mem_ways_one, mem_ways_many]
  constructor
  · rintro ⟨_, ⟨c, _, rfl, hc, rfl⟩, _, ⟨taken, rest, rfl, htaken, rfl⟩, rfl⟩
    exact ⟨c :: taken, rest, rfl, nofun, List.forall_mem_cons.mpr ⟨hc, htaken⟩, rfl⟩
  · rintro ⟨taken, rest, rfl, hne, htaken, rfl⟩
    cases taken with
    | nil => exact absurd rfl hne
    | cons c taken =>
      obtain ⟨hc, htaken⟩ := List.forall_mem_cons.mp htaken
      exact ⟨_, ⟨c, taken ++ rest, rfl, hc, rfl⟩, _, ⟨taken, rest, rfl, htaken, rfl⟩, rfl⟩

/-- What is found is a way to match at some place. -/
theorem mem_ways_of_leftmost? (h : first.leftmost? text = some way) :
    ∃ front cs, text = front ++ cs ∧ way ∈ first.ways text cs := by
  obtain ⟨cs, hcs, hway⟩ := List.exists_of_findSome?_eq_some h
  obtain ⟨front, rfl⟩ := (List.mem_tails cs text).mp hcs
  exact ⟨front, cs, rfl, List.mem_of_mem_head? hway⟩

/-- If nothing is found, there is no way to match anywhere. -/
theorem ways_eq_nil_of_leftmost? (h : first.leftmost? text = none) {front : List Char}
    (htext : text = front ++ cs) : first.ways text cs = [] := by
  have hcs : cs ∈ text.tails := (List.mem_tails cs text).mpr ⟨front, htext.symm⟩
  exact List.head?_eq_none_iff.mp (List.findSome?_eq_none_iff.mp h cs hcs)

end Pattern

/-! ### The pattern of the word -/

/-- What stands in front of the word: the start of the text or an opening parenthesis with any number of
blanks, or a visible character with at least one, or a dot. -/
def leadPattern : Pattern :=
  .alt
    (.alt (.seq (.alt .start (.one (· == '('))) (.many isBlank))
      (.seq (.one (!isBlank ·)) (.more isBlank)))
    (.one (· == '.'))

/-- The pattern of the word being typed: a lead, and the word up to the end of the text. -/
def wordPattern : Pattern :=
  .seq leadPattern (.seq (.capture (.many isQueryChar)) .finish)

variable {text cs front word run : List Char} {way : Way}

theorem mem_ways_lead : way ∈ leadPattern.ways text cs ↔
    ∃ lead rest, cs = lead ++ rest ∧ Lead (cs = text) lead ∧ way = { rest } := by
  simp only [leadPattern, Pattern.mem_ways_alt, Pattern.mem_ways_seq, Pattern.mem_ways_start,
    Pattern.mem_ways_one, Pattern.mem_ways_many, Pattern.mem_ways_more]
  constructor
  · rintro ((⟨_, ⟨htext, rfl⟩ | ⟨c, _, rfl, hc, rfl⟩, _, ⟨blanks, rest, rfl, hblanks, rfl⟩, rfl⟩ |
      ⟨_, ⟨c, _, rfl, hc, rfl⟩, _, ⟨blanks, rest, rfl, hne, hblanks, rfl⟩, rfl⟩) |
      ⟨c, rest, rfl, hc, rfl⟩)
    · exact ⟨blanks, rest, rfl, .start htext hblanks, rfl⟩
    · exact ⟨c :: blanks, rest, rfl, beq_iff_eq.mp hc ▸ .bracket hblanks, rfl⟩
    · exact ⟨c :: blanks, rest, rfl, .visible (by simpa using hc) hne hblanks, rfl⟩
    · exact ⟨[c], rest, rfl, beq_iff_eq.mp hc ▸ .dot, rfl⟩
  · rintro ⟨lead, rest, rfl, hlead, rfl⟩
    cases hlead with
    | start htext hblanks =>
      exact .inl (.inl ⟨_, .inl ⟨htext, rfl⟩, _, ⟨lead, rest, rfl, hblanks, rfl⟩, rfl⟩)
    | @bracket blanks hblanks =>
      exact .inl (.inl ⟨_, .inr ⟨'(', blanks ++ rest, rfl, rfl, rfl⟩, _,
        ⟨blanks, rest, rfl, hblanks, rfl⟩, rfl⟩)
    | @visible c blanks hc hne hblanks =>
      exact .inl (.inr ⟨_, ⟨c, blanks ++ rest, rfl, by simpa using hc, rfl⟩, _,
        ⟨blanks, rest, rfl, hne, hblanks, rfl⟩, rfl⟩)
    | dot => exact .inr ⟨'.', rest, rfl, rfl, rfl⟩

theorem mem_ways_word : way ∈ wordPattern.ways text cs ↔
    ∃ lead word, cs = lead ++ word ∧ Lead (cs = text) lead ∧ (∀ c ∈ word, isQueryChar c) ∧
      way = ⟨[], some word⟩ := by
  simp only [wordPattern, Pattern.mem_ways_seq, mem_ways_lead, Pattern.mem_ways_capture,
    Pattern.mem_ways_many, Pattern.mem_ways_finish]
  constructor
  · rintro ⟨_, ⟨lead, word, rfl, hlead, rfl⟩, _, ⟨_, ⟨_, ⟨taken, rest, htaken, hquery, rfl⟩, rfl⟩, _,
      ⟨hrest, rfl⟩, rfl⟩, rfl⟩
    dsimp only at hrest htaken
    subst hrest htaken
    exact ⟨lead, taken ++ [], rfl, hlead, by simpa using hquery, by simp⟩
  · rintro ⟨lead, word, rfl, hlead, hquery, rfl⟩
    refine ⟨_, ⟨lead, word, rfl, hlead, rfl⟩, _, ⟨_, ⟨_, ⟨word, [], by simp, hquery, rfl⟩, rfl⟩, _,
      ⟨rfl, rfl⟩, rfl⟩, ?_⟩
    simp

/-! ### The word that is captured -/

/-- A text cut in front of the word at its end, where the word is as long as can be. -/
structure Cut (front run : List Char) : Prop where
  query : ∀ c ∈ run, isQueryChar c
  stops : ∀ c ∈ front.getLast?, ¬ isQueryChar c

theorem exists_cut (cs : List Char) : ∃ front run, cs = front ++ run ∧ Cut front run := by
  induction cs with
  | nil => exact ⟨[], [], rfl, nofun, nofun⟩
  | cons c cs ih =>
    obtain ⟨front, run, rfl, hquery, hstops⟩ := ih
    cases front with
    | nil =>
      by_cases hc : isQueryChar c
      · exact ⟨[], c :: run, rfl, List.forall_mem_cons.mpr ⟨hc, hquery⟩, nofun⟩
      · exact ⟨[c], run, rfl, hquery, by simpa using hc⟩
    | cons d front => exact ⟨c :: d :: front, run, rfl, hquery, by simpa using hstops⟩

/-- No word at the end of the text is longer. -/
theorem Cut.suffix_of_endsIn (h : Cut front run) (hword : EndsIn word (front ++ run)) :
    word <:+ run := by
  obtain ⟨before, hbefore⟩ := hword.suffix
  rcases List.append_eq_append_iff.mp hbefore with ⟨between, rfl, rfl⟩ | ⟨between, rfl, rfl⟩
  · -- what the word has more than the run ends with a character that is in no word
    rcases List.eq_nil_or_concat' between with rfl | ⟨between, c, rfl⟩
    · exact List.suffix_rfl
    · have hc : isQueryChar c := hword.query c (by simp)
      exact absurd hc (h.stops c (by simp))
  · exact List.suffix_append between word

theorem Cut.eq {front' run' : List Char} (h : Cut front run) (h' : Cut front' run')
    (heq : front ++ run = front' ++ run') : front = front' ∧ run = run' := by
  have hsuffix : run' <:+ run :=
    h.suffix_of_endsIn ⟨heq ▸ List.suffix_append front' run', h'.query⟩
  have hsuffix' : run <:+ run' :=
    h'.suffix_of_endsIn ⟨heq ▸ List.suffix_append front run, h.query⟩
  obtain rfl : run = run' := hsuffix'.eq_of_length_le hsuffix.length_le
  exact ⟨List.append_cancel_right heq, rfl⟩

theorem not_query_of_isBlank {c : Char} (hc : isBlank c) : ¬ isQueryChar c ∧ c ≠ ')' := by
  refine ⟨fun hquery => (isQueryChar_iff.mp hquery).1 hc, ?_⟩
  rintro rfl
  exact Bool.false_ne_true hc

/-- A lead ends with a character that is in no word, and with no closing parenthesis.  Only at the start of
the text it may be empty. -/
theorem Lead.last {p : Prop} {lead : List Char} (h : Lead p lead) :
    (∀ c ∈ lead.getLast?, ¬ isQueryChar c ∧ c ≠ ')') ∧ (lead = [] → p) := by
  have hblank : ∀ {cs : List Char}, (∀ c ∈ cs, isBlank c) →
      ∀ c ∈ cs.getLast?, ¬ isQueryChar c ∧ c ≠ ')' :=
    fun hcs c hc => not_query_of_isBlank (hcs c (List.mem_of_getLast? hc))
  cases h with
  | start hp hblanks => exact ⟨hblank hblanks, fun _ => hp⟩
  | bracket hblanks =>
    refine ⟨fun c hc => ?_, nofun⟩
    rcases List.mem_cons.mp (List.mem_of_getLast? hc) with rfl | hc
    · decide
    · exact not_query_of_isBlank (hblanks c hc)
  | @visible d blanks hd hne hblanks =>
    refine ⟨?_, nofun⟩
    rw [List.getLast?_cons_of_ne_nil hne]
    exact hblank hblanks
  | dot => exact ⟨by simp [isQueryChar], nofun⟩

theorem Lead.cut {lead : List Char} (h : Lead (front = []) lead)
    (hquery : ∀ c ∈ word, isQueryChar c) :
    Cut (front ++ lead) word ∧ (front ++ lead).getLast? ≠ some ')' := by
  obtain ⟨hlast, hnil⟩ := h.last
  have hlast : ∀ c ∈ (front ++ lead).getLast?, ¬ isQueryChar c ∧ c ≠ ')' := by
    intro c hc
    by_cases hlead : lead = []
    · rw [hlead, hnil hlead] at hc
      cases hc
    · rw [List.getLast?_append_of_ne_nil _ hlead] at hc
      exact hlast c hc
  exact ⟨⟨hquery, fun c hc => (hlast c hc).1⟩, fun hc => (hlast ')' hc).2 rfl⟩

/-- A text that ends in blanks ends in a lead, and so does one without blanks at its end, unless that is
a character of words or a closing parenthesis. -/
theorem exists_lead (blanks : List Char) (hblanks : ∀ c ∈ blanks, isBlank c)
    (hlast : blanks = [] → ∀ c ∈ front.getLast?, ¬ isQueryChar c ∧ c ≠ ')') :
    ∃ before lead, front ++ blanks = before ++ lead ∧ Lead (before = []) lead := by
  induction front using List.reverseRecOn generalizing blanks with
  | nil => exact ⟨[], blanks, rfl, .start rfl hblanks⟩
  | append_singleton front c ih =>
    rw [List.append_assoc]
    by_cases hc : isBlank c
    · exact ih (c :: blanks) (List.forall_mem_cons.mpr ⟨hc, hblanks⟩) nofun
    · by_cases hnil : blanks = []
      · obtain ⟨hquery, hclosing⟩ := hlast hnil c (by simp)
        have hkind : c = '(' ∨ c = '.' := by
          by_contra hneither
          rw [not_or] at hneither
          exact hquery (isQueryChar_iff.mpr ⟨hc, hneither.1, hclosing, hneither.2⟩)
        subst hnil
        rcases hkind with rfl | rfl
        · exact ⟨front, ['('], rfl, .bracket nofun⟩
        · exact ⟨front, ['.'], rfl, .dot⟩
      · exact ⟨front, c :: blanks, rfl, .visible hc hnil hblanks⟩

/-- **The word that is captured** is the longest one at the end of the text, and there is none just where
a closing parenthesis stands in front of it. -/
theorem captures_iff (h : Cut front run) :
    Captures (front ++ run) word ↔ word = run ∧ front.getLast? ≠ some ')' := by
  constructor
  · rintro ⟨before, lead, heq, hlead, hquery⟩
    obtain ⟨hcut, hlast⟩ := hlead.cut hquery
    rw [← List.append_assoc] at heq
    obtain ⟨rfl, rfl⟩ := h.eq hcut heq
    exact ⟨rfl, hlast⟩
  · rintro ⟨rfl, hlast⟩
    have hstops : ∀ c ∈ front.getLast?, ¬ isQueryChar c ∧ c ≠ ')' := by
      refine fun c hc => ⟨h.stops c hc, ?_⟩
      rintro rfl
      exact hlast hc
    obtain ⟨before, lead, hfront, hlead⟩ := exists_lead [] nofun fun _ => hstops
    rw [List.append_nil] at hfront
    exact ⟨before, lead, by rw [hfront, List.append_assoc], hlead, h.query⟩

theorem Captures.unique {other : List Char} (h : Captures text word) (hother : Captures text other) :
    word = other := by
  obtain ⟨front, run, rfl, hcut⟩ := exists_cut text
  exact ((captures_iff hcut).mp h).1.trans ((captures_iff hcut).mp hother).1.symm

/-! ### Searching -/

/-- **Search by the pattern** finds what is captured. -/
theorem leftmost?_wordPattern (text : List Char) :
    (∃ word, wordPattern.leftmost? text = some ⟨[], some word⟩ ∧ Captures text word) ∨
      wordPattern.leftmost? text = none ∧ ∀ word, ¬ Captures text word := by
  cases hway : wordPattern.leftmost? text with
  | some way =>
    obtain ⟨front, cs, rfl, hmem⟩ := Pattern.mem_ways_of_leftmost? hway
    obtain ⟨lead, word, rfl, hlead, hquery, rfl⟩ := mem_ways_word.mp hmem
    refine .inl ⟨word, rfl, front, lead, rfl, hlead.imp ?_, hquery⟩
    exact fun heq => List.self_eq_append_left.mp heq
  | none =>
    refine .inr ⟨rfl, ?_⟩
    rintro word ⟨front, lead, htext, hlead, hquery⟩
    have hmem : (⟨[], some word⟩ : Way) ∈ wordPattern.ways text (lead ++ word) := by
      refine mem_ways_word.mpr ⟨lead, word, rfl, hlead.imp ?_, hquery, rfl⟩
      rintro rfl
      exact htext.symm
    rw [Pattern.ways_eq_nil_of_leftmost? hway htext] at hmem
    cases hmem

/-- **Search by hand is search by the pattern.** -/
theorem lastWord_eq (text : List Char) :
    lastWord text = ((wordPattern.leftmost? text).bind Way.captured).getD [] := by
  rcases leftmost?_wordPattern text with ⟨word, hfound, hword⟩ | ⟨hnone, hfree⟩
  · rcases lastWord_cases text with h | ⟨-, hfree⟩
    · rw [hfound]
      exact h.unique hword
    · exact absurd hword (hfree word)
  · rcases lastWord_cases text with h | ⟨hnil, -⟩
    · exact absurd h (hfree _)
    · rw [hnone, hnil]
      rfl

theorem lastWord_append (h : Cut front run) :
    lastWord (front ++ run) = if front.getLast? = some ')' then [] else run := by
  rcases lastWord_cases (front ++ run) with hword | ⟨hnil, hfree⟩
  · obtain ⟨hword, hlast⟩ := (captures_iff h).mp hword
    rw [hword, if_neg hlast]
  · rw [hnil]
    split_ifs with hlast
    · rfl
    · exact absurd ((captures_iff h).mpr ⟨rfl, hlast⟩) (hfree run)

/-! ### The word at the cursor -/

section PartialWord

variable (text : String) (column : Nat)

theorem toList_partialWord :
    (partialWord text column).1.toList = lastWord (text.toList.take column) :=
  String.toList_ofList

/-- The word ends in front of the cursor. -/
theorem suffix_partialWord : (partialWord text column).1.toList <:+ text.toList.take column := by
  rw [toList_partialWord]
  exact (endsIn_lastWord _).suffix

/-- The word starts as many columns before the cursor as it is long. -/
theorem partialWord_start :
    (partialWord text column).2 + (partialWord text column).1.length = column := by
  have hlength := (suffix_partialWord text column).length_le
  rw [List.length_take, String.length_toList] at hlength
  have hstart : (partialWord text column).2 = column - (partialWord text column).1.length := by
    rw [partialWord, String.length_ofList]
  omega

/-- Within the text, what stands between the start of the word and the cursor is the word. -/
theorem drop_partialWord (hcolumn : column ≤ text.length) :
    (text.toList.take column).drop (partialWord text column).2 =
      (partialWord text column).1.toList := by
  obtain ⟨before, hbefore⟩ := suffix_partialWord text column
  have hlength := congrArg List.length hbefore
  rw [List.length_append, List.length_take, String.length_toList, String.length_toList] at hlength
  have hstart : (partialWord text column).2 = before.length := by
    have hsum := partialWord_start text column
    omega
  rw [hstart, ← hbefore, List.drop_left]

/-- **The word at the cursor** is the longest one that ends there, of characters that are neither blanks
nor parentheses nor dots, unless a closing parenthesis stands right in front of it: then it is empty.  It
starts as many columns before the cursor as it is long, and so within the text it is what stands from
there up to the cursor.  It is what leftmost search for its pattern captures. -/
theorem partialWord_longest :
    ∃ front run, text.toList.take column = front ++ run ∧
      (∀ c ∈ run, ¬ isBlank c ∧ c ≠ '(' ∧ c ≠ ')' ∧ c ≠ '.') ∧
      (∀ other, other <:+ text.toList.take column →
        (∀ c ∈ other, ¬ isBlank c ∧ c ≠ '(' ∧ c ≠ ')' ∧ c ≠ '.') → other.length ≤ run.length) ∧
      (partialWord text column).1.toList = (if front.getLast? = some ')' then [] else run) ∧
      (partialWord text column).2 + (partialWord text column).1.length = column ∧
      (column ≤ text.length →
        (text.toList.take column).drop (partialWord text column).2 =
          (partialWord text column).1.toList) ∧
      (partialWord text column).1.toList =
        ((wordPattern.leftmost? (text.toList.take column)).bind Way.captured).getD [] := by
  obtain ⟨front, run, hcut, h⟩ := exists_cut (text.toList.take column)
  refine ⟨front, run, hcut, fun c hc => isQueryChar_iff.mp (h.query c hc), fun other hother hquery => ?_,
    ?_, partialWord_start text column, drop_partialWord text column, ?_⟩
  · have hends : EndsIn other (front ++ run) :=
      ⟨hcut ▸ hother, fun c hc => isQueryChar_iff.mpr (hquery c hc)⟩
    exact (h.suffix_of_endsIn hends).length_le
  · rw [toList_partialWord, hcut, lastWord_append h]
  · rw [toList_partialWord, lastWord_eq]

end PartialWord

-- behind an opening parenthesis a word can begin, and behind a closing one none can
example : partialWord "f( ab" 5 = ("ab", 3) ∧ partialWord "(a)b" 4 = ("", 4) ∧
    partialWord "a.b" 9 = ("b", 8) := by
  decide

end FilterLang.Cursor
