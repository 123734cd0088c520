import FilterLang.Library.Json
import FilterLang.Proofs.Json
import FilterLang.Proofs.Library.Strings

/-!
# JSON texts read back

The two ways to write a value differ only in the blanks between its parts.

* `Layout` — where blanks stand in a text, with `Layout.compact` and `Layout.pretty`.
* `Layout.text` — the characters of a value in a layout; both writers write them (`toList_compactTo`,
  `toList_prettyTo`).
* `readItems?_joined`, `readMembers?_joined` — lists and objects are read item by item.
* `Plain.readsBack` — a value is read from its text in every layout.
* `faithful_compact`, `faithful_pretty` — so both formats are faithful.
-/

namespace FilterLang.Json

/-! ### Layouts -/

/-- Where blanks stand in a text. -/
structure Layout where
  /-- in front of an item at a depth of brackets, or of the bracket that closes that depth -/
  line : Nat → List Char
  /-- behind the colon of a member -/
  gap : List Char
  blank_line : ∀ depth, ∀ c ∈ line depth, isBlank c
  blank_gap : ∀ c ∈ gap, isBlank c

namespace Layout

/-- No blanks at all. -/
def compact : Layout where
  line := fun _ => []
  gap := []
  blank_line := fun _ => List.forall_mem_nil _
  blank_gap := List.forall_mem_nil _

theorem isBlank_of_mem_newLine (depth : Nat) : ∀ c ∈ (newLine depth).toList, isBlank c := by
  intro c hc
  rw [newLine, String.toList_ofList] at hc
  rcases List.mem_cons.mp hc with rfl | hc
  · rfl
  · rw [List.eq_of_mem_replicate hc]
    rfl

/-- Every item on a line of its own. -/
def pretty : Layout where
  line := fun depth => (newLine depth).toList
  gap := [' ']
  blank_line := isBlank_of_mem_newLine
  blank_gap := by
    intro c hc
    rw [List.mem_singleton.mp hc]
    rfl

/-- The texts of items with commas between them, the first one behind `separator`. -/
def joined (l : Layout) (depth : Nat) (separator : List Char) : List (List Char) → List Char
  | [] => []
  | piece :: pieces => separator ++ (l.line depth ++ (piece ++ l.joined depth [','] pieces))

/-- The texts of items between two brackets. -/
def enclosed (l : Layout) (depth : Nat) (opening closing : Char) : List (List Char) → List Char
  | [] => [opening, closing]
  | pieces => opening :: (l.joined (depth + 1) [] pieces ++ (l.line depth ++ [closing]))

mutual

/-- The text of a value at a depth of brackets. -/
def text (l : Layout) (depth : Nat) : Json → List Char
  | null => "null".toList
  | bool value => (if value then "true" else "false").toList
  | number text => text.toList
  | string value => (quote value).toList
  | broken => "null".toList
  | array items => l.enclosed depth '[' ']' (l.itemTexts (depth + 1) items)
  | object members => l.enclosed depth '\x7b' '\x7d' (l.memberTexts (depth + 1) members)

/-- The texts of the items of a list. -/
def itemTexts (l : Layout) (depth : Nat) : List Json → List (List Char)
  | [] => []
  | item :: items => l.text depth item :: l.itemTexts depth items

/-- The texts of the members of an object. -/
def memberTexts (l : Layout) (depth : Nat) : List (String × Json) → List (List Char)
  | [] => []
  | member :: members => l.memberText depth member :: l.memberTexts depth members

/-- The text of a member. -/
def memberText (l : Layout) (depth : Nat) : String × Json → List Char
  | (name, value) => (quote name).toList ++ ':' :: (l.gap ++ l.text depth value)

end

end Layout

/-! ### Writing -/

section Writing

variable {items : List Json} {members : List (String × Json)}

theorem toList_compactItemsTo (h : ∀ item ∈ items, ∀ depth out,
      (compactTo out item).toList = out.toList ++ Layout.compact.text depth item)
    (depth : Nat) (out separator : String) :
    (compactItemsTo out separator items).toList = out.toList ++
      Layout.compact.joined depth separator.toList (Layout.compact.itemTexts depth items) := by
  induction items generalizing out separator with
  | nil => simp [compactItemsTo, Layout.itemTexts, Layout.joined]
  | cons item items ih =>
    rw [compactItemsTo, ih fun i hi => h i (.tail _ hi), h item (.head _) depth]
    simp [Layout.itemTexts, Layout.joined, Layout.compact]

theorem toList_compactMembersTo (h : ∀ m ∈ members, ∀ depth out,
      (compactTo out m.2).toList = out.toList ++ Layout.compact.text depth m.2)
    (depth : Nat) (out separator : String) :
    (compactMembersTo out separator members).toList = out.toList ++
      Layout.compact.joined depth separator.toList (Layout.compact.memberTexts depth members) := by
  induction members generalizing out separator with
  | nil => simp [compactMembersTo, Layout.memberTexts, Layout.joined]
  | cons m members ih =>
    obtain ⟨name, value⟩ := m
    rw [compactMembersTo, compactMemberTo, ih fun m hm => h m (.tail _ hm), h _ (.head _) depth]
    simp [Layout.memberTexts, Layout.memberText, Layout.joined, Layout.compact]

theorem toList_prettyItemsTo (h : ∀ item ∈ items, ∀ depth out,
      (prettyTo depth out item).toList = out.toList ++ Layout.pretty.text depth item)
    (depth : Nat) (out separator : String) :
    (prettyItemsTo depth out separator items).toList = out.toList ++
      Layout.pretty.joined depth separator.toList (Layout.pretty.itemTexts depth items) := by
  induction items generalizing out separator with
  | nil => simp [prettyItemsTo, Layout.itemTexts, Layout.joined]
  | cons item items ih =>
    rw [prettyItemsTo, ih fun i hi => h i (.tail _ hi), h item (.head _) depth]
    simp [Layout.itemTexts, Layout.joined, Layout.pretty]

theorem toList_prettyMembersTo (h : ∀ m ∈ members, ∀ depth out,
      (prettyTo depth out m.2).toList = out.toList ++ Layout.pretty.text depth m.2)
    (depth : Nat) (out separator : String) :
    (prettyMembersTo depth out separator members).toList = out.toList ++
      Layout.pretty.joined depth separator.toList (Layout.pretty.memberTexts depth members) := by
  induction members generalizing out separator with
  | nil => simp [prettyMembersTo, Layout.memberTexts, Layout.joined]
  | cons m members ih =>
    obtain ⟨name, value⟩ := m
    rw [prettyMembersTo, prettyMemberTo, ih fun m hm => h m (.tail _ hm), h _ (.head _) depth]
    simp [Layout.memberTexts, Layout.memberText, Layout.joined, Layout.pretty]

end Writing

/-- A value on one line has no blanks, at any depth. -/
theorem Plain.toList_compactTo {value : Json} (h : value.Plain) (depth : Nat) (out : String) :
    (compactTo out value).toList = out.toList ++ Layout.compact.text depth value := by
  induction h generalizing depth out with
  | null => simp [compactTo, Layout.text]
  | bool => simp [compactTo, Layout.text]
  | string => simp [compactTo, Layout.text]
  | @array items _ ih =>
    rw [compactTo, String.toList_append, toList_compactItemsTo ih (depth + 1)]
    cases items with
    | nil => simp [Layout.text, Layout.itemTexts, Layout.joined, Layout.enclosed]
    | cons => simp [Layout.text, Layout.itemTexts, Layout.enclosed, Layout.compact]
  | @object members _ _ ih =>
    rw [compactTo, String.toList_append, toList_compactMembersTo ih (depth + 1)]
    cases members with
    | nil => simp [Layout.text, Layout.memberTexts, Layout.joined, Layout.enclosed]
    | cons => simp [Layout.text, Layout.memberTexts, Layout.enclosed, Layout.compact]

/-- A value over several lines has every item on a line of its own. -/
theorem Plain.toList_prettyTo {value : Json} (h : value.Plain) (depth : Nat) (out : String) :
    (prettyTo depth out value).toList = out.toList ++ Layout.pretty.text depth value := by
  induction h generalizing depth out with
  | null => simp [prettyTo, Layout.text]
  | bool => simp [prettyTo, Layout.text]
  | string => simp [prettyTo, Layout.text]
  | @array items _ ih =>
    cases items with
    | nil => simp [prettyTo, Layout.text, Layout.itemTexts, Layout.enclosed]
    | cons item items =>
      rw [prettyTo, String.toList_append, String.toList_append, toList_prettyItemsTo ih]
      · simp [Layout.text, Layout.itemTexts, Layout.enclosed, Layout.pretty]
      · exact fun h => List.cons_ne_nil _ _ h
  | @object members _ _ ih =>
    cases members with
    | nil => simp [prettyTo, Layout.text, Layout.memberTexts, Layout.enclosed]
    | cons member members =>
      rw [prettyTo, String.toList_append, String.toList_append, toList_prettyMembersTo ih]
      · simp [Layout.text, Layout.memberTexts, Layout.enclosed, Layout.pretty]
      · exact fun h => List.cons_ne_nil _ _ h

/-! ### Blanks and first characters -/

theorem skipBlanks_append {blanks : List Char} (h : ∀ c ∈ blanks, isBlank c) (cs : List Char) :
    skipBlanks (blanks ++ cs) = skipBlanks cs :=
  List.dropWhile_append_of_pos h

theorem skipBlanks_cons {c : Char} (h : isBlank c = false) (cs : List Char) :
    skipBlanks (c :: cs) = c :: cs :=
  List.dropWhile_cons_of_neg (by simp [h])

/-- A value starts with one of these characters. -/
theorem Plain.exists_cons {value : Json} (h : value.Plain) (l : Layout) (depth : Nat) :
    ∃ c cs, l.text depth value = c :: cs ∧ isBlank c = false ∧ c ≠ ']' := by
  cases h with
  | null => exact ⟨'n', _, rfl, rfl, by decide⟩
  | bool value =>
    cases value with
    | true => exact ⟨'t', _, rfl, rfl, by decide⟩
    | false => exact ⟨'f', _, rfl, rfl, by decide⟩
  | string value => exact ⟨'"', _, toList_quote value, rfl, by decide⟩
  | @array items =>
    cases items with
    | nil => exact ⟨'[', _, rfl, rfl, by decide⟩
    | cons => exact ⟨'[', _, rfl, rfl, by decide⟩
  | @object members =>
    cases members with
    | nil => exact ⟨'\x7b', _, rfl, rfl, by decide⟩
    | cons => exact ⟨'\x7b', _, rfl, rfl, by decide⟩

theorem Plain.skipBlanks_text {value : Json} (h : value.Plain) (l : Layout) (depth : Nat)
    (rest : List Char) : skipBlanks (l.text depth value ++ rest) = l.text depth value ++ rest := by
  obtain ⟨c, cs, hcons, hblank, -⟩ := h.exists_cons l depth
  rw [hcons, List.cons_append, skipBlanks_cons hblank]

/-! ### Reading -/

/-- What is behind the first item between two brackets: further items, the closing bracket and the
rest. -/
def Layout.behind (l : Layout) (depth : Nat) (closing : Char) (pieces : List (List Char))
    (rest : List Char) : List Char :=
  l.joined (depth + 1) [','] pieces ++ (l.line depth ++ closing :: rest)

section Reading

variable {l : Layout} {blanks : List Char}

theorem skipBlanks_behind_nil {closing : Char} (hclosing : isBlank closing = false) (depth : Nat)
    (rest : List Char) : skipBlanks (l.behind depth closing [] rest) = closing :: rest := by
  rw [Layout.behind, Layout.joined, List.nil_append, skipBlanks_append (l.blank_line depth),
    skipBlanks_cons hclosing]

theorem behind_cons (depth : Nat) (closing : Char) (piece : List Char) (pieces : List (List Char))
    (rest : List Char) : l.behind depth closing (piece :: pieces) rest =
      ',' :: (l.line (depth + 1) ++ (piece ++ l.behind depth closing pieces rest)) := by
  simp [Layout.behind, Layout.joined]

theorem enclosed_cons (depth : Nat) (opening closing : Char) (piece : List Char)
    (pieces : List (List Char)) (rest : List Char) :
    l.enclosed depth opening closing (piece :: pieces) ++ rest =
      opening :: (l.line (depth + 1) ++ (piece ++ l.behind depth closing pieces rest)) := by
  simp [Layout.enclosed, Layout.joined, Layout.behind]

/-- The value is read from its text, whatever is behind it.  Two descents for each character are
enough. -/
def ReadsBack (l : Layout) (value : Json) : Prop :=
  ∀ depth fuel rest, 2 * (l.text depth value).length ≤ fuel →
    readValue? fuel (l.text depth value ++ rest) = some (value, rest)

/-- **The items of a list are read one by one**, up to the closing bracket. -/
theorem readItems?_behind {item : Json} {items : List Json}
    (hplain : ∀ i ∈ item :: items, i.Plain) (hread : ∀ i ∈ item :: items, ReadsBack l i)
    (hblanks : ∀ c ∈ blanks, isBlank c) (depth fuel : Nat) (rest : List Char)
    (hfuel : 2 * (l.text (depth + 1) item ++
      l.joined (depth + 1) [','] (l.itemTexts (depth + 1) items)).length + 1 ≤ fuel) :
    readItems? fuel (blanks ++ (l.text (depth + 1) item ++
      l.behind depth ']' (l.itemTexts (depth + 1) items) rest)) = some (item :: items, rest) := by
  have hclosing : isBlank ']' = false := rfl
  induction items generalizing item blanks fuel with
  | nil =>
    obtain ⟨fuel, rfl⟩ := Nat.exists_eq_add_of_le' (Nat.le_of_add_left_le hfuel)
    rw [List.length_append] at hfuel
    rw [readItems?, skipBlanks_append hblanks, (hplain item (.head _)).skipBlanks_text,
      hread item (.head _) (depth + 1) fuel _ (by omega)]
    simp only [Layout.itemTexts, Option.bind_eq_bind, Option.bind_some, skipBlanks_behind_nil hclosing]
    rfl
  | cons next items ih =>
    obtain ⟨fuel, rfl⟩ := Nat.exists_eq_add_of_le' (Nat.le_of_add_left_le hfuel)
    simp only [Layout.itemTexts, Layout.joined, List.length_append, List.length_singleton] at hfuel
    have hnext := ih (fun i hi => hplain i (.tail _ hi)) (fun i hi => hread i (.tail _ hi))
      (l.blank_line (depth + 1)) fuel (by rw [List.length_append]; omega)
    rw [readItems?, skipBlanks_append hblanks, (hplain item (.head _)).skipBlanks_text,
      hread item (.head _) (depth + 1) fuel _ (by omega), Layout.itemTexts, behind_cons]
    simp only [Option.bind_eq_bind, Option.bind_some, skipBlanks_cons (c := ',') rfl, hnext]
    rfl

/-- A member is its quoted name, a colon and its value. -/
theorem memberText_append (name : String) (value : Json) (depth : Nat) (rest : List Char) :
    l.memberText depth (name, value) ++ rest =
      '"' :: (name.toList.flatMap quoteChar ++ '"' :: ':' ::
        (l.gap ++ (l.text depth value ++ rest))) := by
  simp [Layout.memberText, toList_quote]

/-- A member is read up to its value, and behind a comma there are more. -/
theorem readMembers?_member (name : String) {value : Json} (hplain : value.Plain)
    (hblanks : ∀ c ∈ blanks, isBlank c) {depth fuel : Nat} {rest : List Char}
    (hvalue : readValue? fuel (l.text depth value ++ rest) = some (value, rest)) :
    (∀ more, skipBlanks rest = ',' :: more →
      readMembers? (fuel + 1) (blanks ++ (l.memberText depth (name, value) ++ rest)) =
        (readMembers? fuel more).map fun r => ((name.toList.map Char.toNat, value) :: r.1, r.2)) ∧
    ∀ more, skipBlanks rest = '\x7d' :: more →
      readMembers? (fuel + 1) (blanks ++ (l.memberText depth (name, value) ++ rest)) =
        some ([(name.toList.map Char.toNat, value)], more) := by
  have hname : skipBlanks (blanks ++ (l.memberText depth (name, value) ++ rest)) =
      '"' :: (name.toList.flatMap quoteChar ++ '"' :: ':' ::
        (l.gap ++ (l.text depth value ++ rest))) := by
    rw [skipBlanks_append hblanks, memberText_append, skipBlanks_cons rfl]
  have hcolon : ∀ cs, skipBlanks (':' :: cs) = ':' :: cs := skipBlanks_cons rfl
  have hgap : skipBlanks (l.gap ++ (l.text depth value ++ rest)) = l.text depth value ++ rest := by
    rw [skipBlanks_append l.blank_gap, hplain.skipBlanks_text]
  simp only [readMembers?, hname, readString?_quote, Option.bind_eq_bind, Option.bind_some, hcolon,
    hgap, hvalue]
  refine ⟨fun more hmore => ?_, fun more hmore => ?_⟩
  · simp only [hmore]
    cases readMembers? fuel more <;> rfl
  · simp only [hmore]
    rfl

/-- **The members of an object are read one by one**, up to the closing brace. -/
theorem readMembers?_behind {member : String × Json} {members : List (String × Json)}
    (hplain : ∀ m ∈ member :: members, m.2.Plain)
    (hread : ∀ m ∈ member :: members, ReadsBack l m.2)
    (hblanks : ∀ c ∈ blanks, isBlank c) (depth fuel : Nat) (rest : List Char)
    (hfuel : 2 * (l.memberText (depth + 1) member ++
      l.joined (depth + 1) [','] (l.memberTexts (depth + 1) members)).length + 1 ≤ fuel) :
    readMembers? fuel (blanks ++ (l.memberText (depth + 1) member ++
      l.behind depth '\x7d' (l.memberTexts (depth + 1) members) rest)) =
        some ((member :: members).map fun m => (m.1.toList.map Char.toNat, m.2), rest) := by
  have hclosing : isBlank '\x7d' = false := rfl
  have hcomma : ∀ cs, skipBlanks (',' :: cs) = ',' :: cs := skipBlanks_cons rfl
  induction members generalizing member blanks fuel with
  | nil =>
    obtain ⟨name, value⟩ := member
    obtain ⟨fuel, rfl⟩ := Nat.exists_eq_add_of_le' (Nat.le_of_add_left_le hfuel)
    simp only [Layout.memberText, List.length_append, List.length_cons] at hfuel
    have hmember := readMembers?_member name (hplain _ (.head _)) hblanks
      (hread _ (.head _) (depth + 1) fuel (l.behind depth '\x7d' [] rest) (by dsimp only; omega))
    exact hmember.2 _ (skipBlanks_behind_nil hclosing depth rest)
  | cons next members ih =>
    obtain ⟨name, value⟩ := member
    obtain ⟨fuel, rfl⟩ := Nat.exists_eq_add_of_le' (Nat.le_of_add_left_le hfuel)
    simp only [Layout.memberTexts, Layout.joined, Layout.memberText, List.length_append,
      List.length_cons, List.length_nil] at hfuel
    have hnext := ih (fun m hm => hplain m (.tail _ hm)) (fun m hm => hread m (.tail _ hm))
      (l.blank_line (depth + 1)) fuel (by rw [List.length_append]; omega)
    have hmember := readMembers?_member name (hplain _ (.head _)) hblanks
      (hread _ (.head _) (depth + 1) fuel (l.behind depth '\x7d'
        (l.memberTexts (depth + 1) (next :: members)) rest) (by dsimp only; omega))
    rw [Layout.memberTexts, behind_cons] at hmember ⊢
    rw [hmember.1 _ (hcomma _), hnext]
    rfl

end Reading

theorem Plain.exists_fuel {value : Json} (h : value.Plain) {l : Layout} {depth fuel : Nat}
    (hfuel : 2 * (l.text depth value).length ≤ fuel) : ∃ n, fuel = n + 1 := by
  obtain ⟨c, cs, hcons, -⟩ := h.exists_cons l depth
  rw [hcons, List.length_cons] at hfuel
  exact ⟨fuel - 1, by omega⟩

/-- **A value is read from its text**, in every layout and at every depth. -/
theorem Plain.readsBack {value : Json} (h : value.Plain) (l : Layout) : ReadsBack l value := by
  have hnil : ∀ c ∈ ([] : List Char), isBlank c := List.forall_mem_nil _
  induction h with
  | null =>
    intro depth fuel rest hfuel
    obtain ⟨fuel, rfl⟩ := Plain.null.exists_fuel hfuel
    rfl
  | bool value =>
    intro depth fuel rest hfuel
    obtain ⟨fuel, rfl⟩ := (Plain.bool value).exists_fuel hfuel
    cases value <;> rfl
  | string value =>
    intro depth fuel rest hfuel
    obtain ⟨fuel, rfl⟩ := (Plain.string value).exists_fuel hfuel
    have hstring : readString? (value.toList.flatMap quoteChar ++ ['"'] ++ rest) =
        some (value.toList.map Char.toNat, rest) := by
      rw [List.append_assoc]
      exact readString?_quote _ _
    rw [Layout.text, toList_quote, List.cons_append]
    show (readString? _).map _ = _
    rw [hstring, Option.map_some, ofUnits_toNat]
  | @array items hplain ih =>
    intro depth fuel rest hfuel
    obtain ⟨fuel, rfl⟩ := (Plain.array hplain).exists_fuel hfuel
    cases items with
    | nil => rfl
    | cons item items =>
      have hitems := readItems?_behind hplain ih hnil depth fuel rest (by
        simp [Layout.text, Layout.itemTexts, Layout.enclosed, Layout.joined] at hfuel ⊢
        omega)
      obtain ⟨c, cs, hcons, hblank, hclosing⟩ := (hplain item (.head _)).exists_cons l (depth + 1)
      rw [List.nil_append, hcons, List.cons_append] at hitems
      rw [Layout.text, Layout.itemTexts, enclosed_cons, hcons, List.cons_append]
      simp only [readValue?, skipBlanks_append (l.blank_line _), skipBlanks_cons hblank]
      split
      · next heq => exact absurd (List.cons.inj heq).1 hclosing
      · rw [hitems]
        rfl
  | @object members hnames hplain ih =>
    intro depth fuel rest hfuel
    obtain ⟨fuel, rfl⟩ := (Plain.object hnames hplain).exists_fuel hfuel
    cases members with
    | nil => rfl
    | cons member members =>
      obtain ⟨name, value⟩ := member
      have hmembers := readMembers?_behind hplain ih hnil depth fuel rest (by
        simp [Layout.text, Layout.memberTexts, Layout.enclosed, Layout.joined] at hfuel ⊢
        omega)
      have hquote : isBlank '"' = false := rfl
      rw [List.nil_append, memberText_append] at hmembers
      rw [Layout.text, Layout.memberTexts, enclosed_cons, memberText_append]
      simp only [readValue?, skipBlanks_append (l.blank_line _), skipBlanks_cons hquote]
      split
      · next heq => exact absurd (List.cons.inj heq).1 (by decide)
      · rw [hmembers, Option.map_some, ofMembers_toNat]

/-! ### Whole texts -/

/-- A text that is a value in some layout is read as the value. -/
theorem Plain.parse?_eq {value : Json} (h : value.Plain) {l : Layout} {text : String}
    (htext : text.toList = l.text 0 value) : parse? text = some value := by
  have hskip := h.skipBlanks_text l 0 []
  have hread := h.readsBack l 0 (2 * text.toList.length + 2) [] (by rw [htext]; omega)
  rw [List.append_nil] at hskip hread
  rw [← htext] at hskip hread
  simp only [parse?, hskip, hread]
  rfl

/-- **What is written on one line is read back.** -/
theorem faithful_compact : Format.compact.Faithful := fun _ h _ =>
  h.parse?_eq (l := .compact) (h.toList_compactTo 0 "")

/-- **What is written over several lines is read back.** -/
theorem faithful_pretty : Format.pretty.Faithful := fun _ h _ =>
  h.parse?_eq (l := .pretty) (h.toList_prettyTo 0 "")

end FilterLang.Json
