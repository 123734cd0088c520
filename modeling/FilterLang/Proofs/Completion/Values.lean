import FilterLang.Completion
import FilterLang.Library.Alignment
import FilterLang.Proofs.Scanner.Words
import Mathlib.Algebra.Order.BigOperators.Group.List
import Mathlib.Algebra.Order.Ring.Nat

/-!
# Values as literals

The values of a left operand are offered between double quotes, as they are.  What an item reads as is
then the value it was made from only if nothing in it would have to be escaped.

* `literal?` — the text that a literal stands for, if a text is just that.
* `literal?_quoted` — a plain value between quotes stands for itself.
* `length_literal?` — any other one stands for something shorter, or for nothing, so that values that
  are not plain do not stand for each other either (`isPlain_of_perm`).
* `exists_valueItems` — a completion by values lists all values of one entry.
* `values_faithful_iff` — when the items are literals of the values.
-/

namespace FilterLang

/-- The text that a literal stands for.  It is the only token in front of the end, and sound. -/
def literal? (text : String) : Option String :=
  match scan text with
  | ⟨[token, last], none⟩ =>
    if token.kind = .string ∧ last.kind = .eof then some token.value else none
  | _ => none

theorem literal?_eq_some_iff {text value : String} : literal? text = some value ↔
    ∃ token last, scan text = ⟨[token, last], none⟩ ∧ token.kind = .string ∧ last.kind = .eof ∧
      token.value = value := by
  rw [literal?]
  constructor
  · intro h
    split at h
    · next token last hscan =>
      split_ifs at h with hkind
      exact ⟨token, last, hscan, hkind.1, hkind.2, Option.some.inj h⟩
    · cases h
  · rintro ⟨token, last, hscan, hkind, hlast, rfl⟩
    simp only [hscan]
    exact if_pos ⟨hkind, hlast⟩

/-- A value between double quotes, as it is. -/
def quoted (value : String) : String := "\"" ++ value ++ "\""

theorem toList_quoted (value : String) :
    (quoted value).toList = '"' :: (value.toList ++ ['"']) := by
  rw [quoted, String.toList_append, String.toList_append]
  rfl

/-! ### Plain values -/

/-- **A plain value stands for itself.** -/
theorem literal?_quoted {value : String} (h : Text.IsPlain value.toList) :
    literal? (quoted value) = some value := by
  have htakes : Scanner.Takes (quoted value).toList [(.string, value)] [] := by
    rw [toList_quoted, ← String.ofList_toList (s := value), String.toList_ofList]
    exact Scanner.takes_quoted fun here => Text.read_plain h [] here
  obtain ⟨hfault, front, last, htokens, hwords, hlast⟩ := Scanner.scan_of_takes htakes
  obtain ⟨token, rfl, hword⟩ := List.map_eq_singleton_iff.mp hwords
  refine literal?_eq_some_iff.mpr ⟨token, last, ?_, congrArg Prod.fst hword, hlast,
    congrArg Prod.snd hword⟩
  rw [← hfault]
  exact congrArg (fun tokens => Scan.mk tokens (scan (quoted value)).fault) htokens

/-! ### Other values -/

/-- What stands between the quotes is read up to the last of them. -/
theorem read_of_literal? {value text : String} (h : literal? (quoted value) = some text) :
    ∃ here, (Text.Quoted.read '"' here (value.toList ++ ['"'])).closed = true ∧
      text = String.ofList (Text.Quoted.read '"' here (value.toList ++ ['"'])).value := by
  obtain ⟨token, last, hscan, -, -, rfl⟩ := literal?_eq_some_iff.mp h
  let start : Scanner := { rest := (quoted value).toList }
  have hrest : start.rest = '"' :: (value.toList ++ ['"']) := toList_quoted value
  obtain ⟨first, hfirst, hvalue, hopen⟩ := Scanner.readQuoted_spec start '"'
  have hbehind : (start.read 1).rest = value.toList ++ ['"'] := by
    rw [Scanner.read_rest, hrest]
    rfl
  rw [hbehind] at hvalue hopen
  have hready : Scanner.Ready .root (start.readQuoted '"') := rfl
  have hfinish : Scanner.finish .root start = Scanner.finish .root (start.readQuoted '"') :=
    Scanner.finish_root rfl hrest (Scanner.stepRoot_quote start)
  -- the first token stays where it is found
  obtain ⟨more, hmore⟩ := Scanner.exists_tokens_of_finish rfl hfinish
  have hone : first = token := by
    rw [hscan, hfirst] at hmore
    exact (List.cons.inj hmore).1.symm
  refine ⟨(start.read 1).here, ?_, hone ▸ hvalue⟩
  by_contra hclosed
  obtain ⟨t, hfaulty, -, -, hend⟩ :=
    Scanner.stable_faulty.finish hready nofun (hopen (Bool.eq_false_iff.mpr hclosed))
  have hfault : (scan (quoted value)).fault = t.fault := by
    rw [scan, Scanner.scanChars_eq, hfinish, hend]
    rfl
  rw [hscan] at hfault
  exact hfaulty hfault.symm

/-- **What is put between quotes as it is stands for nothing longer**, and for something as long only
if it is plain. -/
theorem length_literal? {value text : String} (h : literal? (quoted value) = some text) :
    text.length ≤ value.length ∧ (value.length ≤ text.length → Text.IsPlain value.toList) := by
  obtain ⟨here, hclosed, rfl⟩ := read_of_literal? h
  rw [String.length_ofList, ← String.length_toList]
  exact Text.length_value_read hclosed

/-- If values between quotes stand for the values, in whatever order, then each is plain. -/
theorem isPlain_of_perm {values : List String}
    (h : (values.map fun value => literal? (quoted value)).Perm (values.map some)) :
    ∀ value ∈ values, Text.IsPlain value.toList := by
  let size (text : Option String) : Nat := (text.map String.length).getD 0
  have hsum : (values.map fun value => size (literal? (quoted value))).sum =
      (values.map fun value => size (some value)).sum := by
    have hsizes := (h.map size).sum_eq
    rwa [List.map_map, List.map_map] at hsizes
  have hread : ∀ value ∈ values, ∃ text, literal? (quoted value) = some text := by
    intro value hvalue
    have hmem := h.subset (List.mem_map_of_mem hvalue)
    obtain ⟨text, -, htext⟩ := List.mem_map.mp hmem
    exact ⟨text, htext.symm⟩
  have hle : ∀ value ∈ values, size (literal? (quoted value)) ≤ size (some value) := by
    intro value hvalue
    obtain ⟨text, htext⟩ := hread value hvalue
    rw [htext]
    exact (length_literal? htext).1
  -- a value that is not plain would stand for something shorter, and nothing makes up for it
  by_contra hnone
  push Not at hnone
  obtain ⟨value, hvalue, hplain⟩ := hnone
  obtain ⟨text, htext⟩ := hread value hvalue
  have hlt : size (literal? (quoted value)) < size (some value) := by
    rw [htext]
    exact Nat.lt_of_not_le fun hlength => hplain ((length_literal? htext).2 hlength)
  exact absurd hsum (List.sum_lt_sum _ _ hle ⟨value, hvalue, hlt⟩).ne

/-! ### Completions by values -/

namespace Completion

variable {matcher : Matcher} {schema : Schema} {query : String} {column : Nat}
  {tokens : List Token}

/-- Only the right side of an operator is offered values: those of one entry. -/
theorem values_of_rightOf? {left : Expr} {operator : String} {offer : Title × List Item}
    (h : rightOf? matcher schema query left operator = some offer) (htitle : offer.1 = .values) :
    ∃ entry values, entry.values = some values ∧ offer.2 = valueItems entry values := by
  unfold rightOf? at h
  generalize (check schema (some .bool) left).tree.entry? = found at h
  dsimp only at h
  by_cases hdate : found.any TypeEntry.isDate
  · rw [if_pos hdate] at h
    cases h
    cases htitle
  rw [if_neg hdate] at h
  split at h
  · next entry values hvalues =>
    cases h
    exact ⟨entry, values, hvalues, rfl⟩
  · cases h
    cases htitle
  · split_ifs at h
    cases h
    cases htitle

/-- **A completion by values lists all values of one entry**, between quotes. -/
theorem exists_valueItems {completion : Completion}
    (h : withQuery? matcher schema query column tokens = some completion)
    (htitle : completion.title = .values) :
    ∃ entry values, entry.values = some values ∧ completion.items = valueItems entry values := by
  obtain ⟨offer, hoffer, rfl⟩ := Option.map_eq_some_iff.mp h
  have hnext : (completeTokens column tokens).getLast?.map (operatorsAfter matcher schema query) ≠
      some offer := by
    intro hnext
    obtain ⟨previous, -, rfl⟩ := Option.map_eq_some_iff.mp hnext
    cases htitle
  have hvariables : some (variableOffer matcher schema query) ≠ some offer := by
    rintro ⟨⟩
    cases htitle
  unfold offer? at hoffer
  dsimp only at hoffer
  split at hoffer
  · cases hlast : (completeTokens column tokens).getLast? with
    | none =>
      rw [hlast] at hoffer
      exact absurd hoffer hvariables
    | some previous =>
      rw [hlast] at hoffer hnext
      exact absurd hoffer hnext
  · split at hoffer
    · exact values_of_rightOf? hoffer htitle
    · split_ifs at hoffer
      · exact absurd hoffer hvariables
      · exact absurd hoffer hnext
    · split_ifs at hoffer
      · exact absurd hoffer hvariables
      · exact absurd hoffer hnext
    · exact absurd hoffer hnext
    · exact absurd hoffer hnext

/-- **When offered values are literals.**  A completion by values offers all values of one entry, each
with the entry.  What the items read as, each as a literal alone, are the values of the entry, just
where no value holds a double quote, a backslash or a line feed: the quotes are put around a value as
it is. -/
theorem values_faithful_iff {completion : Completion}
    (h : withQuery? matcher schema query column tokens = some completion)
    (htitle : completion.title = .values) :
    ∃ entry values, entry.values = some values ∧
      (∀ item ∈ completion.items, item.entry = .type entry) ∧
      ((completion.items.map fun item => literal? item.name).Perm (values.map some) ↔
        ∀ value ∈ values, ∀ c ∈ value.toList, c ≠ '"' ∧ c ≠ '\\' ∧ c ≠ '\n') := by
  obtain ⟨entry, values, hvalues, hitems⟩ := exists_valueItems h htitle
  have hsorted : (values.mergeSort fun x y => x ≤ y).Perm values := List.mergeSort_perm _ _
  generalize hsort : (values.mergeSort fun x y => x ≤ y) = sorted at hsorted
  rw [valueItems, hsort] at hitems
  have hnames : (completion.items.map fun item => literal? item.name) =
      sorted.map fun value => literal? (quoted value) := by
    rw [hitems, List.map_map]
    rfl
  refine ⟨entry, values, hvalues, fun item hitem => ?_, ?_⟩
  · rw [hitems] at hitem
    obtain ⟨value, -, rfl⟩ := List.mem_map.mp hitem
    rfl
  rw [hnames]
  refine ⟨fun hperm value hvalue => ?_, fun hplain => ?_⟩
  · exact isPlain_of_perm (hperm.trans (hsorted.map some).symm) value (hsorted.symm.subset hvalue)
  · have hread : (sorted.map fun value => literal? (quoted value)) = sorted.map some :=
      List.map_congr_left fun value hvalue => literal?_quoted (hplain value (hsorted.subset hvalue))
    rw [hread]
    exact hsorted.map some

/-- Two plain values, behind `s == `. -/
theorem values_faithful_plain :
    let entry : TypeEntry := { kind := .string, values := some ["open", "done"] }
    let schema : Schema := Schema.withVariable {} "s" entry
    ∃ completion, at? .aligning schema "s == " 5 (scan "s == ").tokens = some completion ∧
      completion.title = .values ∧
      (completion.items.map fun item => literal? item.name).Perm [some "open", some "done"] := by
  intro entry schema
  have hcompletion : at? .aligning schema "s == " 5 (scan "s == ").tokens =
      some ⟨.values, valueItems entry ["open", "done"], 4⟩ := rfl
  refine ⟨_, hcompletion, rfl, ?_⟩
  obtain ⟨found, values, hvalues, hentries, hfaithful⟩ := values_faithful_iff hcompletion rfl
  have hitem : ∃ item ∈ valueItems entry ["open", "done"], item.entry = .type entry := by
    refine ⟨_, List.mem_map_of_mem ((List.mergeSort_perm _ _).symm.subset (.head _)), rfl⟩
  obtain ⟨item, hmem, hitem⟩ := hitem
  obtain rfl : entry = found := Entry.type.inj (hitem.symm.trans (hentries item hmem))
  cases hvalues
  refine hfaithful.mpr fun value hvalue => ?_
  rcases List.mem_pair.mp hvalue with rfl | rfl <;> simp

/-- **A value that is not offered as a literal of itself.**  The quote in `a"b` ends the literal. -/
theorem values_not_faithful :
    let entry : TypeEntry := { kind := .string, values := some ["a\"b"] }
    let schema : Schema := Schema.withVariable {} "s" entry
    ∃ completion, at? .aligning schema "s == " 5 (scan "s == ").tokens = some completion ∧
      completion.title = .values ∧
      ∃ item ∈ completion.items, item.entry = .type entry ∧ literal? item.name = none := by
  intro entry schema
  have hcompletion : at? .aligning schema "s == " 5 (scan "s == ").tokens =
      some ⟨.values, valueItems entry ["a\"b"], 4⟩ := rfl
  refine ⟨_, hcompletion, rfl, ⟨"\"a\"b\"", "\"a\"b\"", .type entry⟩, ?_, rfl, by decide +kernel⟩
  rw [valueItems, List.mergeSort_singleton]
  exact .head _

end Completion

end FilterLang
