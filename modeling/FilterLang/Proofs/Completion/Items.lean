import FilterLang.Completion
import FilterLang.Library.Alignment
import FilterLang.Proofs.Typing

/-!
# Completions list the schema

The items of a completion are the entries of the schema that match the query, neither more nor less.

* `Matcher.Decides` — whether a candidate matches is a matter of query and candidate alone.
* `Lists` — items are the entries that match, each once and with its own entry.
* `lists_rankEntries` — ranking by name and looking the entries up again loses nothing, doubles
  nothing and mixes nothing up.
* `LeftEntry` — the schema entry of the left operand that is open at the cursor.
* `Listing` — what is listed under each title.
* `listing_of_withQuery?` — every completion lists just that.
-/

namespace FilterLang

/-! ### Matchers -/

/-- Whether a candidate matches depends on nothing but the query and the candidate.  Scores and
matched characters may depend on the candidates before. -/
def Matcher.Decides (matcher : Matcher) (accepts : String → String → Bool) : Prop :=
  ∀ session query candidate,
    (matcher.find session query candidate).1.isSome = accepts query candidate

theorem Matcher.decides_ofFunction (find : String → String → Option Hit) :
    (Matcher.ofFunction find).Decides fun query candidate => (find query candidate).isSome :=
  fun _ _ _ => rfl

theorem Fuzzy.isSome_align (cells : Array Cell) (query candidate : List Char) :
    (align cells query candidate).1.isSome = (leftmost? query candidate).isSome := by
  cases query with
  | nil =>
    rw [leftmost?, leftmostFrom?]
    rfl
  | cons p query =>
    rw [align, if_neg (by simp)]
    cases leftmost? (p :: query) candidate with
    | none => rfl
    | some starts => rfl

/-- Alignment accepts the candidates that the query can be found in. -/
theorem Matcher.decides_aligning : Matcher.aligning.Decides fun query candidate =>
    (Fuzzy.leftmost? query.toList candidate.toList).isSome :=
  fun cells query candidate => Fuzzy.isSome_align cells query.toList candidate.toList

variable {matcher : Matcher} {accepts : String → String → Bool} {query : String}

/-- The names of the hits are the candidates that match. -/
theorem Matcher.Decides.map_hits (h : matcher.Decides accepts) (candidates : List String) :
    (matcher.hits query candidates).map Prod.fst = candidates.filter (accepts query) := by
  unfold Matcher.hits
  generalize matcher.start = session
  induction candidates generalizing session with
  | nil => rfl
  | cons candidate rest ih =>
    have hdecides := h session query candidate
    rw [Matcher.hitsFrom]
    split
    · next hit session' hfind =>
      rw [hfind] at hdecides
      rw [List.map_cons, ih, List.filter_cons_of_pos hdecides.symm]
    · next session' hfind =>
      rw [hfind] at hdecides
      rw [ih, List.filter_cons_of_neg (by rw [← hdecides]; exact Bool.false_ne_true)]

/-- The name of an item and the entry it comes from. -/
def Item.pair (item : Item) : String × Entry := (item.name, item.entry)

namespace Completion

/-- Whether a name is listed: without a query all are. -/
def isListed (accepts : String → String → Bool) (query name : String) : Bool :=
  query.isEmpty || accepts query name

/-- Without a query the names stay where they are. -/
theorem map_rankWith (hempty : query.isEmpty) (names : List String) :
    (Fuzzy.rankWith matcher query names).map Fuzzy.Ranked.name = names := by
  rw [Fuzzy.rankWith, if_pos hempty, List.map_map]
  exact List.map_id' names

/-- The ranked names are those that are listed. -/
theorem perm_rankWith (h : matcher.Decides accepts) (names : List String) :
    ((Fuzzy.rankWith matcher query names).map Fuzzy.Ranked.name).Perm
      (names.filter (isListed accepts query)) := by
  by_cases hempty : query.isEmpty
  · rw [map_rankWith hempty, List.filter_eq_self.mpr]
    intro name _
    rw [isListed, hempty, Bool.true_or]
  · have hlisted : isListed accepts query = accepts query := by
      funext name
      rw [isListed, Bool.eq_false_iff.mpr hempty, Bool.false_or]
    rw [Fuzzy.rankWith, if_neg hempty, List.map_map, hlisted, ← h.map_hits]
    exact (List.mergeSort_perm _ _).map Prod.fst

/-! ### Items -/

/-- A name with its entry. -/
def paired? (entries : NameMap Entry) (name : String) : Option (String × Entry) :=
  (entries.find? name).map (name, ·)

theorem map_pair_rankEntries (entries : NameMap Entry) :
    (rankEntries matcher query entries).map Item.pair =
      ((Fuzzy.rankWith matcher query entries.names).map Fuzzy.Ranked.name).filterMap
        (paired? entries) := by
  rw [rankEntries, List.map_filterMap, List.filterMap_map]
  refine congrArg (fun f => List.filterMap f _) ?_
  funext ranked
  rw [Option.map_map]
  rfl

/-- The names lead back to the entries. -/
theorem filterMap_paired? (entries : NameMap Entry) (p : String → Bool) :
    (entries.names.filter p).filterMap (paired? entries) =
      entries.entries.filter fun entry => p entry.1 := by
  rw [← entries.map_fst_entries, List.filter_map, List.filterMap_map]
  refine Eq.trans (List.filterMap_congr fun entry hentry => ?_) List.filterMap_some
  obtain ⟨name, value⟩ := entry
  show paired? entries name = some (name, value)
  rw [paired?, NameMap.find?_eq_some_iff.mpr (List.mem_of_mem_filter hentry)]
  rfl

/-- The items are the entries whose names match the query, each once and with its own entry. -/
structure Lists (accepts : String → String → Bool) (query : String) (entries : NameMap Entry)
    (items : List Item) : Prop where
  perm : (items.map Item.pair).Perm
    (entries.entries.filter fun entry => isListed accepts query entry.1)
  nodup : (items.map Item.name).Nodup

/-- The items stand in the order of their names, by code point. -/
def Ascending (items : List Item) : Prop := items.Pairwise fun x y => x.name < y.name

theorem map_fst_pair (items : List Item) :
    (items.map Item.pair).map Prod.fst = items.map Item.name :=
  List.map_map

variable {entries : NameMap Entry} {items : List Item}

theorem Lists.of_perm (hperm : (items.map Item.pair).Perm
    (entries.entries.filter fun entry => isListed accepts query entry.1)) :
    Lists accepts query entries items := by
  refine ⟨hperm, ?_⟩
  rw [← map_fst_pair, (hperm.map Prod.fst).nodup_iff]
  have hsublist := (List.filter_sublist (p := fun entry => isListed accepts query entry.1)
    (l := entries.entries)).map Prod.fst
  rw [entries.map_fst_entries] at hsublist
  exact entries.nodup_names.sublist hsublist

/-- **Ranking lists the entries.**  The names are ranked and the entries are looked up by name. -/
theorem lists_rankEntries (hmatcher : matcher.Decides accepts) (entries : NameMap Entry) :
    Lists accepts query entries (rankEntries matcher query entries) := by
  refine .of_perm ?_
  rw [map_pair_rankEntries, ← filterMap_paired?]
  exact (perm_rankWith hmatcher _).filterMap _

/-- Without a query all entries are listed, as they stand. -/
theorem map_pair_rankEntries_of_isEmpty (hempty : query.isEmpty) (entries : NameMap Entry) :
    (rankEntries matcher query entries).map Item.pair = entries.entries := by
  have hall := filterMap_paired? entries fun _ => true
  rw [List.filter_true, List.filter_true] at hall
  rw [map_pair_rankEntries, map_rankWith hempty, hall]

theorem ascending_rankEntries (hempty : query.isEmpty) (entries : NameMap Entry) :
    Ascending (rankEntries matcher query entries) := by
  have hsorted := entries.sorted_entries
  have hpairs : (rankEntries matcher query entries).map Item.pair = entries.entries :=
    map_pair_rankEntries_of_isEmpty hempty entries
  rw [← hpairs, NameMap.Sorted, List.pairwise_map] at hsorted
  exact hsorted

/-! ### Types and operators -/

/-- The types of a map are listed, without a query in the order of their names. -/
theorem lists_typeItems (hmatcher : matcher.Decides accepts) (types : NameMap TypeEntry) :
    Lists accepts query (types.map .type) (typeItems matcher query types) ∧
      (query.isEmpty → Ascending (typeItems matcher query types)) :=
  ⟨lists_rankEntries hmatcher _, fun hempty => ascending_rankEntries hempty _⟩

/-- The operators that may follow an operand: behind an integer those for numbers and for all
operands, behind a date those for all operands, and elsewhere every operator. -/
def Suits (operand : Option TypeEntry) (operator : OperatorEntry) : Prop :=
  ∀ entry ∈ operand,
    if entry.kind = .int then operator.allow = none ∨ operator.allow = some .number
    else entry.format = some "date" → operator.allow = none

theorem admits_iff (operand : Option TypeEntry) (operator : OperatorEntry) :
    admits operand operator = true ↔ Suits operand operator := by
  cases operand with
  | none => simp [admits, Suits]
  | some entry =>
    simp only [admits, Suits, Option.mem_some, forall_eq', TypeEntry.isDate,
      TypeEntry.dateFormat, beq_iff_eq]
    split_ifs <;> simp_all

instance decidableSuits (operand : Option TypeEntry) : DecidablePred (Suits operand) :=
  fun operator => decidable_of_iff _ (admits_iff operand operator)

theorem admits_eq (operand : Option TypeEntry) :
    admits operand = fun op => decide (Suits operand op) := by
  funext op
  rw [Bool.eq_iff_iff, decide_eq_true_iff, admits_iff]

/-- The operators for strings stand behind all others, and both in the order of their names. -/
def StringsLast (items : List Item) : Prop :=
  ∃ others strings, items = others ++ strings ∧
    (∀ item ∈ others, ¬ item.entry.isStringOperator) ∧
    (∀ item ∈ strings, item.entry.isStringOperator) ∧ Ascending others ∧ Ascending strings

/-- Operators are ranked like other entries, and some of them are moved to the end. -/
theorem perm_rankEntries (schema : Schema) (keep : OperatorEntry → Bool) :
    (operatorItems matcher query schema keep).Perm
      (rankEntries matcher query ((schema.operators.filter keep).map .operator)) := by
  rw [operatorItems]
  split_ifs
  · exact List.perm_append_comm.trans (List.filter_append_perm _ _)
  · exact .refl _

theorem stringsLast_operatorItems (hempty : query.isEmpty) (schema : Schema)
    (keep : OperatorEntry → Bool) : StringsLast (operatorItems matcher query schema keep) := by
  have hascending : Ascending
      (rankEntries matcher query ((schema.operators.filter keep).map .operator)) :=
    ascending_rankEntries hempty _
  rw [operatorItems, if_pos hempty]
  refine ⟨_, _, rfl, ?_, ?_, hascending.filter _, hascending.filter _⟩
  · intro item hitem
    simpa using (List.mem_filter.mp hitem).2
  · intro item hitem
    exact (List.mem_filter.mp hitem).2

/-- The operators that are kept are listed, without a query those for strings behind the others. -/
theorem lists_operatorItems (hmatcher : matcher.Decides accepts) (schema : Schema)
    (keep : OperatorEntry → Bool) :
    Lists accepts query ((schema.operators.filter keep).map .operator)
        (operatorItems matcher query schema keep) ∧
      (query.isEmpty → StringsLast (operatorItems matcher query schema keep)) := by
  have hranked : Lists accepts query _ (rankEntries matcher query _) :=
    lists_rankEntries hmatcher ((schema.operators.filter keep).map .operator)
  refine ⟨.of_perm ?_, fun hempty => stringsLast_operatorItems hempty schema keep⟩
  exact ((perm_rankEntries schema keep).map Item.pair).trans hranked.perm

/-! ### What is open at the cursor -/

/-- The reading of the tokens that are complete at a column stops in the right side of a binary
node, or behind the dot of a member, and its left operand has the schema entry. -/
def LeftEntry (schema : Schema) (column : Nat) (tokens : List Token) (entry : TypeEntry) : Prop :=
  ∃ stop left operator negation nature,
    parseStrict (completeTokens column tokens ++ [caret column]) = .error stop ∧
      stop.top? = some (.binary left operator negation) ∧ HasNature schema left nature ∧
      nature.entry = some entry

/-- The entry of the last complete token in front of a column, if it is a variable. -/
def operandBefore (schema : Schema) (column : Nat) (tokens : List Token) : Option TypeEntry :=
  (completeTokens column tokens).getLast?.bind fun token =>
    if token.kind = .identifier then schema.variableEntry? token.value else none

/-- What is listed under a title.  Fields are the variables of the schema, operators those that suit
the variable in front of the cursor, and the fields and values of a left operand are those of its
entry, the values between quotes and with repetitions. -/
def Listing (accepts : String → String → Bool) (schema : Schema) (query : String) (column : Nat)
    (tokens : List Token) : Title → List Item → Prop
  | .fields, items =>
    Lists accepts query (schema.vars.map .type) items ∧ (query.isEmpty → Ascending items)
  | .operators, items =>
    Lists accepts query ((schema.operators.filter fun op =>
        Suits (operandBefore schema column tokens) op).map .operator) items ∧
      (query.isEmpty → StringsLast items)
  | .jsonFields, items => ∃ entry fields, LeftEntry schema column tokens entry ∧
      entry.fields = some fields ∧ Lists accepts query (fields.map .type) items ∧
      (query.isEmpty → Ascending items)
  | .values, items => ∃ (entry : TypeEntry) (values sorted : List String),
      LeftEntry schema column tokens entry ∧ entry.values = some values ∧
      sorted.Perm values ∧ (sorted.Pairwise fun x y => x ≤ y) ∧
      items.map Item.pair = sorted.map fun value => ("\"" ++ value ++ "\"", .type entry)
  | .date, items => ∃ entry, LeftEntry schema column tokens entry ∧ entry.isDate ∧ items = []

section Offers

variable {schema : Schema} {column : Nat} {tokens : List Token}

theorem listing_variableOffer (hmatcher : matcher.Decides accepts) :
    Listing accepts schema query column tokens (variableOffer matcher schema query).1
      (variableOffer matcher schema query).2 := by
  show Listing accepts schema query column tokens .fields (typeItems matcher query schema.vars)
  exact lists_typeItems hmatcher schema.vars

theorem listing_operatorsAfter (hmatcher : matcher.Decides accepts) {previous : Token}
    (hlast : (completeTokens column tokens).getLast? = some previous) :
    Listing accepts schema query column tokens (operatorsAfter matcher schema query previous).1
      (operatorsAfter matcher schema query previous).2 := by
  have hoperand : operandBefore schema column tokens =
      if previous.kind = .identifier then schema.variableEntry? previous.value else none := by
    rw [operandBefore, hlast]
    rfl
  rw [operatorsAfter, ← hoperand, admits_eq]
  exact lists_operatorItems hmatcher schema _

theorem listing_values (entry : TypeEntry) {values : List String}
    (hentry : LeftEntry schema column tokens entry) (hvalues : entry.values = some values) :
    Listing accepts schema query column tokens .values (valueItems entry values) := by
  refine ⟨entry, values, _, hentry, hvalues, List.mergeSort_perm values fun x y => x ≤ y, ?_, ?_⟩
  · have htrans : ∀ x y z : String, decide (x ≤ y) → decide (y ≤ z) → decide (x ≤ z) := by
      simpa using fun x y z => String.le_trans
    have htotal : ∀ x y : String, decide (x ≤ y) || decide (y ≤ x) := by
      simpa using String.le_total
    have hsorted := List.pairwise_mergeSort htrans htotal values
    exact hsorted.imp of_decide_eq_true
  · rw [valueItems, List.map_map]
    rfl

theorem listing_rightOf (hmatcher : matcher.Decides accepts) {stop : Interruption} {left : Expr}
    {operator : String} {negation : Bool}
    (hstop : parseStrict (completeTokens column tokens ++ [caret column]) = .error stop)
    (htop : stop.top? = some (.binary left operator negation)) {offer : Title × List Item}
    (hoffer : rightOf? matcher schema query left operator = some offer) :
    Listing accepts schema query column tokens offer.1 offer.2 := by
  have hentry : ∀ {entry}, (check schema (some .bool) left).tree.entry? = some entry →
      LeftEntry schema column tokens entry := by
    intro entry h
    obtain ⟨nature, hnature, hentry⟩ := Option.bind_eq_some_iff.mp h
    rw [check, nature_annotate_iff] at hnature
    exact ⟨stop, left, operator, negation, nature, hstop, htop, hnature, hentry⟩
  unfold rightOf? at hoffer
  generalize (check schema (some .bool) left).tree.entry? = found at hentry hoffer
  have hvariables :
      (if isConnective operator then some (variableOffer matcher schema query) else none)
        = some offer → Listing accepts schema query column tokens offer.1 offer.2 := by
    intro h
    split_ifs at h
    cases h
    exact listing_variableOffer hmatcher
  cases found with
  | none => exact hvariables hoffer
  | some entry =>
    have hleft := hentry rfl
    dsimp only [Option.any_some, Option.bind_some] at hoffer
    by_cases hdate : entry.isDate
    · rw [if_pos hdate] at hoffer
      cases hoffer
      exact ⟨entry, hleft, hdate, rfl⟩
    · rw [if_neg hdate] at hoffer
      cases hvalues : entry.values with
      | some values =>
        rw [hvalues] at hoffer
        cases hoffer
        exact listing_values entry hleft hvalues
      | none =>
        cases hfields : entry.fields with
        | some fields =>
          rw [hvalues, hfields] at hoffer
          cases hoffer
          exact ⟨entry, fields, hleft, hfields, lists_typeItems hmatcher fields⟩
        | none =>
          rw [hvalues, hfields] at hoffer
          exact hvariables hoffer

/-- **What is offered at a column is listed.** -/
theorem listing_of_offer? (hmatcher : matcher.Decides accepts) {offer : Title × List Item}
    (h : offer? matcher schema query column tokens = some offer) :
    Listing accepts schema query column tokens offer.1 offer.2 := by
  have hnext : ∀ {offer}, (completeTokens column tokens).getLast?.map
      (operatorsAfter matcher schema query) = some offer →
      Listing accepts schema query column tokens offer.1 offer.2 := by
    intro offer hoffer
    obtain ⟨previous, hlast, rfl⟩ := Option.map_eq_some_iff.mp hoffer
    exact listing_operatorsAfter hmatcher hlast
  have hvariables : ∀ {offer}, some (variableOffer matcher schema query) = some offer →
      Listing accepts schema query column tokens offer.1 offer.2 := by
    rintro offer ⟨⟩
    exact listing_variableOffer hmatcher
  unfold offer? at h
  dsimp only at h
  split at h
  · -- a whole expression: an operator comes next, or a variable where there is nothing yet
    cases hlast : (completeTokens column tokens).getLast? with
    | none =>
      rw [hlast] at h
      exact hvariables h
    | some previous =>
      rw [hlast] at h
      exact hnext (by rw [hlast]; exact h)
  · next stop hstop =>
    split at h
    · next left operator negation htop => exact listing_rightOf hmatcher hstop htop h
    · split_ifs at h
      · exact hvariables h
      · exact hnext h
    · split_ifs at h
      · exact hvariables h
      · exact hnext h
    · exact hnext h
    · exact hnext h

end Offers

/-- **Completions are sound and complete.**  With a matcher that decides by query and candidate, a
completion lists the variables of the schema, the operators that suit the operand in front of the
cursor, or the fields of the left operand: all entries whose names match the query, each once and
with its own entry.  Without a query they are in the order of their names, and operators for strings
come last.  The values of a left operand are listed in order and with repetitions. -/
theorem listing_of_withQuery? (hmatcher : matcher.Decides accepts) {schema : Schema}
    {column : Nat} {tokens : List Token} {completion : Completion}
    (h : withQuery? matcher schema query column tokens = some completion) :
    Listing accepts schema query column tokens completion.title completion.items := by
  obtain ⟨offer, hoffer, rfl⟩ := Option.map_eq_some_iff.mp h
  exact listing_of_offer? hmatcher hoffer

/-- A variable with two fields, and what is listed behind its dot. -/
theorem listing_of_withQuery?_fields :
    let fields : NameMap TypeEntry := .ofList [("age", .ofKind .int), ("name", .ofKind .string)]
    let user : TypeEntry := { kind := .struct, fields := some fields }
    let schema : Schema := Schema.withVariable {} "user" user
    let tokens : List Token := [.ofText .identifier "user" ⟨1, 0⟩, .ofText .operator "." ⟨1, 4⟩]
    withQuery? .aligning schema "n" 5 tokens =
        some ⟨.jsonFields, typeItems .aligning "n" fields, 4⟩ ∧
      Listing (fun query candidate => (Fuzzy.leftmost? query.toList candidate.toList).isSome) schema
        "n" 5 tokens .jsonFields (typeItems .aligning "n" fields) := by
  intro fields user schema tokens
  have hcompletion : withQuery? .aligning schema "n" 5 tokens =
      some ⟨.jsonFields, typeItems .aligning "n" fields, 4⟩ := rfl
  exact ⟨hcompletion, listing_of_withQuery? Matcher.decides_aligning hcompletion⟩

end Completion

end FilterLang
