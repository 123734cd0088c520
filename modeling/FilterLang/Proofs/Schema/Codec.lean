import FilterLang.Proofs.Library.Layout

/-!
# Schemas survive JSON

* `Json.record?_record`, `Json.optional?_map`, `Json.asMap?_ofMap` — each reader undoes its writer:
  members by name, optional members, and maps in the order of their names.
* `TypeEntry.ofJson?_toJson`, `OperatorEntry.ofJson?_toJson` — entries survive, those of fields of
  fields included, as long as the levels suffice.
* `Schema.decode?_toJson` — so do schemas.
* `Schema.ofText?_toJson` — a schema is read from its text in every faithful format.
-/

namespace FilterLang

namespace NameMap

variable {α : Type}

/-- A name behind all others is added at the end. -/
theorem insertEntry_of_forall_lt {name : String} {value : α} {entries : List (String × α)}
    (h : ∀ entry ∈ entries, entry.1 < name) :
    insertEntry name value entries = entries ++ [(name, value)] := by
  induction entries with
  | nil => rfl
  | cons entry entries ih =>
    obtain ⟨key, old⟩ := entry
    have hlt : key < name := h _ (.head _)
    have hnot : ¬ name < key := fun hlt' => String.lt_irrefl _ (String.lt_trans hlt hlt')
    have hne : name ≠ key := (String.ne_of_lt hlt).symm
    rw [insertEntry, if_neg hnot, if_neg hne, ih fun e he => h e (.tail _ he), List.cons_append]

/-- Entries that are in order already are added one behind the other. -/
theorem foldl_insertEntry {front entries : List (String × α)} (h : Sorted (front ++ entries)) :
    entries.foldl (fun map entry => insertEntry entry.1 entry.2 map) front = front ++ entries := by
  induction entries generalizing front with
  | nil => exact (List.append_nil front).symm
  | cons entry entries ih =>
    have hbehind : ∀ e ∈ front, e.1 < entry.1 := fun e he =>
      (List.pairwise_append.mp h).2.2 e he entry (.head _)
    rw [List.append_cons] at h ⊢
    rw [List.foldl_cons, insertEntry_of_forall_lt hbehind, ih h]

/-- A map is the map of its entries. -/
theorem ofList_entries (map : NameMap α) : ofList map.entries = map := by
  refine ext_entries ?_
  rw [ofList, entries_ofSorted]
  exact foldl_insertEntry map.sorted_entries

end NameMap

namespace Json

/-! ### Records -/

variable {members : List (String × Option Json)}

/-- The members of a record that have a value. -/
theorem mem_record {name : String} {value : Json} (h : (name, some value) ∈ members) :
    (name, value) ∈ members.filterMap fun m => m.2.map (m.1, ·) :=
  List.mem_filterMap.mpr ⟨_, h, rfl⟩

theorem depth_record_pos (members : List (String × Option Json)) : 0 < (record members).depth := by
  rw [record, depth]
  exact Nat.succ_pos _

theorem depth_lt_record {name : String} {value : Json} (h : (name, some value) ∈ members) :
    value.depth < (record members).depth :=
  depth_lt_of_mem (mem_record h)

/-- The names of a record are some of the names of its members. -/
theorem names_record_sublist (members : List (String × Option Json)) :
    ((members.filterMap fun m => m.2.map (m.1, ·)).map Prod.fst).Sublist
      (members.map Prod.fst) := by
  induction members with
  | nil => exact .slnil
  | cons member members ih =>
    obtain ⟨name, value⟩ := member
    cases value with
    | none => exact ih.cons _
    | some value => exact ih.cons_cons _

theorem Plain.record (hnames : (members.map Prod.fst).Nodup)
    (h : ∀ m ∈ members, ∀ value, m.2 = some value → value.Plain) : (record members).Plain := by
  refine .object ((names_record_sublist members).nodup hnames) fun m hm => ?_
  obtain ⟨member, hmember, hm⟩ := List.mem_filterMap.mp hm
  obtain ⟨value, hvalue, rfl⟩ := Option.map_eq_some_iff.mp hm
  exact h member hmember value hvalue

theorem eraseDups_of_nodup {names : List String} (h : names.Nodup) : names.eraseDups = names := by
  induction names with
  | nil => rfl
  | cons name names ih =>
    obtain ⟨hname, hnames⟩ := List.nodup_cons.mp h
    have hfilter : names.filter (fun other => !other == name) = names := by
      refine List.filter_eq_self.mpr fun other hother => ?_
      have hne : other ≠ name := fun heq => hname (heq ▸ hother)
      simpa using hne
    rw [List.eraseDups_cons, hfilter, ih hnames]

/-- A member of a record is found under its name, and nothing where it has no value. -/
theorem member?_record {name : String} {value : Option Json}
    (hnames : (members.map Prod.fst).Nodup) (h : (name, value) ∈ members) :
    member? name (members.filterMap fun m => m.2.map (m.1, ·)) = value := by
  induction members with
  | nil => cases h
  | cons member members ih =>
    obtain ⟨key, found⟩ := member
    obtain ⟨hkey, hothers⟩ := List.nodup_cons.mp hnames
    have hnone : ∀ {others : List (String × Json)}, key ∉ others.map Prod.fst →
        member? key others = none := by
      intro others hothers
      induction others with
      | nil => rfl
      | cons other others ih =>
        rw [List.map_cons, List.mem_cons, not_or] at hothers
        rw [member?, if_neg fun heq => hothers.1 heq.symm, ih hothers.2]
    rcases List.mem_cons.mp h with heq | hrest
    · cases heq
      cases value with
      | none => exact hnone fun hmem => hkey ((names_record_sublist members).subset hmem)
      | some value => exact if_pos rfl
    · have hmem : name ∈ members.map Prod.fst := List.mem_map.mpr ⟨_, hrest, rfl⟩
      have hne : key ≠ name := fun heq => hkey (heq ▸ hmem)
      cases found with
      | none => exact ih hothers hrest
      | some found => exact (if_neg hne).trans (ih hothers hrest)

/-- **The members of a record are read by their names.** -/
theorem record?_record {names : List String} (hnames : members.map Prod.fst = names)
    (hnodup : names.Nodup) : ∃ get, (record members).record? names = some get ∧
      ∀ m ∈ members, get m.1 = m.2 := by
  subst hnames
  have hknown := eraseDups_of_nodup
    (((names_record_sublist members).nodup hnodup).filter (members.map Prod.fst).contains)
  refine ⟨fun name => member? name (members.filterMap fun m => m.2.map (m.1, ·)), ?_,
    fun m hm => member?_record hnodup hm⟩
  rw [record, record?]
  exact if_pos (congrArg List.length hknown)

/-! ### Members -/

variable {α : Type}

/-- An optional member is read as what it was written for. -/
theorem optional?_map {read : Json → Option α} {write : α → Json} {value : Option α}
    (h : ∀ a, value = some a → write a ≠ .null ∧ read (write a) = some a) :
    optional? read (value.map write) = some value := by
  cases value with
  | none => rfl
  | some a =>
    obtain ⟨hnull, hread⟩ := h a rfl
    rw [Option.map_some, optional?]
    · rw [hread]
      rfl
    · exact hnull

theorem optional?_optionalString (value : Option String) :
    optional? asString? (optionalString value) = some value :=
  optional?_map fun _ _ => ⟨nofun, rfl⟩

/-- Items are read as what they were written for. -/
theorem mapM_map {β : Type} {read : β → Option α} {write : α → β} {values : List α}
    (h : ∀ a ∈ values, read (write a) = some a) : (values.map write).mapM read = some values := by
  induction values with
  | nil => rfl
  | cons a values ih =>
    rw [List.map_cons, List.mapM_cons, h a (.head _), ih fun b hb => h b (.tail _ hb)]
    rfl

theorem strings_ne_null (values : List String) : strings values ≠ .null := nofun

theorem asStrings?_strings {levels : Nat} (hlevels : levels ≠ 0) (values : List String) :
    asStrings? levels (strings values) = some values := by
  have hitems : (values.map Json.string).mapM asString? = some values := mapM_map fun _ _ => rfl
  rw [strings, asStrings?, if_neg hlevels, hitems]

theorem ofMap_ne_null (write : α → Json) (map : NameMap α) : ofMap write map ≠ .null := nofun

/-- **A map is read in the order of its names**, which is the order it was written in. -/
theorem asMap?_ofMap {levels : Nat} {read : Json → Option α} {write : α → Json} {map : NameMap α}
    (hlevels : levels ≠ 0) (h : ∀ entry ∈ map.entries, read (write entry.2) = some entry.2) :
    asMap? levels read (ofMap write map) = some map := by
  have hentries : (map.entries.map fun entry => (entry.1, write entry.2)).mapM
      (fun m => (read m.2).map (m.1, ·)) = some map.entries :=
    mapM_map fun entry hentry => by rw [h entry hentry, Option.map_some]
  rw [ofMap, asMap?, if_neg hlevels, hentries, Option.map_some, NameMap.ofList_entries]

theorem depth_ofMap_pos (write : α → Json) (map : NameMap α) : 0 < (ofMap write map).depth := by
  rw [ofMap, depth]
  exact Nat.succ_pos _

theorem depth_lt_ofMap {write : α → Json} {map : NameMap α} {entry : String × α}
    (h : entry ∈ map.entries) : (write entry.2).depth < (ofMap write map).depth :=
  depth_lt_of_mem (List.mem_map.mpr ⟨entry, h, rfl⟩)

theorem plain_ofMap {write : α → Json} {map : NameMap α}
    (h : ∀ entry ∈ map.entries, (write entry.2).Plain) : (ofMap write map).Plain := by
  have hnames : (map.entries.map fun entry => (entry.1, write entry.2)).map Prod.fst = map.names := by
    rw [List.map_map]
    exact map.map_fst_entries
  refine .object (hnames ▸ map.nodup_names) fun m hm => ?_
  obtain ⟨entry, hentry, rfl⟩ := List.mem_map.mp hm
  exact h entry hentry

theorem plain_strings (values : List String) : (strings values).Plain := by
  refine .array fun item hitem => ?_
  obtain ⟨value, -, rfl⟩ := List.mem_map.mp hitem
  exact .string value

theorem plain_optionalString {value : Option String} {json : Json}
    (h : optionalString value = some json) : json.Plain := by
  obtain ⟨text, -, rfl⟩ := Option.map_eq_some_iff.mp h
  exact .string text

end Json

/-! ### Entries -/

namespace TypeEntry

theorem nodup_members (entry : TypeEntry) : (entry.members.map Prod.fst).Nodup := by
  simp [members]

/-- There is no number in an entry, and no name twice. -/
theorem plain_toJson (entry : TypeEntry) : entry.toJson.Plain := by
  induction entry using TypeEntry.induction with
  | h entry ih =>
    rw [toJson_eq]
    refine .record entry.nodup_members fun m hm value hvalue => ?_
    simp only [members, List.mem_cons, List.not_mem_nil, or_false] at hm
    rcases hm with rfl | rfl | rfl | rfl | rfl
    · cases hvalue
      exact .string _
    · obtain ⟨fields, heq, rfl⟩ := Option.map_eq_some_iff.mp hvalue
      exact Json.plain_ofMap (ih fields heq)
    · obtain ⟨values, -, rfl⟩ := Option.map_eq_some_iff.mp hvalue
      exact Json.plain_strings values
    · exact Json.plain_optionalString hvalue
    · exact Json.plain_optionalString hvalue

theorem depth_pos (entry : TypeEntry) : 0 < entry.toJson.depth := by
  rw [toJson_eq]
  exact Json.depth_record_pos _

theorem depth_lt_of_fields {entry : TypeEntry} {fields : NameMap TypeEntry}
    (h : entry.fields = some fields) : (Json.ofMap toJson fields).depth < entry.toJson.depth := by
  have hmem : ("fields", some (Json.ofMap toJson fields)) ∈ entry.members := by simp [members, h]
  rw [toJson_eq]
  exact Json.depth_lt_record hmem

theorem depth_lt_of_values {entry : TypeEntry} {values : List String}
    (h : entry.values = some values) : (Json.strings values).depth < entry.toJson.depth := by
  have hmem : ("values", some (Json.strings values)) ∈ entry.members := by simp [members, h]
  rw [toJson_eq]
  exact Json.depth_lt_record hmem

/-- **An entry survives**, as long as the levels suffice.  The induction is on the fields of fields;
the entry takes one level and its fields another. -/
theorem ofJson?_toJson (entry : TypeEntry) {levels : Nat}
    (hlevels : entry.toJson.depth ≤ levels) : ofJson? levels entry.toJson = some entry := by
  induction entry using TypeEntry.induction generalizing levels with
  | h entry ih =>
    obtain ⟨levels, rfl⟩ : ∃ n, levels = n + 1 :=
      Nat.exists_eq_add_of_le' (Nat.le_trans entry.depth_pos hlevels)
    have hnames : entry.members.map Prod.fst =
      ["kind", "fields", "values", "format", "description"] := rfl
    obtain ⟨get, hget, hmember⟩ := Json.record?_record hnames entry.nodup_members
    simp only [members, List.forall_mem_cons] at hmember
    obtain ⟨hkind, hfield, hvalue, hformat, hdescription, -⟩ := hmember
    have hfields : Json.optional? (ofJson?.readFields levels) (get "fields") =
        some entry.fields := by
      rw [hfield]
      refine Json.optional?_map fun fields heq => ⟨Json.ofMap_ne_null _ _, ?_⟩
      have hdepth := depth_lt_of_fields heq
      have hpos := Json.depth_ofMap_pos toJson fields
      obtain ⟨levels, rfl⟩ : ∃ n, levels = n + 1 := Nat.exists_eq_add_of_le' (by omega)
      refine Json.asMap?_ofMap (Nat.succ_ne_zero levels) fun field hfield => ?_
      have hbelow : field.2.toJson.depth < (Json.ofMap toJson fields).depth :=
        Json.depth_lt_ofMap hfield
      exact ih fields heq field hfield (by omega)
    have hvalues : Json.optional? (Json.asStrings? levels) (get "values") = some entry.values := by
      rw [hvalue]
      refine Json.optional?_map fun values heq =>
        ⟨Json.strings_ne_null _, Json.asStrings?_strings ?_ values⟩
      have hdepth := depth_lt_of_values heq
      rw [Json.strings, Json.depth] at hdepth
      omega
    have hkinds : ((get "kind").bind (Json.asConstant? levels)).bind Kind.ofName? =
        some entry.kind := by
      rw [hkind]
      exact Kind.ofName?_name entry.kind
    rw [toJson_eq, ofJson?, hget]
    simp only [Option.bind_eq_bind, Option.bind_some, hkinds, hfields, hvalues, hformat,
      hdescription, Json.optional?_optionalString]
    cases entry
    rfl

end TypeEntry

namespace OperatorEntry

theorem nodup_members (entry : OperatorEntry) : (entry.members.map Prod.fst).Nodup := by
  simp [members]

theorem plain_toJson (entry : OperatorEntry) : entry.toJson.Plain := by
  refine .record entry.nodup_members fun m hm value hvalue => ?_
  simp only [members, List.mem_cons, List.not_mem_nil, or_false] at hm
  rcases hm with rfl | rfl | rfl
  · cases hvalue
    exact .string _
  · obtain ⟨cls, -, rfl⟩ := Option.map_eq_some_iff.mp hvalue
    exact .string _
  · exact Json.plain_optionalString hvalue

/-- **An operator survives.** -/
theorem ofJson?_toJson (entry : OperatorEntry) (levels : Nat) :
    ofJson? (levels + 1) entry.toJson = some entry := by
  have hnames : entry.members.map Prod.fst = ["kind", "allow", "description"] := rfl
  obtain ⟨get, hget, hmember⟩ := Json.record?_record hnames entry.nodup_members
  simp only [members, List.forall_mem_cons] at hmember
  obtain ⟨hkind, hclass, hdescription, -⟩ := hmember
  have hallow : Json.optional? (fun j => (j.asConstant? levels).bind OperandClass.ofName?)
      (get "allow") = some entry.allow := by
    rw [hclass]
    exact Json.optional?_map fun cls _ => ⟨nofun, OperandClass.ofName?_name cls⟩
  rw [toJson, ofJson?, hget]
  simp only [Option.bind_eq_bind, Option.bind_some, hkind, Json.asString?, hallow, hdescription,
    Json.optional?_optionalString]
  rfl

end OperatorEntry

/-! ### Schemas -/

namespace Schema

theorem plain_toJson (schema : Schema) : schema.toJson.Plain := by
  refine .object (by simp) fun m hm => ?_
  simp only [List.mem_cons, List.not_mem_nil, or_false] at hm
  rcases hm with rfl | rfl
  · exact Json.plain_ofMap fun v _ => v.2.plain_toJson
  · exact Json.plain_ofMap fun op _ => op.2.plain_toJson

/-- **A schema survives**, as long as its fields are not nested too deeply. -/
theorem decode?_toJson (schema : Schema) {levels : Nat} (hlevels : schema.toJson.depth ≤ levels) :
    decode? levels schema.toJson = some schema := by
  have hnames : [("variables", some schema.variablesToJson),
    ("operators", some schema.operatorsToJson)].map Prod.fst = ["variables", "operators"] := rfl
  obtain ⟨get, hget, hmember⟩ := Json.record?_record hnames (by decide)
  simp only [List.forall_mem_cons] at hmember
  obtain ⟨hvariables, hoperators, -⟩ := hmember
  have hread : schema.toJson.record? ["variables", "operators"] = some get := hget
  have hvariablesDepth : schema.variablesToJson.depth < schema.toJson.depth :=
    Json.depth_lt_of_mem (.head _)
  have hoperatorsDepth : schema.operatorsToJson.depth < schema.toJson.depth :=
    Json.depth_lt_of_mem (.tail _ (.head _))
  have hmaps : 0 < schema.variablesToJson.depth := Json.depth_ofMap_pos _ _
  have hvars : schema.variablesToJson.asMap? (levels - 1) (TypeEntry.ofJson? (levels - 2)) =
      some schema.vars := by
    refine Json.asMap?_ofMap (by omega) fun v hv => v.2.ofJson?_toJson ?_
    have hbelow : v.2.toJson.depth < schema.variablesToJson.depth := Json.depth_lt_ofMap hv
    omega
  have hops : schema.operatorsToJson.asMap? (levels - 1) (OperatorEntry.ofJson? (levels - 2)) =
      some schema.operators := by
    refine Json.asMap?_ofMap (by omega) fun op hop => ?_
    have hbelow : op.2.toJson.depth < schema.operatorsToJson.depth := Json.depth_lt_ofMap hop
    have hpos : 0 < op.2.toJson.depth := Json.depth_record_pos _
    obtain ⟨n, hn⟩ : ∃ n, levels - 2 = n + 1 := Nat.exists_eq_add_of_le' (by omega)
    rw [hn]
    exact op.2.ofJson?_toJson n
  rw [decode?, hread]
  simp only [Option.bind_eq_bind, Option.bind_some, hvariables, hoperators, hvars, hops]
  rfl

/-- **Schemas survive JSON.**  In a format that reads what it has written, a schema is read from its
text, unless its fields are nested more deeply than the format can be looked into. -/
theorem ofText?_toJson {format : Json.Format} (hformat : format.Faithful) (schema : Schema)
    (hdepth : schema.toJson.depth ≤ format.levels) :
    ofText? format (format.write schema.toJson) = some schema := by
  rw [ofText?, hformat _ schema.plain_toJson hdepth]
  exact schema.decode?_toJson hdepth

/-- A schema with a field of a field, with empty lists and maps in the place of absent ones, and
without operators, on one line and over several. -/
theorem ofText?_toJson_nested :
    let inner : TypeEntry := { kind := .map, fields := some .empty, values := some [] }
    let outer : TypeEntry :=
      { kind := .struct, fields := some (.ofList [("名", .date), ("größe \"1\"", inner)]),
        description := some "two\nlines" }
    let schema : Schema :=
      { vars := .ofList [("x\\y", outer), ("", .ofKind .any)], operators := .empty }
    schema.toJson.depth ≤ 127 ∧ ∀ format ∈ [Json.Format.compact, .pretty],
      format.Faithful ∧ Schema.ofText? format (format.write schema.toJson) = some schema := by
  intro inner outer schema
  have hdepth : schema.toJson.depth ≤ 127 := by decide
  refine ⟨hdepth, fun format hformat => ?_⟩
  rcases List.mem_pair.mp hformat with rfl | rfl
  · exact ⟨Json.faithful_compact, ofText?_toJson Json.faithful_compact schema hdepth⟩
  · exact ⟨Json.faithful_pretty, ofText?_toJson Json.faithful_pretty schema hdepth⟩

end Schema

end FilterLang
