import FilterLang.Typing
import Mathlib.Data.List.Forall2

/-!
# The typing rules

The checker walks a tree once, stores natures in it and keeps the first violation.  The rules that it
enforces say nothing of that: they give natures to trees, and ask for some at the evaluated nodes.

* `HasNature` — the nature of a tree by the rules, whether or not its parts obey them.
* `Expr.evaluated` — the evaluated nodes, children before parents and left before right.
* `Obeys`, `Violates` — what the rules ask of one node, and what is said of a node that fails.
* `nature_annotate_iff` — the checker stores the natures that the rules give.
* `Judged` — no node of a list fails, or the first one that does is blamed, and
  `judged_violations`, which says that the checker judges.
* `check_sound_complete` — the checker enforces just the rules.
-/

namespace FilterLang

/-! ### The rules -/

/-- The tree has the nature.  That of a binary expression is a matter of the operator alone. -/
inductive HasNature (schema : Schema) : Expr → Nature → Prop where
  | identifier {note : Note} {name : String} {entry : TypeEntry}
      (hentry : schema.variableEntry? name = some entry) :
      HasNature schema (.identifier note name) (.ofEntry entry)
  | string {note : Note} {value : String} : HasNature schema (.string note value) (.ofKind .string)
  | integer {note : Note} {value : Int} : HasNature schema (.integer note value) (.ofKind .int)
  | bool {note : Note} {value : Bool} : HasNature schema (.bool note value) (.ofKind .bool)
  | nil {note : Note} : HasNature schema (.nil note) (.ofKind .nil)
  | negation {note : Note} {operator : String} {operand : Expr} {nature : Nature}
      (hoperator : operator ∈ ["!", "not"]) (hoperand : HasNature schema operand nature)
      (hkind : nature.kind = .bool) :
      HasNature schema (.unary note operator operand) (.ofKind .bool)
  | sign {note : Note} {operator : String} {operand : Expr} {nature : Nature}
      (hoperator : operator ∈ ["+", "-"]) (hoperand : HasNature schema operand nature)
      (hkind : nature.kind = .int) :
      HasNature schema (.unary note operator operand) (.ofKind .int)
  | logical {note : Note} {operator : String} {left right : Expr}
      (hoperator : operator ∈ Operator.logical) :
      HasNature schema (.binary note operator left right) (.ofKind .bool)
  | arithmetic {note : Note} {operator : String} {left right : Expr}
      (hoperator : operator ∈ Operator.arithmetic) :
      HasNature schema (.binary note operator left right) (.ofKind .int)
  | member {note : Note} {object property : Expr} {method : Bool} {nature : Nature}
      {fields : NameMap TypeEntry} {name : String} {entry : TypeEntry}
      (hobject : HasNature schema object nature)
      (hkind : nature.kind = .struct ∨ nature.kind = .map)
      (hfields : nature.entry.bind TypeEntry.fields = some fields)
      (hname : property.propertyName? = some name) (hentry : NameMap.find? name fields = some entry) :
      HasNature schema (.member note object property method) (.ofEntry entry)

/-- The tree has a nature of the kind. -/
def HasKind (schema : Schema) (e : Expr) (kind : Kind) : Prop :=
  ∃ nature, HasNature schema e nature ∧ nature.kind = kind

/-- The evaluated nodes of a tree: the root, and what is reached from it without entering the property
of a member or the callee of a call.  Children come before parents and left before right. -/
def Expr.evaluated (e : Expr) : List Expr :=
  match e with
  | .unary _ _ operand => operand.evaluated ++ [e]
  | .binary _ _ left right => left.evaluated ++ right.evaluated ++ [e]
  | .member _ object _ _ => object.evaluated ++ [e]
  | _ => [e]

/-- The object has a field of the name that the property is. -/
def HasField (schema : Schema) (object property : Expr) : Prop :=
  ∃ nature fields name entry, HasNature schema object nature ∧
    (nature.kind = .struct ∨ nature.kind = .map) ∧
    nature.entry.bind TypeEntry.fields = some fields ∧ property.propertyName? = some name ∧
    NameMap.find? name fields = some entry

/-- What the rules ask of a single node. -/
def Obeys (schema : Schema) : Expr → Prop
  | .identifier _ name => (schema.variableEntry? name).isSome
  | .unary _ operator operand =>
    operator ∈ ["!", "not"] ∧ HasKind schema operand .bool ∨
      operator ∈ ["+", "-"] ∧ HasKind schema operand .int
  | .binary _ operator _ _ => operator ∈ Operator.logical ∨ operator ∈ Operator.arithmetic
  | .member _ object property _ => HasField schema object property
  | .call .. | .pointer .. => False
  | .string .. | .integer .. | .bool .. | .nil .. => True

/-- What is said of a node that fails.  A member whose object has no nature is not blamed, since
some node below it is. -/
inductive Violates (schema : Schema) : Expr → Located CheckFault → Prop where
  | identifier {note : Note} {name : String} (h : ¬ Obeys schema (.identifier note name)) :
      Violates schema (.identifier note name) ⟨.variableNotFound, note.location⟩
  | unary {note : Note} {operator : String} {operand : Expr}
      (h : ¬ Obeys schema (.unary note operator operand)) :
      Violates schema (.unary note operator operand) ⟨.invalidType, note.location⟩
  | binary {note : Note} {operator : String} {left right : Expr}
      (h : ¬ Obeys schema (.binary note operator left right)) :
      Violates schema (.binary note operator left right)
        ⟨.unsupportedOperator operator, note.location⟩
  | notStruct {note : Note} {object property : Expr} {method : Bool} {nature : Nature}
      (hobject : HasNature schema object nature) (hstruct : nature.kind ≠ .struct)
      (hmap : nature.kind ≠ .map) :
      Violates schema (.member note object property method) ⟨.notStruct, note.location⟩
  | noFields {note : Note} {object property : Expr} {method : Bool} {nature : Nature}
      (hobject : HasNature schema object nature)
      (hkind : nature.kind = .struct ∨ nature.kind = .map)
      (hnone : nature.entry.bind TypeEntry.fields = none ∨ property.propertyName? = none) :
      Violates schema (.member note object property method) ⟨.noFields, property.location⟩
  | fieldNotFound {note : Note} {object property : Expr} {method : Bool} {nature : Nature}
      {fields : NameMap TypeEntry} {name : String} (hobject : HasNature schema object nature)
      (hkind : nature.kind = .struct ∨ nature.kind = .map)
      (hfields : nature.entry.bind TypeEntry.fields = some fields)
      (hname : property.propertyName? = some name) (hentry : NameMap.find? name fields = none) :
      Violates schema (.member note object property method) ⟨.fieldNotFound, property.location⟩
  | call {note : Note} {callee : Expr} :
      Violates schema (.call note callee) ⟨.notSupported, note.location⟩
  | pointer {note : Note} {name : String} :
      Violates schema (.pointer note name) ⟨.notSupported, note.location⟩

/-- The first violation of the rules.  What is expected of the root comes last. -/
inductive FirstViolation (schema : Schema) (expected : Option Kind) (tree : Expr) :
    Located CheckFault → Prop where
  | node {before after : List Expr} {node : Expr} {fault : Located CheckFault}
      (hnodes : tree.evaluated = before ++ node :: after) (hbefore : ∀ n ∈ before, Obeys schema n)
      (hnode : Violates schema node fault) : FirstViolation schema expected tree fault
  | root {kind : Kind} (hnodes : ∀ n ∈ tree.evaluated, Obeys schema n) (hkind : kind ∈ expected)
      (hroot : ¬ HasKind schema tree kind) :
      FirstViolation schema expected tree ⟨.expectedType kind, tree.location⟩

/-! ### The natures in a checked tree -/

section Natures

variable {schema : Schema}

/-- The checker stores the natures that the rules give. -/
theorem HasNature.nature_annotate {e : Expr} {nature : Nature} (h : HasNature schema e nature) :
    (e.annotate schema).nature = some nature := by
  induction h with
  | @identifier note name entry hentry =>
    show (schema.variableEntry? name).map Nature.ofEntry = _
    rw [hentry]
    rfl
  | string | integer | bool | nil => rfl
  | @negation note operator operand nature hoperator _ hkind ih =>
    show unaryNature operator (operand.annotate schema).nature = _
    rw [ih, unaryNature, Option.map_some, hkind]
    exact if_pos (by simpa using hoperator)
  | @sign note operator operand nature hoperator _ hkind ih =>
    show unaryNature operator (operand.annotate schema).nature = _
    rw [ih, unaryNature, Option.map_some, hkind]
    exact if_pos (by simpa using hoperator)
  | @logical note operator left right hoperator =>
    show binaryNature operator = _
    rw [binaryNature, Operator.givesBool, List.contains_eq_mem, if_pos (by simpa using hoperator)]
  | @arithmetic note operator left right hoperator =>
    have hdisjoint : ∀ operator ∈ Operator.arithmetic, operator ∉ Operator.logical := by decide
    show binaryNature operator = _
    rw [binaryNature, Operator.givesBool, List.contains_eq_mem,
      if_neg (by simpa using hdisjoint operator hoperator), Operator.givesInt,
      List.contains_eq_mem, if_pos (by simpa using hoperator)]
  | @member note object property method nature fields name entry _ hkind hfields hname hentry ih =>
    show ((object.annotate schema).nature.bind fun nature =>
      (memberNature note.location nature property).toOption) = _
    have hstruct : ¬ (nature.kind ≠ .struct ∧ nature.kind ≠ .map) :=
      fun h => hkind.elim h.1 h.2
    rw [ih, Option.bind_some, memberNature, if_neg hstruct, hfields, hname]
    simp only [hentry]
    rfl

/-- A member whose object has a nature has one as well, or it is blamed. -/
theorem member_cases {object : Expr} {nature : Nature} (hobject : HasNature schema object nature)
    (note : Note) (property : Expr) (method : Bool) :
    (∃ field, memberNature note.location nature property = .ok field ∧
        HasNature schema (.member note object property method) field) ∨
      ∃ fault, memberNature note.location nature property = .error fault ∧
        Violates schema (.member note object property method) fault := by
  rw [memberNature]
  by_cases hstruct : nature.kind ≠ .struct ∧ nature.kind ≠ .map
  · exact .inr ⟨_, if_pos hstruct, .notStruct hobject hstruct.1 hstruct.2⟩
  have hkind : nature.kind = .struct ∨ nature.kind = .map := by
    simpa [Decidable.or_iff_not_imp_left] using hstruct
  rw [if_neg hstruct]
  cases hfields : nature.entry.bind TypeEntry.fields with
  | none => exact .inr ⟨_, rfl, .noFields hobject hkind (.inl hfields)⟩
  | some fields =>
    cases hname : property.propertyName? with
    | none => exact .inr ⟨_, rfl, .noFields hobject hkind (.inr hname)⟩
    | some name =>
      cases hentry : NameMap.find? name fields with
      | none =>
        exact .inr ⟨_, by simp only [hentry], .fieldNotFound hobject hkind hfields hname hentry⟩
      | some entry =>
        exact .inl ⟨_, by simp only [hentry], .member hobject hkind hfields hname hentry⟩

/-- The rules give the natures that the checker stores. -/
theorem hasNature_of_annotate {e : Expr} {nature : Nature}
    (h : (e.annotate schema).nature = some nature) : HasNature schema e nature := by
  induction e generalizing nature with
  | unary note operator operand ih =>
    replace h : unaryNature operator (operand.annotate schema).nature = some nature := h
    cases hoperand : (operand.annotate schema).nature with
    | none =>
      rw [hoperand] at h
      cases h
    | some inner =>
      rw [hoperand, unaryNature, Option.map_some] at h
      split at h
      · next hkind =>
        obtain ⟨hoperator, rfl⟩ : (operator = "!" ∨ operator = "not") ∧ .ofKind .bool = nature := by
          simpa using h
        exact .negation (by simpa using hoperator) (ih hoperand) (Option.some.inj hkind)
      · next hkind =>
        obtain ⟨hoperator, rfl⟩ : (operator = "+" ∨ operator = "-") ∧ .ofKind .int = nature := by
          simpa using h
        exact .sign (by simpa using hoperator) (ih hoperand) (Option.some.inj hkind)
      · cases h
  | binary note operator left right =>
    replace h : binaryNature operator = some nature := h
    rw [binaryNature] at h
    split at h
    · next hoperator =>
      cases h
      exact .logical (by simpa [Operator.givesBool] using hoperator)
    split at h
    · next hoperator =>
      cases h
      exact .arithmetic (by simpa [Operator.givesInt] using hoperator)
    cases h
  | member note object property method ih =>
    replace h : ((object.annotate schema).nature.bind fun nature =>
      (memberNature note.location nature property).toOption) = some nature := h
    obtain ⟨inner, hobject, h⟩ := Option.bind_eq_some_iff.mp h
    rcases member_cases (ih hobject) note property method with
      ⟨field, hfield, hnature⟩ | ⟨fault, hfault, -⟩
    · rw [hfield] at h
      cases h
      exact hnature
    · rw [hfault] at h
      cases h
  | identifier note name =>
    replace h : (schema.variableEntry? name).map Nature.ofEntry = some nature := h
    obtain ⟨entry, hentry, rfl⟩ := Option.map_eq_some_iff.mp h
    exact .identifier hentry
  | call | pointer => cases h
  | string | integer | bool | nil =>
    cases h
    constructor

/-- **The checker stores the natures that the rules give**, and no others. -/
theorem nature_annotate_iff {e : Expr} {nature : Nature} :
    (e.annotate schema).nature = some nature ↔ HasNature schema e nature :=
  ⟨hasNature_of_annotate, HasNature.nature_annotate⟩

/-- The nodes that do what the rules ask of them are those that have a nature. -/
theorem obeys_iff {e : Expr} : Obeys schema e ↔ ∃ nature, HasNature schema e nature := by
  constructor
  · intro h
    cases e with
    | unary note operator operand =>
      rcases h with ⟨hoperator, nature, hnature, hkind⟩ | ⟨hoperator, nature, hnature, hkind⟩
      · exact ⟨_, .negation hoperator hnature hkind⟩
      · exact ⟨_, .sign hoperator hnature hkind⟩
    | binary => exact h.elim (fun h => ⟨_, .logical h⟩) fun h => ⟨_, .arithmetic h⟩
    | member =>
      obtain ⟨nature, fields, name, entry, hobject, hkind, hfields, hname, hentry⟩ := h
      exact ⟨_, .member hobject hkind hfields hname hentry⟩
    | identifier =>
      obtain ⟨entry, hentry⟩ := Option.isSome_iff_exists.mp h
      exact ⟨_, .identifier hentry⟩
    | call | pointer => exact h.elim
    | string => exact ⟨_, .string⟩
    | integer => exact ⟨_, .integer⟩
    | bool => exact ⟨_, .bool⟩
    | nil => exact ⟨_, .nil⟩
  · rintro ⟨nature, h⟩
    cases h with
    | identifier hentry => exact Option.isSome_iff_exists.mpr ⟨_, hentry⟩
    | string | integer | bool | nil => trivial
    | negation hoperator hoperand hkind => exact .inl ⟨hoperator, _, hoperand, hkind⟩
    | sign hoperator hoperand hkind => exact .inr ⟨hoperator, _, hoperand, hkind⟩
    | logical hoperator => exact .inl hoperator
    | arithmetic hoperator => exact .inr hoperator
    | member hobject hkind hfields hname hentry =>
      exact ⟨_, _, _, _, hobject, hkind, hfields, hname, hentry⟩

theorem obeys_iff_nature {e : Expr} : Obeys schema e ↔ (e.annotate schema).nature.isSome := by
  rw [obeys_iff, Option.isSome_iff_exists]
  exact exists_congr fun nature => nature_annotate_iff.symm

theorem HasNature.unique {e : Expr} {nature nature' : Nature} (h : HasNature schema e nature)
    (h' : HasNature schema e nature') : nature = nature' :=
  Option.some.inj (h.nature_annotate.symm.trans h'.nature_annotate)

/-- What is blamed has failed. -/
theorem Violates.not_obeys {e : Expr} {fault : Located CheckFault} (h : Violates schema e fault) :
    ¬ Obeys schema e := by
  cases h with
  | identifier h | unary h | binary h => exact h
  | notStruct hobject hstruct hmap =>
    rintro ⟨nature, -, -, -, hnature, hkind, -⟩
    obtain rfl := hobject.unique hnature
    exact hkind.elim hstruct hmap
  | noFields hobject _ hnone =>
    rintro ⟨nature, fields, name, entry, hnature, -, hfields, hname, -⟩
    obtain rfl := hobject.unique hnature
    rcases hnone with hnone | hnone
    · rw [hfields] at hnone
      cases hnone
    · rw [hname] at hnone
      cases hnone
  | @fieldNotFound _ _ _ _ _ fields name hobject _ hfields hname hnone =>
    rintro ⟨nature, fields', name', entry, hnature, -, hfields', hname', hentry⟩
    obtain rfl := hobject.unique hnature
    obtain rfl : fields = fields' := Option.some.inj (hfields.symm.trans hfields')
    obtain rfl : name = name' := Option.some.inj (hname.symm.trans hname')
    rw [hentry] at hnone
    cases hnone
  | call | pointer => exact id

/-! ### The first violation -/

/-- No node of the list fails, or the first one that does is blamed. -/
inductive Judged (schema : Schema) : List Expr → Option (Located CheckFault) → Prop where
  | sound {es : List Expr} (h : ∀ n ∈ es, Obeys schema n) : Judged schema es none
  | faulty {before after : List Expr} {node : Expr} {fault : Located CheckFault}
      (hbefore : ∀ n ∈ before, Obeys schema n) (hnode : Violates schema node fault) :
      Judged schema (before ++ node :: after) (some fault)

theorem Judged.append {es es' : List Expr} {fault fault' : Option (Located CheckFault)}
    (h : Judged schema es fault) (h' : (∀ n ∈ es, Obeys schema n) → Judged schema es' fault') :
    Judged schema (es ++ es') (fault.or fault') := by
  cases h with
  | sound h =>
    cases h' h with
    | sound hes' => exact .sound fun n hn => (List.mem_append.mp hn).elim (h n) (hes' n)
    | faulty hbefore hnode =>
      rw [← List.append_assoc]
      exact .faulty (fun n hn => (List.mem_append.mp hn).elim (h n) (hbefore n)) hnode
  | faulty hbefore hnode =>
    rw [List.append_assoc]
    exact .faulty hbefore hnode

/-- The faults of a single node judge it. -/
theorem judged_single {e : Expr} {faults : List (Located CheckFault)}
    (hobeys : Obeys schema e → faults = [])
    (hfails : ¬ Obeys schema e → ∃ fault, faults = [fault] ∧ Violates schema e fault) :
    Judged schema [e] faults.head? := by
  by_cases h : Obeys schema e
  · rw [hobeys h]
    exact .sound fun n hn => List.mem_singleton.mp hn ▸ h
  · obtain ⟨fault, rfl, hfault⟩ := hfails h
    show Judged schema ([] ++ e :: []) (some fault)
    exact .faulty nofun hfault

/-- A node whose nature decides about its only fault. -/
theorem judged_of_nature {e : Expr} {fault : Located CheckFault}
    (hfails : ¬ Obeys schema e → Violates schema e fault) :
    Judged schema [e] (if (e.annotate schema).nature.isSome then [] else [fault]).head? :=
  judged_single (fun h => if_pos (obeys_iff_nature.mp h)) fun h =>
    ⟨fault, if_neg fun hnature => h (obeys_iff_nature.mpr hnature), hfails h⟩

theorem Expr.mem_evaluated (e : Expr) : e ∈ e.evaluated := by
  cases e <;> simp [Expr.evaluated]

theorem Expr.violations_withNature (nature : Option Nature) (e : Expr) :
    (e.withNature nature).violations schema = e.violations schema := by
  cases e <;> rfl

/-- **The checker judges the evaluated nodes.** -/
theorem judged_violations (e : Expr) :
    Judged schema e.evaluated ((e.annotate schema).violations schema).head? := by
  induction e with
  | unary note operator operand ih =>
    rw [Expr.evaluated, Expr.annotate, Expr.violations, List.head?_append]
    exact ih.append fun _ => judged_of_nature .unary
  | binary note operator left right ihleft ihright =>
    rw [Expr.evaluated, Expr.annotate, Expr.violations, Expr.violations_withNature,
      List.head?_append, List.head?_append]
    exact (ihleft.append fun _ => ihright).append fun _ => judged_of_nature .binary
  | member note object property method ih =>
    rw [Expr.evaluated, Expr.annotate, Expr.violations, List.head?_append]
    refine ih.append fun hobject => ?_
    -- the object has a nature, since it is one of the nodes that obey the rules
    obtain ⟨nature, hnature⟩ := obeys_iff.mp (hobject object object.mem_evaluated)
    rw [hnature.nature_annotate, Option.map_some]
    rcases member_cases hnature note property method with
      ⟨field, hfield, hmember⟩ | ⟨fault, hfault, hviolates⟩
    · rw [hfield]
      exact judged_single (fun _ => rfl) fun h => absurd (obeys_iff.mpr ⟨field, hmember⟩) h
    · rw [hfault]
      exact judged_single (fun h => absurd h hviolates.not_obeys) fun _ => ⟨fault, rfl, hviolates⟩
  | identifier note name =>
    exact judged_single (fun h => if_pos h) fun h => ⟨_, if_neg h, .identifier h⟩
  | call | pointer => exact judged_single False.elim fun _ => ⟨_, rfl, by constructor⟩
  | string | integer | bool | nil => exact .sound (by simp [Expr.evaluated, Obeys])

/-! ### The nodes of a checked tree -/

/-- The kind that is stored in a node. -/
def Expr.kind? (e : Expr) : Option Kind := e.nature.map Nature.kind

theorem kind?_annotate_iff {e : Expr} {kind : Kind} :
    (e.annotate schema).kind? = some kind ↔ HasKind schema e kind := by
  rw [Expr.kind?, Option.map_eq_some_iff]
  exact exists_congr fun nature => and_congr_left fun _ => nature_annotate_iff

/-- A string to the right of a string keeps its kind. -/
theorem map_kind_rightNature (left right : Option Nature) :
    (rightNature left right).map Nature.kind = right.map Nature.kind := by
  cases left with
  | none => rfl
  | some l =>
    cases right with
    | none => rfl
    | some r =>
      dsimp only [rightNature]
      split <;> rfl

theorem map_kind?_withNature {nature : Option Nature} {e : Expr}
    (h : nature.map Nature.kind = e.kind?) :
    (e.withNature nature).evaluated.map Expr.kind? = e.evaluated.map Expr.kind? := by
  have hroot : (e.withNature nature).kind? = e.kind? := by
    rw [Expr.kind?, Expr.nature_withNature, h]
  cases e with
  | unary | binary | member =>
    simp only [Expr.withNature, Expr.withNote, Expr.evaluated, List.map_append, List.map_cons,
      List.map_nil] at hroot ⊢
    rw [hroot]
  | _ => exact congrArg (fun kind => [kind]) hroot

/-- **Every evaluated node of the checked tree stores the kind that the rules give it.** -/
theorem map_kind?_annotate (e : Expr) :
    (e.annotate schema).evaluated.map Expr.kind? =
      e.evaluated.map fun node => (node.annotate schema).kind? := by
  induction e with
  | unary _ _ _ ih | member _ _ _ _ ih =>
    rw [Expr.evaluated, List.map_append, ← ih]
    exact List.map_append
  | binary note operator left right ihleft ihright =>
    have hright := map_kind?_withNature (map_kind_rightNature (left.annotate schema).nature
      (right.annotate schema).nature)
    rw [Expr.evaluated, List.map_append, List.map_append, ← ihleft, ← ihright, ← hright,
      ← List.map_append]
    exact List.map_append
  | _ => rfl

end Natures

/-! ### Checking -/

section Check

variable {schema : Schema} {expected : Option Kind} {tree : Expr}

theorem fault_check : (check schema expected tree).fault =
    ((tree.annotate schema).violations schema).head?.or
      (expectationViolations expected (tree.annotate schema)).head? :=
  List.head?_append

theorem location_annotate (e : Expr) : (e.annotate schema).location = e.location := by
  cases e <;> rfl

/-- What is said of a root that has a nature. -/
theorem expectation_cases (h : Obeys schema tree) :
    expectationViolations expected (tree.annotate schema) = [] ∧
        (∀ kind ∈ expected, HasKind schema tree kind) ∨
      ∃ kind ∈ expected, ¬ HasKind schema tree kind ∧
        expectationViolations expected (tree.annotate schema) =
          [⟨.expectedType kind, tree.location⟩] := by
  obtain ⟨nature, hnature⟩ := obeys_iff.mp h
  cases expected with
  | none => exact .inl ⟨rfl, nofun⟩
  | some kind =>
    simp only [expectationViolations, hnature.nature_annotate, location_annotate]
    by_cases hkind : nature.kind = kind
    · refine .inl ⟨if_pos hkind, fun kind' hkind' => ?_⟩
      cases hkind'
      exact ⟨nature, hnature, hkind⟩
    · refine .inr ⟨kind, rfl, ?_, if_neg hkind⟩
      rintro ⟨nature', hnature', hkind'⟩
      obtain rfl := hnature.unique hnature'
      exact hkind hkind'

variable (schema expected tree) in
/-- The tree is as the rules ask for, or the first violation is reported. -/
theorem check_cases :
    (check schema expected tree).fault = none ∧ (∀ node ∈ tree.evaluated, Obeys schema node) ∧
        (∀ kind ∈ expected, HasKind schema tree kind) ∨
      ∃ fault, (check schema expected tree).fault = some fault ∧
        FirstViolation schema expected tree fault := by
  have hjudged : Judged schema tree.evaluated ((tree.annotate schema).violations schema).head? :=
    judged_violations tree
  rw [fault_check]
  generalize hnodes : tree.evaluated = nodes at hjudged
  generalize ((tree.annotate schema).violations schema).head? = found at hjudged
  cases hjudged with
  | faulty hbefore hnode => exact .inr ⟨_, rfl, .node hnodes hbefore hnode⟩
  | sound hall =>
    subst hnodes
    rcases expectation_cases (hall tree tree.mem_evaluated) with
      ⟨hnone, hexpected⟩ | ⟨kind, hkind, hroot, hsome⟩
    · exact .inl ⟨by rw [hnone]; rfl, hall, hexpected⟩
    · exact .inr ⟨_, by rw [hsome]; rfl, .root hall hkind hroot⟩

theorem FirstViolation.not_sound {fault : Located CheckFault}
    (h : FirstViolation schema expected tree fault) :
    ¬ ((∀ node ∈ tree.evaluated, Obeys schema node) ∧
      ∀ kind ∈ expected, HasKind schema tree kind) := by
  rintro ⟨hall, hexpected⟩
  cases h with
  | node hnodes _ hnode =>
    exact hnode.not_obeys (hall _ (by rw [hnodes]; simp))
  | root _ hkind hroot => exact hroot (hexpected _ hkind)

theorem kinds_check : List.Forall₂
    (fun node checked => ∀ kind, checked.kind? = some kind ↔ HasKind schema node kind)
    tree.evaluated (check schema expected tree).tree.evaluated := by
  have hmap : (tree.annotate schema).evaluated.map Expr.kind? =
      tree.evaluated.map fun node => (node.annotate schema).kind? := map_kind?_annotate tree
  rw [← List.forall₂_eq_eq_eq, List.forall₂_map_left_iff, List.forall₂_map_right_iff] at hmap
  refine hmap.flip.imp fun node checked hkind kind => ?_
  rw [← kind?_annotate_iff, hkind]

/-- Without a fault every evaluated node has a nature. -/
theorem isSome_nature_of_check (h : (check schema expected tree).fault = none) :
    ∀ node ∈ (check schema expected tree).tree.evaluated, node.nature.isSome := by
  intro node hnode
  have hmem : node.kind? ∈ (tree.annotate schema).evaluated.map Expr.kind? :=
    List.mem_map_of_mem hnode
  rw [map_kind?_annotate, List.mem_map] at hmem
  obtain ⟨source, hsource, hkind⟩ := hmem
  rcases check_cases schema expected tree with
    ⟨-, hall, -⟩ | ⟨fault, hsome, -⟩
  · have hnature := obeys_iff_nature.mp (hall source hsource)
    rw [← Option.isSome_map (f := Nature.kind)] at hnature ⊢
    exact (congrArg Option.isSome hkind).symm.trans hnature
  · rw [h] at hsome
    cases hsome

end Check

/-- **The checker is sound and complete for the rules.**  It finds no fault just where every evaluated
node obeys the rules and the root is of the kind that is asked for.  Otherwise it reports the first
violation.  Every evaluated node of the tree it returns carries a nature of the kind that the rules
give it.  Without a fault all of them carry one, so that a node without a nature tells of a fault. -/
theorem check_sound_complete (schema : Schema) (expected : Option Kind) (tree : Expr) :
    ((check schema expected tree).fault = none ↔
      (∀ node ∈ tree.evaluated, Obeys schema node) ∧ ∀ kind ∈ expected, HasKind schema tree kind) ∧
    (∀ fault, (check schema expected tree).fault = some fault →
      FirstViolation schema expected tree fault) ∧
    List.Forall₂ (fun node checked => ∀ kind, checked.kind? = some kind ↔ HasKind schema node kind)
      tree.evaluated (check schema expected tree).tree.evaluated ∧
    ((check schema expected tree).fault = none →
      ∀ node ∈ (check schema expected tree).tree.evaluated, node.nature.isSome) ∧
    ∀ node ∈ (check schema expected tree).tree.evaluated, node.nature = none →
      (check schema expected tree).fault.isSome := by
  refine ⟨?_, ?_, kinds_check, isSome_nature_of_check, fun node hnode hnature => ?_⟩
  · rcases check_cases schema expected tree with
      ⟨hnone, hsound⟩ | ⟨fault, hsome, hfirst⟩
    · exact ⟨fun _ => hsound, fun _ => hnone⟩
    · rw [hsome]
      exact ⟨nofun, fun h => absurd h hfirst.not_sound⟩
  · intro fault hfault
    rcases check_cases schema expected tree with
      ⟨hnone, -⟩ | ⟨fault', hsome, hfirst⟩
    · rw [hfault] at hnone
      cases hnone
    · rw [hfault] at hsome
      cases hsome
      exact hfirst
  · rw [Option.isSome_iff_ne_none]
    intro hnone
    have hsome := isSome_nature_of_check hnone node hnode
    rw [hnature] at hsome
    cases hsome

end FilterLang
