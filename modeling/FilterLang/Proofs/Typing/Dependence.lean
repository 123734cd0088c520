import FilterLang.Proofs.Typing

/-!
# What a check depends on

A check looks at the variables of a tree in the schema, and at nothing else there.  It stores natures in
the evaluated nodes and looks at none that was stored before.

* `Expr.vars` — the names that a check looks up.
* `annotate_congr`, `violations_congr` — schemas that agree on these names give the same natures and the
  same violations.
* `check_extension` — so they give the same result, and what is accepted stays accepted when a schema
  grows.
* `Expr.unchecked` — a tree without natures, and `Expr.spared`, the parts of it that no check enters.
* `annotate_annotate` — natures that have been stored make no difference.
* `nature_annotate_unchecked`, `violations_annotate_unchecked` — a tree without natures is checked like
  any other.
* `check_of_unchecked_eq` — trees that differ in their natures only are checked alike.
-/

namespace FilterLang

/-! ### Variables -/

/-- The names that stand for variables. -/
def Expr.vars (e : Expr) : List String := e.evaluated.filterMap Expr.identifier?

namespace Expr

@[simp] theorem vars_unary (note : Note) (operator : String) (operand : Expr) :
    (unary note operator operand).vars = operand.vars := by
  simp [vars, evaluated, identifier?]

@[simp] theorem vars_binary (note : Note) (operator : String) (left right : Expr) :
    (binary note operator left right).vars = left.vars ++ right.vars := by
  simp [vars, evaluated, identifier?]

@[simp] theorem vars_member (note : Note) (object property : Expr) (method : Bool) :
    (member note object property method).vars = object.vars := by
  simp [vars, evaluated, identifier?]

@[simp] theorem vars_withNature (nature : Option Nature) (e : Expr) :
    (e.withNature nature).vars = e.vars := by
  cases e <;> simp [withNature, withNote] <;> rfl

end Expr

section Schemas

variable {schema schema' : Schema} {expected : Option Kind} {e : Expr}

@[simp] theorem vars_annotate (e : Expr) : (e.annotate schema).vars = e.vars := by
  induction e with
  | unary note operator operand ih => simp [Expr.annotate, ih]
  | binary note operator left right ihleft ihright => simp [Expr.annotate, ihleft, ihright]
  | member note object property method ih => simp [Expr.annotate, ih]
  | _ => rfl

/-- The schemas have the same entry for a variable, or both have none. -/
def Schema.Agree (schema schema' : Schema) (name : String) : Prop :=
  schema.variableEntry? name = schema'.variableEntry? name

/-- **Natures** depend on the entries of the variables. -/
theorem annotate_congr (h : ∀ name ∈ e.vars, schema.Agree schema' name) :
    e.annotate schema = e.annotate schema' := by
  induction e with
  | unary note operator operand ih =>
    rw [Expr.vars_unary] at h
    simp only [Expr.annotate, ih h]
  | binary note operator left right ihleft ihright =>
    rw [Expr.vars_binary, List.forall_mem_append] at h
    simp only [Expr.annotate, ihleft h.1, ihright h.2]
  | member note object property method ih =>
    rw [Expr.vars_member] at h
    simp only [Expr.annotate, ih h]
  | identifier note name =>
    have hentry : schema.variableEntry? name = schema'.variableEntry? name := h name (.head _)
    simp only [Expr.annotate, hentry]
  | _ => rfl

/-- **Violations** depend on the entries of the variables. -/
theorem violations_congr (h : ∀ name ∈ e.vars, schema.Agree schema' name) :
    e.violations schema = e.violations schema' := by
  induction e with
  | unary note operator operand ih =>
    rw [Expr.vars_unary] at h
    simp only [Expr.violations, ih h]
  | binary note operator left right ihleft ihright =>
    rw [Expr.vars_binary, List.forall_mem_append] at h
    simp only [Expr.violations, ihleft h.1, ihright h.2]
  | member note object property method ih =>
    rw [Expr.vars_member] at h
    simp only [Expr.violations, ih h]
  | identifier note name =>
    have hentry : schema.variableEntry? name = schema'.variableEntry? name := h name (.head _)
    simp only [Expr.violations, hentry]
  | _ => rfl

theorem check_congr (h : ∀ name ∈ e.vars, schema.Agree schema' name) :
    check schema expected e = check schema' expected e := by
  have hviolations : (e.annotate schema').violations schema = (e.annotate schema').violations schema' :=
    violations_congr (by rwa [vars_annotate])
  simp only [check, annotate_congr h, hviolations]

/-- Where no fault is found, the schema has an entry for every variable. -/
theorem isSome_of_check (h : (check schema expected e).fault = none) :
    ∀ name ∈ e.vars, (schema.variableEntry? name).isSome := by
  intro name hname
  obtain ⟨node, hnode, hidentifier⟩ := List.mem_filterMap.mp hname
  rcases check_cases schema expected e with ⟨-, hall, -⟩ | ⟨fault, hsome, -⟩
  · cases node <;> cases hidentifier
    exact hall _ hnode
  · rw [h] at hsome
    cases hsome

end Schemas

/-- **What is accepted stays accepted when the schema grows**, with the same natures.  More generally,
schemas that agree on the variables of a tree give the same result, whatever it is; the names of fields
do not count. -/
theorem check_extension (schema schema' : Schema) (expected : Option Kind) (tree : Expr) :
    ((∀ name entry, schema.variableEntry? name = some entry →
          schema'.variableEntry? name = some entry) →
        (check schema expected tree).fault = none →
        (check schema' expected tree).fault = none ∧
          (check schema' expected tree).nature = (check schema expected tree).nature ∧
          (check schema' expected tree).tree = (check schema expected tree).tree) ∧
      ((∀ name ∈ tree.vars, schema.Agree schema' name) →
        check schema' expected tree = check schema expected tree) := by
  refine ⟨fun hgrow haccepted => ?_, fun hagree => (check_congr hagree).symm⟩
  have hagree : ∀ name ∈ tree.vars, schema.Agree schema' name := by
    intro name hname
    obtain ⟨entry, hentry⟩ := Option.isSome_iff_exists.mp (isSome_of_check haccepted name hname)
    exact hentry.trans (hgrow name entry hentry).symm
  rw [← check_congr hagree]
  exact ⟨haccepted, rfl, rfl⟩

/-- Another variable makes no difference to a comparison that does not mention it. -/
theorem check_extension_variable :
    let small : Schema := ({} : Schema).withVariable "n" (.ofKind .int)
    let large : Schema := small.withVariable "m" (.ofKind .string)
    let tree : Expr := .binary {} "<" (.identifier {} "n") (.integer {} 1)
    (∀ name entry, small.variableEntry? name = some entry →
        large.variableEntry? name = some entry) ∧
      (∀ name ∈ tree.vars, small.Agree large name) ∧
      (check small (some .bool) tree).fault = none ∧ (check large (some .bool) tree).fault = none ∧
      check large (some .int) tree = check small (some .int) tree := by
  intro small large tree
  have hgrow : ∀ name entry, small.variableEntry? name = some entry →
      large.variableEntry? name = some entry := by
    intro name entry hentry
    by_cases hname : name = "m"
    · subst hname
      cases hentry
    · exact (NameMap.find?_insert_of_ne hname _ _).trans hentry
  have hagree : ∀ name ∈ tree.vars, small.Agree large name := by
    intro name hname
    rw [List.mem_singleton.mp hname]
    rfl
  obtain ⟨haccepted, hsame⟩ := check_extension small large (some .bool) tree
  exact ⟨hgrow, hagree, rfl, (haccepted hgrow rfl).1,
    (check_extension small large (some .int) tree).2 hagree⟩

/-! ### Natures of an earlier check -/

namespace Expr

/-- The tree without natures. -/
def unchecked : Expr → Expr
  | unary note operator operand => unary (.at note.location) operator operand.unchecked
  | binary note operator left right =>
    binary (.at note.location) operator left.unchecked right.unchecked
  | member note object property method =>
    member (.at note.location) object.unchecked property.unchecked method
  | call note callee => call (.at note.location) callee.unchecked
  | pointer note name => pointer (.at note.location) name
  | string note value => string (.at note.location) value
  | integer note value => integer (.at note.location) value
  | bool note value => bool (.at note.location) value
  | nil note => nil (.at note.location)
  | identifier note name => identifier (.at note.location) name

/-- The natures of the evaluated nodes, children before parents and left before right. -/
def natures (e : Expr) : List (Option Nature) := e.evaluated.map nature

/-- The parts that no check enters: the properties of members and the callees of calls. -/
def spared : Expr → List Expr
  | unary _ _ operand => operand.spared
  | binary _ _ left right => left.spared ++ right.spared
  | member _ object property _ => object.spared ++ [property]
  | call _ callee => [callee]
  | _ => []

@[simp] theorem location_unchecked (e : Expr) : e.unchecked.location = e.location := by
  cases e <;> rfl

@[simp] theorem propertyName?_unchecked (e : Expr) : e.unchecked.propertyName? = e.propertyName? := by
  cases e <;> rfl

theorem unchecked_withNature (nature : Option Nature) (e : Expr) :
    (e.withNature nature).unchecked = e.unchecked := by
  cases e <;> rfl

theorem spared_withNature (nature : Option Nature) (e : Expr) :
    (e.withNature nature).spared = e.spared := by
  cases e <;> rfl

theorem natures_unary (note : Note) (operator : String) (operand : Expr) :
    (unary note operator operand).natures = operand.natures ++ [note.nature] := by
  rw [natures, evaluated, List.map_append]
  rfl

theorem natures_binary (note : Note) (operator : String) (left right : Expr) :
    (binary note operator left right).natures = left.natures ++ right.natures ++ [note.nature] := by
  rw [natures, evaluated, List.map_append, List.map_append]
  rfl

theorem natures_member (note : Note) (object property : Expr) (method : Bool) :
    (member note object property method).natures = object.natures ++ [note.nature] := by
  rw [natures, evaluated, List.map_append]
  rfl

/-- Another nature at the root is the last of the natures. -/
theorem natures_withNature (nature : Option Nature) (e : Expr) :
    (e.withNature nature).natures = e.natures.dropLast ++ [nature] := by
  cases e <;> simp [natures, withNature, withNote, evaluated, Expr.nature, Expr.note]

theorem annotate_withNature (schema : Schema) (nature : Option Nature) (e : Expr) :
    (e.withNature nature).annotate schema = e.annotate schema := by
  cases e <;> rfl

end Expr

theorem memberNature_unchecked (location : Location) (object : Nature) (property : Expr) :
    memberNature location object property.unchecked = memberNature location object property := by
  rw [memberNature, memberNature, Expr.propertyName?_unchecked, Expr.location_unchecked]

section Natures

variable {schema schema' : Schema} {expected : Option Kind}

/-- **Natures that have been stored** make no difference to the natures that are stored next. -/
theorem annotate_annotate (e : Expr) :
    (e.annotate schema).annotate schema' = e.annotate schema' := by
  induction e with
  | unary note operator operand ih => simp only [Expr.annotate, ih]
  | binary note operator left right ihleft ihright =>
    simp only [Expr.annotate, Expr.annotate_withNature, ihleft, ihright]
  | member note object property method ih => simp only [Expr.annotate, ih]
  | _ => rfl

/-- A check changes nothing in a tree but its natures. -/
theorem unchecked_annotate (e : Expr) : (e.annotate schema).unchecked = e.unchecked := by
  induction e with
  | unary note operator operand ih => simp only [Expr.annotate, Expr.unchecked, ih]
  | binary note operator left right ihleft ihright =>
    simp only [Expr.annotate, Expr.unchecked, Expr.unchecked_withNature, ihleft, ihright]
  | member note object property method ih => simp only [Expr.annotate, Expr.unchecked, ih]
  | _ => rfl

/-- A check leaves the parts that it does not enter as they are. -/
theorem spared_annotate (e : Expr) : (e.annotate schema).spared = e.spared := by
  induction e with
  | unary note operator operand ih => simp only [Expr.annotate, Expr.spared, ih]
  | binary note operator left right ihleft ihright =>
    simp only [Expr.annotate, Expr.spared, Expr.spared_withNature, ihleft, ihright]
  | member note object property method ih => simp only [Expr.annotate, Expr.spared, ih]
  | _ => rfl

theorem nature_annotate_unchecked (e : Expr) :
    (e.unchecked.annotate schema).nature = (e.annotate schema).nature := by
  induction e with
  | unary note operator operand ih => exact congrArg (unaryNature operator) ih
  | member note object property method ih =>
    show (object.unchecked.annotate schema).nature.bind (fun nature =>
        (memberNature note.location nature property.unchecked).toOption) =
      (object.annotate schema).nature.bind fun nature =>
        (memberNature note.location nature property).toOption
    simp only [ih, memberNature_unchecked]
  | _ => rfl

/-- **A tree without natures** gets the natures that any other gets. -/
theorem natures_annotate_unchecked (e : Expr) :
    (e.unchecked.annotate schema).natures = (e.annotate schema).natures := by
  induction e with
  | unary note operator operand ih =>
    simp only [Expr.unchecked, Expr.annotate, Expr.natures_unary, ih, nature_annotate_unchecked]
  | binary note operator left right ihleft ihright =>
    simp only [Expr.unchecked, Expr.annotate, Expr.natures_binary, Expr.natures_withNature, ihleft,
      ihright, nature_annotate_unchecked]
  | member note object property method ih =>
    simp only [Expr.unchecked, Expr.annotate, Expr.natures_member, ih, nature_annotate_unchecked,
      memberNature_unchecked]
    rfl
  | _ => rfl

/-- **A tree without natures** breaks the rules that any other breaks. -/
theorem violations_annotate_unchecked (e : Expr) :
    (e.unchecked.annotate schema).violations schema = (e.annotate schema).violations schema := by
  induction e with
  | unary note operator operand ih =>
    simp only [Expr.unchecked, Expr.annotate, Expr.violations, ih, nature_annotate_unchecked]
    rfl
  | binary note operator left right ihleft ihright =>
    simp only [Expr.unchecked, Expr.annotate, Expr.violations, Expr.violations_withNature, ihleft,
      ihright]
    rfl
  | member note object property method ih =>
    simp only [Expr.unchecked, Expr.annotate, Expr.violations, ih, nature_annotate_unchecked,
      memberNature_unchecked]
    rfl
  | _ => rfl

theorem fault_check_unchecked (e : Expr) :
    (check schema expected e.unchecked).fault = (check schema expected e).fault := by
  rw [fault_check, fault_check, violations_annotate_unchecked]
  simp only [expectationViolations, nature_annotate_unchecked, location_annotate,
    Expr.location_unchecked]

end Natures

/-- **A check ignores the natures of an earlier one.**  Trees that differ in their natures only have the
same nature and the same fault, and the same natures are stored in their evaluated nodes; the rest of a
tree stays as it is, with the natures in it.  So a tree that has been checked, against whatever schema,
is checked like the tree that it comes from. -/
theorem check_of_unchecked_eq (schema : Schema) (expected : Option Kind) {e e' : Expr}
    (h : e.unchecked = e'.unchecked) :
    (check schema expected e).nature = (check schema expected e').nature ∧
      (check schema expected e).fault = (check schema expected e').fault ∧
      (check schema expected e).tree.natures = (check schema expected e').tree.natures ∧
      (check schema expected e).tree.unchecked = e.unchecked ∧
      (check schema expected e).tree.spared = e.spared ∧
      ∀ earlier former, check schema expected (check earlier former e).tree =
        check schema expected e := by
  have hnature : (e.annotate schema).nature = (e'.annotate schema).nature := by
    rw [← nature_annotate_unchecked e, h, nature_annotate_unchecked e']
  have hfault : (check schema expected e).fault = (check schema expected e').fault := by
    rw [← fault_check_unchecked e, h, fault_check_unchecked e']
  have hnatures : (e.annotate schema).natures = (e'.annotate schema).natures := by
    rw [← natures_annotate_unchecked e, h, natures_annotate_unchecked e']
  refine ⟨hnature, hfault, hnatures, unchecked_annotate e, spared_annotate e,
    fun earlier former => ?_⟩
  simp only [check, annotate_annotate]

/-- A comparison with natures that are wrong, one of them at the name of the field. -/
theorem check_of_stale :
    let schema : Schema :=
      ({} : Schema).withVariable "m"
        ((TypeEntry.ofKind .struct).withField "x" ((TypeEntry.ofKind .string).withValues ["a"]))
    let fresh : Expr :=
      .binary {} "==" (.member {} (.identifier {} "m") (.identifier {} "x") false) (.string {} "a")
    let wrong : Note := { nature := some (.ofKind .int) }
    let stale : Expr :=
      .binary wrong "==" (.member {} (.identifier {} "m") (.identifier wrong "x") false)
        (.string { nature := some (.ofEntry .date) } "a")
    stale.unchecked = fresh.unchecked ∧
      (check schema (some .bool) stale).nature = (check schema (some .bool) fresh).nature ∧
      (check schema (some .bool) fresh).fault = none ∧
      (check schema (some .bool) stale).fault = none ∧
      (check schema (some .bool) stale).tree.natures =
        (check schema (some .bool) fresh).tree.natures ∧
      (check schema (some .bool) stale).tree.spared = [.identifier wrong "x"] ∧
      check schema (some .bool) (check {} none stale).tree = check schema (some .bool) stale := by
  intro schema fresh wrong stale
  have hsame : stale.unchecked = fresh.unchecked := rfl
  have hsound : (check schema (some .bool) fresh).fault = none := rfl
  obtain ⟨hnature, hfault, hnatures, -, hspared, hagain⟩ :=
    check_of_unchecked_eq schema (some .bool) hsame
  exact ⟨hsame, hnature, hsound, hfault.trans hsound, hnatures, hspared, hagain {} none⟩

end FilterLang
