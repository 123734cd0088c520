import FilterLang.Json

/-!
# Faithful formats for JSON

* `Json.depth` — how deep brackets are nested in a value.
* `Json.Plain` — the values without numbers that can be used, and in which names occur once.
* `Json.Format.Faithful` — what is written is read back; this is all that is asked of a format.
-/

namespace FilterLang.Json

/-! ### Nesting -/

mutual

/-- How deep brackets are nested in a value. -/
def depth : Json → Nat
  | array items => depthOfItems items + 1
  | object members => depthOfMembers members + 1
  | _ => 0

/-- How deep brackets are nested in the items of a list. -/
def depthOfItems : List Json → Nat
  | [] => 0
  | item :: items => max (depth item) (depthOfItems items)

/-- How deep brackets are nested in the members of an object. -/
def depthOfMembers : List (String × Json) → Nat
  | [] => 0
  | member :: members => max (depthOfMember member) (depthOfMembers members)

/-- How deep brackets are nested in a member. -/
def depthOfMember : String × Json → Nat
  | (_, value) => depth value

end

theorem depth_lt_of_mem {name : String} {value : Json} {members : List (String × Json)}
    (h : (name, value) ∈ members) : value.depth < (object members).depth := by
  rw [depth, Nat.lt_succ_iff]
  induction members with
  | nil => cases h
  | cons member members ih =>
    rw [depthOfMembers]
    rcases List.mem_cons.mp h with rfl | h
    · exact Nat.le_max_left _ _
    · exact Nat.le_trans (ih h) (Nat.le_max_right _ _)

/-! ### Formats -/

/-- A value without numbers, without what can only be skipped over, and without objects that have two
members of one name. -/
inductive Plain : Json → Prop where
  | null : Plain .null
  | bool (value : Bool) : Plain (.bool value)
  | string (value : String) : Plain (.string value)
  | array {items : List Json} (h : ∀ item ∈ items, Plain item) : Plain (.array items)
  | object {members : List (String × Json)} (hnames : (members.map Prod.fst).Nodup)
      (h : ∀ m ∈ members, Plain m.2) : Plain (.object members)

/-- **A faithful format** reads what it has written, as long as that is not nested more deeply than it
can be looked into.  Nothing is said about numbers, or about names that occur twice. -/
def Format.Faithful (format : Format) : Prop :=
  ∀ value : Json, value.Plain → value.depth ≤ format.levels →
    format.parse? (format.write value) = some value

end FilterLang.Json
