/-!
# Maps from names

A map from names holds a value for each of its names.  The names ascend strictly by code point, which
is the order in which the entries are shown.

* **`NameMap`** — the names in their order and the value of each of them.
* **`NameMap.entries`** — the names with their values.
* **`NameMap.ofSorted`** — the map of entries that are in order.
* **`NameMap.find?`** — the value of a name.
* **`NameMap.insert`** — adds an entry, or replaces the one of that name.
* **`NameMap.ofList`** — the entries of any list; of two with one name the later counts.
* **`NameMap.map`**, **`NameMap.filter`** — other values for the same names, and fewer entries.
-/

namespace FilterLang

/-- A map from names.  The values are given by the place of their name: a list of entries with a proof
that it is in order could not hold values that have such maps in themselves, as schema entries do. -/
structure NameMap (α : Type) where
  names : List String
  sorted : names.Pairwise (· < ·)
  value : Fin names.length → α

namespace NameMap

variable {α β : Type}

/-! ### Entries -/

/-- The names with their values, in the order of the names. -/
def entries (map : NameMap α) : List (String × α) := map.names.zip (List.ofFn map.value)

/-- The names of the entries ascend strictly. -/
def Sorted (entries : List (String × α)) : Prop :=
  entries.Pairwise fun x y => x.1 < y.1

/-- The map of entries that are in order. -/
def ofSorted (entries : List (String × α)) (h : Sorted entries) : NameMap α where
  names := entries.map Prod.fst
  sorted := List.pairwise_map.mpr h
  value i := (entries.get (i.cast (List.length_map Prod.fst))).2

theorem map_fst_entries (map : NameMap α) : map.entries.map Prod.fst = map.names :=
  List.map_fst_zip (Nat.le_of_eq List.length_ofFn.symm)

theorem map_snd_entries (map : NameMap α) : map.entries.map Prod.snd = List.ofFn map.value :=
  List.map_snd_zip (Nat.le_of_eq List.length_ofFn)

theorem nodup_names (map : NameMap α) : map.names.Nodup := map.sorted.imp String.ne_of_lt

theorem sorted_entries (map : NameMap α) : Sorted map.entries := by
  have h := map.sorted
  rwa [← map_fst_entries, List.pairwise_map] at h

@[simp]
theorem entries_ofSorted (entries : List (String × α)) (h : Sorted entries) :
    (ofSorted entries h).entries = entries := by
  have hvalues : List.ofFn (ofSorted entries h).value = entries.map Prod.snd := by
    apply List.ext_getElem <;> simp [ofSorted]
  rw [NameMap.entries, hvalues]
  exact (List.zip_of_prod rfl rfl).symm

/-- Maps with the same entries are the same. -/
theorem ext_entries {map map' : NameMap α} (h : map.entries = map'.entries) : map = map' := by
  have hnames := congrArg (List.map Prod.fst) h
  have hvalues := congrArg (List.map Prod.snd) h
  rw [map_fst_entries, map_fst_entries] at hnames
  rw [map_snd_entries, map_snd_entries] at hvalues
  obtain ⟨names, _, value⟩ := map
  obtain ⟨names', _, value'⟩ := map'
  obtain rfl : names = names' := hnames
  obtain rfl : value = value' := by
    funext i
    have hi := congrArg (fun values => values[i.val]?) hvalues
    simpa using hi
  rfl

instance [DecidableEq α] : DecidableEq (NameMap α) := fun _ _ =>
  decidable_of_iff _ ⟨ext_entries, congrArg entries⟩

/-- The value of an entry is the value of a place. -/
theorem exists_value_eq {map : NameMap α} {entry : String × α} (h : entry ∈ map.entries) :
    ∃ i, map.value i = entry.2 := by
  have hmem := List.mem_map_of_mem (f := Prod.snd) h
  rwa [map_snd_entries, List.mem_ofFn] at hmem

/-! ### Operations -/

/-- The map without names. -/
def empty : NameMap α := ofSorted [] .nil

instance : Inhabited (NameMap α) := ⟨empty⟩

/-- The value of a name. -/
def find? (name : String) (map : NameMap α) : Option α := map.entries.lookup name

/-- Adds an entry in its place, or replaces the entry of the same name. -/
def insertEntry (name : String) (value : α) : List (String × α) → List (String × α)
  | [] => [(name, value)]
  | (key, old) :: rest =>
    if name < key then (name, value) :: (key, old) :: rest
    else if name = key then (name, value) :: rest
    else (key, old) :: insertEntry name value rest

theorem mem_insertEntry {name : String} {value : α} {entry : String × α}
    {entries : List (String × α)} (h : entry ∈ insertEntry name value entries) :
    entry = (name, value) ∨ entry ∈ entries := by
  induction entries with
  | nil => simpa [insertEntry] using h
  | cons head rest ih =>
    obtain ⟨key, old⟩ := head
    grind [insertEntry]

theorem Sorted.insertEntry {entries : List (String × α)} (h : Sorted entries) (name : String)
    (value : α) : Sorted (insertEntry name value entries) := by
  induction entries with
  | nil => exact List.pairwise_singleton _ _
  | cons head rest ih =>
    obtain ⟨key, old⟩ := head
    obtain ⟨hhead, hrest⟩ := List.pairwise_cons.mp h
    rw [NameMap.insertEntry]
    split
    · next hlt =>
      refine List.pairwise_cons.mpr ⟨fun entry hentry => ?_, h⟩
      rcases List.mem_cons.mp hentry with rfl | hentry
      · exact hlt
      · exact String.lt_trans hlt (hhead entry hentry)
    · next hge =>
      split
      · next heq =>
        subst heq
        exact List.pairwise_cons.mpr ⟨hhead, hrest⟩
      · next hne =>
        refine List.pairwise_cons.mpr ⟨fun entry hentry => ?_, ih hrest⟩
        rcases mem_insertEntry hentry with rfl | hentry
        · refine Decidable.byContradiction fun hlt => ?_
          exact hne (String.le_antisymm (String.not_lt.mp hlt) (String.not_lt.mp hge))
        · exact hhead entry hentry

/-- Adds an entry, or replaces the one of that name. -/
def insert (name : String) (value : α) (map : NameMap α) : NameMap α :=
  ofSorted (insertEntry name value map.entries) (map.sorted_entries.insertEntry name value)

theorem Sorted.foldl_insertEntry {map : List (String × α)} (h : Sorted map)
    (entries : List (String × α)) :
    Sorted (entries.foldl (fun map entry => NameMap.insertEntry entry.1 entry.2 map) map) := by
  induction entries generalizing map with
  | nil => exact h
  | cons entry rest ih => exact ih (h.insertEntry entry.1 entry.2)

/-- The map of a list of entries. -/
def ofList (entries : List (String × α)) : NameMap α :=
  ofSorted (entries.foldl (fun map entry => insertEntry entry.1 entry.2 map) [])
    (Sorted.foldl_insertEntry .nil entries)

/-- Other values for the same names. -/
def map (f : α → β) (map : NameMap α) : NameMap β := { map with value := fun i => f (map.value i) }

/-- The entries whose values satisfy `p`. -/
def filter (p : α → Bool) (map : NameMap α) : NameMap α :=
  ofSorted (map.entries.filter fun entry => p entry.2) (map.sorted_entries.filter _)

@[simp]
theorem entries_map (f : α → β) (map : NameMap α) :
    (map.map f).entries = map.entries.map fun entry => (entry.1, f entry.2) := by
  have hvalues : List.ofFn (map.map f).value = (List.ofFn map.value).map f := by
    rw [List.map_ofFn]
    rfl
  rw [entries, hvalues, List.zip_map_right]
  rfl

@[simp]
theorem entries_filter (p : α → Bool) (map : NameMap α) :
    (map.filter p).entries = map.entries.filter fun entry => p entry.2 :=
  entries_ofSorted _ _

/-! ### Entries of a name -/

/-- A name leads to the value that is stored under it. -/
theorem find?_eq_some_iff {map : NameMap α} {name : String} {value : α} :
    map.find? name = some value ↔ (name, value) ∈ map.entries := by
  rw [find?, List.lookup_eq_some_iff]
  constructor
  · rintro ⟨front, rest, hentries, -⟩
    simp [hentries]
  · intro hmem
    obtain ⟨front, rest, hentries⟩ := List.append_of_mem hmem
    refine ⟨front, rest, hentries, fun entry hentry => bne_iff_ne.mpr ?_⟩
    have hsorted := map.sorted_entries
    rw [hentries] at hsorted
    have hlt : entry.1 < name := (List.pairwise_append.mp hsorted).2.2 entry hentry _ (.head _)
    exact (String.ne_of_lt hlt).symm

theorem mem_insertEntry_of_ne {name other : String} (h : other ≠ name) {value found : α}
    {entries : List (String × α)} :
    (other, found) ∈ insertEntry name value entries ↔ (other, found) ∈ entries := by
  induction entries with
  | nil => simp [insertEntry, h]
  | cons head rest ih =>
    obtain ⟨key, old⟩ := head
    grind [insertEntry]

/-- Adding an entry does not touch the entries of other names. -/
theorem find?_insert_of_ne {name other : String} (h : other ≠ name) (value : α)
    (map : NameMap α) : find? other (insert name value map) = find? other map := by
  refine Option.ext fun found => ?_
  rw [find?_eq_some_iff, find?_eq_some_iff, insert, entries_ofSorted]
  exact mem_insertEntry_of_ne h

end NameMap

end FilterLang
