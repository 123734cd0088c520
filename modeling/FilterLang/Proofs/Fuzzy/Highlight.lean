import FilterLang.Fuzzy.Ranking
import Mathlib.Tactic.SplitIfs

/-!
# Highlighted candidates

The marks of a highlighted candidate stand around the runs of its matched characters.  Highlighting
carries along whether it is inside a run, and a run is closed only when the next character is looked at;
here every character has the marks beside it that its own index asks for.

* `Follows`, `StartsRun`, `EndsRun` — where the indices of a run stand.
* `Part` and `parts` — a candidate with the marks beside its characters.
* `Balanced` — marks that alternate, and `balanced_parts`: those around runs do.
* `Ahead` — the indices that have not been reached yet, which is what highlighting carries along.
* `highlight_runs` — highlighting marks the runs and nothing else.
-/

namespace FilterLang.Fuzzy

/-! ### Candidates with marks -/

/-- The index before this one is listed. -/
def Follows (listed : List Nat) (index : Nat) : Prop := ∃ i ∈ listed, i + 1 = index

/-- A run of listed indices starts here: the index is listed, and the one before it is not. -/
def StartsRun (listed : List Nat) (index : Nat) : Prop :=
  index ∈ listed ∧ ¬ Follows listed index

/-- A run of listed indices ends here: the index is listed, and the one behind it is not. -/
def EndsRun (listed : List Nat) (index : Nat) : Prop :=
  index ∈ listed ∧ index + 1 ∉ listed

instance (listed : List Nat) (index : Nat) : Decidable (Follows listed index) :=
  inferInstanceAs (Decidable (∃ i ∈ listed, i + 1 = index))

instance (listed : List Nat) (index : Nat) : Decidable (StartsRun listed index) :=
  inferInstanceAs (Decidable (_ ∧ _))

instance (listed : List Nat) (index : Nat) : Decidable (EndsRun listed index) :=
  inferInstanceAs (Decidable (_ ∧ _))

/-- What a highlighted candidate consists of. -/
inductive Part where
  | opening
  | closing
  | char (c : Char)
deriving DecidableEq

namespace Part

/-- The characters of a part, for given marks. -/
def text (opening closing : List Char) : Part → List Char
  | .opening => opening
  | .closing => closing
  | .char c => [c]

/-- The character of the candidate, unless the part is a mark. -/
def char? : Part → Option Char
  | .char c => some c
  | .opening | .closing => none

end Part

/-- A character with the marks beside it. -/
def partsAt (listed : List Nat) (index : Nat) (c : Char) : List Part :=
  (if StartsRun listed index then [.opening] else []) ++
    .char c :: if EndsRun listed index then [.closing] else []

/-- The characters from an index on, each with the marks beside it. -/
def parts (listed : List Nat) : Nat → List Char → List Part
  | _, [] => []
  | index, c :: cs => partsAt listed index c ++ parts listed (index + 1) cs

variable {listed : List Nat} {index : Nat} {cs : List Char}

@[simp]
theorem not_follows_zero (listed : List Nat) : ¬ Follows listed 0 := by simp [Follows]

@[simp]
theorem follows_succ_iff : Follows listed (index + 1) ↔ index ∈ listed := by simp [Follows]

/-- Without the marks there is the candidate. -/
theorem filterMap_parts (listed : List Nat) (index : Nat) (cs : List Char) :
    (parts listed index cs).filterMap Part.char? = cs := by
  induction cs generalizing index with
  | nil => rfl
  | cons c cs ih =>
    have hat : (partsAt listed index c).filterMap Part.char? = [c] := by
      rw [partsAt]
      split_ifs <;> rfl
    rw [parts, List.filterMap_append, hat, ih]
    rfl

theorem flatMap_partsAt (listed : List Nat) (index : Nat) (c : Char) (opening closing : List Char) :
    (partsAt listed index c).flatMap (Part.text opening closing) =
      (if StartsRun listed index then opening else []) ++
        c :: if EndsRun listed index then closing else [] := by
  rw [partsAt]
  split_ifs <;> simp [Part.text]

/-! ### Alternating marks -/

/-- The marks alternate: outside of a run the next one opens it, and inside it is closed before the
end.  So they are balanced, and none stand within others. -/
inductive Balanced : Bool → List Part → Prop where
  | nil : Balanced false []
  | char {inside : Bool} {c : Char} {rest : List Part} (h : Balanced inside rest) :
      Balanced inside (.char c :: rest)
  | opening {rest : List Part} (h : Balanced true rest) : Balanced false (.opening :: rest)
  | closing {rest : List Part} (h : Balanced false rest) : Balanced true (.closing :: rest)

/-- **The step lemma.**  The marks beside a character lead from the gap in front of it to the gap behind
it, and a gap is inside of a run just where the characters on both of its sides are listed. -/
theorem Balanced.partsAt {inside inside' : Bool} {rest : List Part} (c : Char)
    (h : Balanced inside' rest) (hinside : inside ↔ index ∈ listed ∧ Follows listed index)
    (hinside' : inside' ↔ index + 1 ∈ listed ∧ index ∈ listed) :
    Balanced inside (partsAt listed index c ++ rest) := by
  by_cases hmem : index ∈ listed
  · have hchar : Balanced true
        (.char c :: ((if EndsRun listed index then [.closing] else []) ++ rest)) := by
      by_cases hnext : index + 1 ∈ listed
      · rw [hinside'.mpr ⟨hnext, hmem⟩] at h
        rw [if_neg fun hends => hends.2 hnext]
        exact h.char
      · rw [Bool.eq_false_iff.mpr fun hin => hnext (hinside'.mp hin).1] at h
        rw [if_pos ⟨hmem, hnext⟩]
        exact h.closing.char
    by_cases hfollows : Follows listed index
    · rw [hinside.mpr ⟨hmem, hfollows⟩, Fuzzy.partsAt, if_neg fun hstarts => hstarts.2 hfollows]
      exact hchar
    · rw [Bool.eq_false_iff.mpr fun hin => hfollows (hinside.mp hin).2, Fuzzy.partsAt,
        if_pos ⟨hmem, hfollows⟩]
      exact hchar.opening
  · rw [Bool.eq_false_iff.mpr fun hin => hmem (hinside.mp hin).1, Fuzzy.partsAt,
      if_neg fun hstarts => hmem hstarts.1, if_neg fun hends => hmem hends.1]
    rw [Bool.eq_false_iff.mpr fun hin => hmem (hinside'.mp hin).2] at h
    exact h.char

/-- **The marks around runs alternate.** -/
theorem balanced_parts {inside : Bool} (hinside : inside ↔ index ∈ listed ∧ Follows listed index)
    (hbound : ∀ i ∈ listed, i < index + cs.length) :
    Balanced inside (parts listed index cs) := by
  induction cs generalizing index inside with
  | nil =>
    have hnone : index ∉ listed := fun hmem => Nat.lt_irrefl index (hbound index hmem)
    rw [Bool.eq_false_iff.mpr fun hin => hnone (hinside.mp hin).1]
    exact .nil
  | cons c cs ih =>
    have hrest : Balanced (decide (index + 1 ∈ listed ∧ index ∈ listed))
        (parts listed (index + 1) cs) := by
      refine ih (by simp) fun i hi => ?_
      have hlt := hbound i hi
      rw [List.length_cons] at hlt
      omega
    exact hrest.partsAt c hinside (by simp)

/-! ### Highlighting -/

/-- The listed indices from an index on, in their order. -/
structure Ahead (listed : List Nat) (index : Nat) (indices : List Nat) : Prop where
  sorted : indices.Pairwise (· < ·)
  mem_iff : ∀ i, i ∈ indices ↔ i ∈ listed ∧ index ≤ i

namespace Ahead

variable {indices : List Nat}

theorem start (h : listed.Pairwise (· < ·)) : Ahead listed 0 listed :=
  ⟨h, fun _ => (and_iff_left (Nat.zero_le _)).symm⟩

/-- The first index ahead is the current one just if that is listed. -/
theorem head?_eq_iff (h : Ahead listed index indices) :
    indices.head? = some index ↔ index ∈ listed := by
  refine ⟨fun hhead => ((h.mem_iff index).mp (List.mem_of_mem_head? hhead)).1, fun hmem => ?_⟩
  have hahead : index ∈ indices := (h.mem_iff index).mpr ⟨hmem, Nat.le_refl _⟩
  cases indices with
  | nil => cases hahead
  | cons first rest =>
    have hle : index ≤ first := ((h.mem_iff first).mp (.head _)).2
    rcases List.mem_cons.mp hahead with rfl | hrest
    · rfl
    · have hlt : first < index := List.rel_of_pairwise_cons h.sorted hrest
      omega

/-- An index that is listed is taken off. -/
theorem tail (h : Ahead listed index indices) (hmem : index ∈ listed) :
    Ahead listed (index + 1) indices.tail := by
  have hhead := h.head?_eq_iff.mpr hmem
  cases indices with
  | nil => cases hhead
  | cons first rest =>
    cases hhead
    refine ⟨h.sorted.of_cons, fun i => ⟨fun hi => ?_, fun ⟨hi, hle⟩ => ?_⟩⟩
    · exact ⟨((h.mem_iff i).mp (.tail _ hi)).1, List.rel_of_pairwise_cons h.sorted hi⟩
    · rcases List.mem_cons.mp ((h.mem_iff i).mpr ⟨hi, by omega⟩) with rfl | hrest
      · omega
      · exact hrest

/-- An index that is not listed is passed over. -/
theorem pass (h : Ahead listed index indices) (hmem : index ∉ listed) :
    Ahead listed (index + 1) indices := by
  refine ⟨h.sorted, fun i => (h.mem_iff i).trans (and_congr_right fun hi => ?_)⟩
  have hne : i ≠ index := fun heq => hmem (heq ▸ hi)
  omega

theorem next (h : Ahead listed index indices) :
    Ahead listed (index + 1) (if index ∈ listed then indices.tail else indices) := by
  split_ifs with hmem
  · exact h.tail hmem
  · exact h.pass hmem

end Ahead

/-- **The run lemma.**  Highlighting writes the marks beside the characters.  If the character before was
matched and this one is not, it first closes the run that has ended there. -/
theorem highlightFrom_eq {opening closing : List Char} {inside : Bool} {indices : List Nat}
    (hahead : Ahead listed index indices) (hinside : inside ↔ Follows listed index)
    (hbound : ∀ i ∈ listed, i < index + cs.length) :
    highlightFrom opening closing index inside indices cs =
      (if Follows listed index ∧ index ∉ listed then closing else []) ++
        (parts listed index cs).flatMap (Part.text opening closing) := by
  induction cs generalizing index inside indices with
  | nil =>
    have hnone : index ∉ listed := fun hmem => Nat.lt_irrefl index (hbound index hmem)
    simp [highlightFrom, parts, hnone, hinside]
  | cons c cs ih =>
    have hhit : (indices.head? == some index) = decide (index ∈ listed) := by
      rw [Bool.eq_iff_iff, beq_iff_eq, decide_eq_true_iff]
      exact hahead.head?_eq_iff
    have hinside' : decide (index ∈ listed) ↔ Follows listed (index + 1) := by simp
    have hrest := ih hahead.next hinside' fun i hi => by
      have hlt := hbound i hi
      rw [List.length_cons] at hlt
      omega
    obtain rfl : inside = decide (Follows listed index) := by
      rw [Bool.eq_iff_iff, hinside, decide_eq_true_iff]
    rw [parts, List.flatMap_append, flatMap_partsAt, highlightFrom]
    simp only [hhit, decide_eq_true_eq, hrest, follows_succ_iff]
    by_cases hmem : index ∈ listed <;> by_cases hfollows : Follows listed index <;>
      simp [StartsRun, EndsRun, hmem, hfollows]

/-- Without marks nothing is added, whatever the indices are. -/
theorem highlightFrom_unmarked (index : Nat) (inside : Bool) (indices : List Nat) (cs : List Char) :
    highlightFrom [] [] index inside indices cs = cs := by
  induction cs generalizing index inside indices with
  | nil => simp [highlightFrom]
  | cons c cs ih => simp [highlightFrom, ih]

/-- **Highlighting marks the runs and nothing else.**  For indices in their order that lie within the
candidate the marks stand beside the first and the last character of every run; the other characters stay
as they are, and the marks alternate.  If the marks are empty, the candidate comes out for all indices. -/
theorem highlight_runs (candidate opening closing : String) :
    (∀ indices, indices.Pairwise (· < ·) → (∀ i ∈ indices, i < candidate.length) →
      highlight candidate indices opening closing =
          String.ofList ((parts indices 0 candidate.toList).flatMap
            (Part.text opening.toList closing.toList)) ∧
        (parts indices 0 candidate.toList).filterMap Part.char? = candidate.toList ∧
        Balanced false (parts indices 0 candidate.toList)) ∧
    ∀ indices, highlight candidate indices "" "" = candidate := by
  refine ⟨fun indices hsorted hbound => ?_, fun indices => ?_⟩
  · have hbound' : ∀ i ∈ indices, i < 0 + candidate.toList.length := by
      rwa [Nat.zero_add, String.length_toList]
    refine ⟨?_, filterMap_parts indices 0 candidate.toList, ?_⟩
    · rw [highlight, highlightFrom_eq (.start hsorted) (by simp) hbound', if_neg (by simp),
        List.nil_append]
    · exact balanced_parts (by simp) hbound'
  · rw [highlight]
    exact (congrArg String.ofList (highlightFrom_unmarked 0 false indices _)).trans
      String.ofList_toList

/-- Two runs, one of which ends with the candidate. -/
theorem highlight_runs_field :
    [0, 1, 3, 4].Pairwise (· < ·) ∧ (∀ i ∈ [0, 1, 3, 4], i < "intFi".length) ∧
      highlight "intFi" [0, 1, 3, 4] "<em>" "</em>" = "<em>in</em>t<em>Fi</em>" ∧
      Balanced false [.opening, .char 'i', .char 'n', .closing, .char 't', .opening, .char 'F',
        .char 'i', .closing] := by
  have hsorted : [0, 1, 3, 4].Pairwise (· < ·) := by decide
  have hbound : ∀ i ∈ [0, 1, 3, 4], i < "intFi".length := by decide
  obtain ⟨hhighlight, -, hbalanced⟩ :=
    (highlight_runs "intFi" "<em>" "</em>").1 [0, 1, 3, 4] hsorted hbound
  exact ⟨hsorted, hbound, hhighlight, hbalanced⟩

end FilterLang.Fuzzy
