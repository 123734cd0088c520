import FilterLang.Location

/-!
# The order of places

* `Location.Before` — the order of places in a text: by line, and by column within a line.
* `before_advance` — reading characters leads to a later place.
* `column_advance` — in a line, reading moves on by a column for each character.
* `line_advance` — reading moves on by a line for each line feed.
* `advance_of_notMem` — the place behind characters of one line.
-/

namespace FilterLang.Location

/-- One place stands before another. -/
def Before (a b : Location) : Prop :=
  a.line < b.line ∨ a.line = b.line ∧ a.column < b.column

variable {a b c : Location}

theorem Before.trans (hab : a.Before b) (hbc : b.Before c) : a.Before c := by
  unfold Before at *
  omega

theorem Before.irrefl (a : Location) : ¬ a.Before a := by
  unfold Before
  omega

theorem before_after (here : Location) (d : Char) : here.Before (here.after d) := by
  unfold after Before
  split
  · exact .inl (Nat.lt_succ_self _)
  · exact .inr ⟨rfl, Nat.lt_succ_self _⟩

/-- Reading leads to the same place or to a later one. -/
theorem eq_or_before_advance (here : Location) (cs : List Char) :
    here = here.advance cs ∨ here.Before (here.advance cs) := by
  induction cs generalizing here with
  | nil => exact .inl rfl
  | cons d ds ih =>
    rw [advance_cons]
    rcases ih (here.after d) with h | h
    · exact .inr (h ▸ before_after here d)
    · exact .inr ((before_after here d).trans h)

/-- Reading at least one character leads to a later place. -/
theorem before_advance (here : Location) {cs : List Char} (h : cs ≠ []) :
    here.Before (here.advance cs) := by
  cases cs with
  | nil => exact absurd rfl h
  | cons d ds =>
    rw [advance_cons]
    rcases eq_or_before_advance (here.after d) ds with h | h
    · exact h ▸ before_after here d
    · exact (before_after here d).trans h

theorem column_advance (here : Location) {cs : List Char} (h : '\n' ∉ cs) :
    (here.advance cs).column = here.column + cs.length := by
  induction cs generalizing here with
  | nil => rfl
  | cons d ds ih =>
    rw [List.mem_cons, not_or] at h
    have hafter : (here.after d).column = here.column + 1 := by
      rw [after, if_neg (Ne.symm h.1)]
    rw [advance_cons, ih _ h.2, hafter, List.length_cons]
    omega

/-- Each line feed opens a line. -/
theorem line_advance (here : Location) (cs : List Char) :
    (here.advance cs).line = here.line + cs.count '\n' := by
  induction cs generalizing here with
  | nil => rfl
  | cons c cs ih =>
    rw [advance_cons, ih, List.count_cons, after]
    by_cases hc : c = '\n'
    · rw [if_pos hc, if_pos (beq_iff_eq.mpr hc), Nat.add_right_comm, Nat.add_assoc]
    · rw [if_neg hc, if_neg (by simpa using hc)]
      rfl

theorem advance_of_notMem (here : Location) {cs : List Char} (h : '\n' ∉ cs) :
    here.advance cs = ⟨here.line, here.column + cs.length⟩ := by
  have hline := here.line_advance cs
  rw [List.count_eq_zero.mpr h, Nat.add_zero] at hline
  rw [← here.column_advance h, ← hline]

end FilterLang.Location
