import FilterLang.Proofs.Scanner.Tiling

/-!
# How many steps a text takes

* `run_add` — a run goes on from where a shorter one has stopped.
* `measure_run_lt` — every step of a run lowers the measure, so that it is lower at a later visit of
  a phase than at an earlier one.
* `stable_suffix` — what is unread is the end of the text.
* `offset_after_lt` — from one visit of the root phase to a later one the offset increases.
* `after_finishes` — the bound for the number of steps, with this progress.
-/

namespace FilterLang.Scanner

variable {phase : Phase} {s : Scanner} {source : List Char}

/-- The machine after so many steps over a text, or at its end if there are no more. -/
def after (source : List Char) (k : Nat) : Phase × Scanner := run k .root { rest := source }

/-- How many characters of a text have been read. -/
def offset (source : List Char) (s : Scanner) : Nat := source.length - s.rest.length

/-- A run goes on from where a shorter one has stopped. -/
theorem run_add (m n : Nat) (phase : Phase) (s : Scanner) :
    run (m + n) phase s = run n (run m phase s).1 (run m phase s).2 := by
  induction m generalizing phase s with
  | zero => rw [Nat.zero_add, run]
  | succ m ih =>
    by_cases hp : phase = .done
    · rw [hp, run_done, run_done, run_done]
    · rw [Nat.succ_add, run_succ _ s hp, run_succ _ s hp, ih]

/-- A run leads from a ready phase to a ready phase, and never away from the end. -/
theorem run_nearer (h : Ready phase s) (n : Nat) :
    Ready (run n phase s).1 (run n phase s).2 ∧
      measure (run n phase s).1 (run n phase s).2 ≤ measure phase s := by
  induction n generalizing phase s with
  | zero => exact ⟨h, Nat.le_refl _⟩
  | succ n ih =>
    by_cases hp : phase = .done
    · subst hp
      rw [run_done]
      exact ⟨h, Nat.le_refl _⟩
    · obtain ⟨hready, hlt⟩ := step_nearer h hp
      rw [run_succ n s hp]
      exact ⟨(ih hready).1, Nat.le_trans (ih hready).2 (Nat.le_of_lt hlt)⟩

/-- **Each step brings the end nearer**, and so do the steps of a run together. -/
theorem measure_run_lt (h : Ready phase s) (hp : phase ≠ .done) (n : Nat) :
    measure (run (n + 1) phase s).1 (run (n + 1) phase s).2 < measure phase s := by
  obtain ⟨hready, hlt⟩ := step_nearer h hp
  rw [run_succ n s hp]
  exact Nat.lt_of_le_of_lt (run_nearer hready n).2 hlt

/-- What is unread is the end of the text. -/
theorem stable_suffix (source : List Char) : Stable fun s => s.rest <:+ source where
  read h n := (List.drop_suffix n _).trans h
  noteAt h _ _ := h
  emitValue h _ _ _ := h
  skip _ h _ := h

theorem suffix_run (h : Ready phase s) (hs : s.rest <:+ source) (n : Nat) :
    (run n phase s).2.rest <:+ source := by
  induction n generalizing phase s with
  | zero => exact hs
  | succ n ih =>
    by_cases hp : phase = .done
    · rw [hp, run_done]
      exact hs
    · have hkept := (stable_suffix source).step h hp ((kept_of_ne_done hp).mpr hs)
      rw [run_succ n s hp]
      exact ih (step_nearer h hp).1 (hkept.of_emit fun _ ht => ht)

/-- The characters that are left are those behind the offset. -/
theorem rest_after (source : List Char) (k : Nat) :
    (after source k).2.rest = source.drop (offset source (after source k).2) := by
  have hready : Ready .root { rest := source } := rfl
  exact List.suffix_iff_eq_drop.mp (suffix_run hready List.suffix_rfl k)

/-- **From one visit of the root phase to a later one the offset increases.** -/
theorem offset_after_lt {i j : Nat} (hij : i < j) (hi : (after source i).1 = .root)
    (hj : (after source j).1 = .root) :
    offset source (after source i).2 < offset source (after source j).2 := by
  obtain ⟨n, rfl⟩ := Nat.exists_eq_add_of_lt hij
  have hready : Ready .root { rest := source } := rfl
  have hroot : Ready .root (after source i).2 := hi ▸ (run_nearer hready i).1
  have hlater : after source (i + n + 1) = run (n + 1) (after source i).1 (after source i).2 := by
    rw [after, Nat.add_assoc, run_add]
    rfl
  have hlt := measure_run_lt hroot nofun n
  rw [← hi, ← hlater, hj, hi, measure_root, measure_root] at hlt
  have hle : (after source i).2.rest.length ≤ source.length := by
    rw [rest_after, List.length_drop]
    exact Nat.sub_le _ _
  rw [offset, offset]
  omega

/-- **A text of `n` characters takes at most `2 * n + 1` steps.**  Within them the machine is done,
and what it has found by then is the scan of the text.  After any number of steps the characters
that are left are those behind the offset, and from one visit of the root phase to a later one the
offset increases. -/
theorem after_finishes (source : String) :
    (∃ k ≤ 2 * source.length + 1, (after source.toList k).1 = .done ∧
      scan source =
        ⟨(after source.toList k).2.tokens.reverse, (after source.toList k).2.fault⟩) ∧
    (∀ k, (after source.toList k).2.rest =
      source.toList.drop (offset source.toList (after source.toList k).2)) ∧
    ∀ i j, i < j → (after source.toList i).1 = .root → (after source.toList j).1 = .root →
      offset source.toList (after source.toList i).2 <
        offset source.toList (after source.toList j).2 := by
  have hready : Ready .root { rest := source.toList } := rfl
  have hdone : after source.toList (2 * source.length + 1) = (.done, finish .root _) :=
    run_eq_finish hready (Nat.le_refl _)
  exact ⟨⟨_, Nat.le_refl _, congrArg Prod.fst hdone, rfl⟩, rest_after _,
    fun _ _ hij hi hj => offset_after_lt hij hi hj⟩

end FilterLang.Scanner
