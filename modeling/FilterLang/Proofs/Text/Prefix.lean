import FilterLang.Text.Quoted
import Mathlib.Data.List.TakeWhile
import Mathlib.Tactic.SplitIfs

/-!
# Reading with more text behind

What is read at the head of a text is the same when more text is put behind it, as long as it ends
within the first text; and if it does not, all of the first text is read both times.

* `SameReach` — this relation between two lengths.
* `sameReach_takeWhile` — a run of characters.
* `Escape.read_append`, `Quoted.readFrom_append` — escapes and quoted texts.
-/

namespace FilterLang.Text

/-- What is read of a text of `m` characters, and of that text with more behind it: the same
characters, or both times all of the first text. -/
def SameReach (m n n' : Nat) : Prop := n' = n ∧ n ≤ m ∨ m ≤ n ∧ m ≤ n'

theorem sameReach_takeWhile (p : Char → Bool) (cs q : List Char) :
    SameReach cs.length (cs.takeWhile p).length ((cs ++ q).takeWhile p).length := by
  have hle := (List.takeWhile_prefix p (l := cs)).length_le
  rw [List.takeWhile_append]
  split_ifs with hall
  · rw [List.length_append]
    exact .inr ⟨by omega, by omega⟩
  · exact .inl ⟨rfl, hle⟩

/-- Characters that are followed by others are the same ones in front of more text. -/
theorem takeWhile_take_append {p : Char → Bool} {cs : List Char} {n : Nat} (q : List Char)
    (h : ((cs.take n).takeWhile p).length < cs.length) :
    ((cs ++ q).take n).takeWhile p = (cs.take n).takeWhile p := by
  rw [List.take_append]
  rcases Nat.le_total n cs.length with hn | hn
  · rw [Nat.sub_eq_zero_of_le hn, List.take_zero, List.append_nil]
  · rw [List.take_of_length_le hn] at h ⊢
    rw [List.takeWhile_append, if_neg (by omega)]

theorem length_takeWhile_take_le (p : Char → Bool) (n : Nat) (cs q : List Char) :
    ((cs.take n).takeWhile p).length ≤ (((cs ++ q).take n).takeWhile p).length := by
  rw [List.take_append, List.takeWhile_append]
  have hle := (List.takeWhile_prefix p (l := cs.take n)).length_le
  split_ifs with hall
  · rw [List.length_append]
    omega
  · exact Nat.le_refl _

namespace Escape

variable {quote : Char} {cs : List Char}

theorem length_ofCode (lead base most : Nat) (exact : Bool) (cs : List Char) :
    (ofCode lead base most exact cs).length
      = lead + ((cs.take most).takeWhile (isDigitOf base)).length := by
  unfold ofCode
  dsimp only
  split <;> rfl

theorem fault_ofCode {lead base most n : Nat} {exact : Bool}
    (h : (ofCode lead base most exact cs).fault = some n) :
    n = (ofCode lead base most exact cs).length := by
  unfold ofCode at h ⊢
  dsimp only at h ⊢
  split at h
  · cases h
  · cases h
    rfl

theorem ofCode_append {lead base most : Nat} {exact : Bool} (q : List Char)
    (h : (ofCode lead base most exact cs).length < lead + cs.length) :
    ofCode lead base most exact (cs ++ q) = ofCode lead base most exact cs := by
  rw [length_ofCode] at h
  rw [ofCode, takeWhile_take_append q (by omega)]
  rfl

theorem length_ofCode_le (lead base most : Nat) (exact : Bool) (cs q : List Char) :
    (ofCode lead base most exact cs).length ≤ (ofCode lead base most exact (cs ++ q)).length := by
  rw [length_ofCode, length_ofCode]
  exact Nat.add_le_add_left (length_takeWhile_take_le _ _ _ _) lead

/-- An escape is told by its first character: it takes no other one, or it is given by a code. -/
theorem read_cons (quote c : Char) :
    (∃ e : Escape, e.length = 1 ∧ (∀ n, e.fault = some n → n ≤ 1) ∧
      ∀ rest, read quote (c :: rest) = e) ∨
    ∃ lead base most exact, lead ≤ 1 ∧
      ∀ rest, read quote (c :: rest) = ofCode lead base most exact ((c :: rest).drop lead) := by
  unfold read
  dsimp only
  cases named? c with
  | some d => exact .inl ⟨plain d 1, rfl, nofun, fun _ => rfl⟩
  | none =>
    dsimp only
    split_ifs
    · exact .inl ⟨plain c 1, rfl, nofun, fun _ => rfl⟩
    · exact .inr ⟨0, 8, 3, false, Nat.zero_le _, fun _ => rfl⟩
    · exact .inr ⟨1, 16, 2, true, Nat.le_refl _, fun _ => rfl⟩
    · exact .inr ⟨1, 16, 4, true, Nat.le_refl _, fun _ => rfl⟩
    · exact .inr ⟨1, 16, 8, true, Nat.le_refl _, fun _ => rfl⟩
    · refine .inl ⟨⟨none, 1, some 0⟩, rfl, ?_, fun _ => rfl⟩
      rintro n ⟨⟩
      exact Nat.zero_le _

/-- An escape is faulty within what it takes. -/
theorem fault_read_le {n : Nat} (h : (read quote cs).fault = some n) :
    n ≤ (read quote cs).length := by
  cases cs with
  | nil =>
    cases h
    exact Nat.le_refl _
  | cons c rest =>
    rcases read_cons quote c with ⟨e, hlength, hfault, hread⟩ | ⟨lead, base, most, all, -, hread⟩
    · rw [hread] at h ⊢
      rw [hlength]
      exact hfault n h
    · rw [hread] at h ⊢
      exact Nat.le_of_eq (fault_ofCode h)

/-- An escape with something behind it is the same one in front of more text. -/
theorem read_append (q : List Char) (h : (read quote cs).length < cs.length) :
    read quote (cs ++ q) = read quote cs := by
  cases cs with
  | nil => cases h
  | cons c rest =>
    rw [List.cons_append]
    rcases read_cons quote c with ⟨e, -, -, hread⟩ | ⟨lead, base, most, exact, hlead, hread⟩
    · rw [hread, hread]
    · have hlong : lead ≤ (c :: rest).length := hlead.trans (Nat.succ_le_succ (Nat.zero_le _))
      rw [hread] at h
      rw [hread, hread, ← List.cons_append, List.drop_append_of_le_length hlong]
      refine ofCode_append q ?_
      rw [List.length_drop]
      omega

/-- In front of more text an escape takes no less. -/
theorem length_read_le (quote : Char) (cs q : List Char) :
    (read quote cs).length ≤ (read quote (cs ++ q)).length := by
  cases cs with
  | nil => exact Nat.zero_le _
  | cons c rest =>
    rw [List.cons_append]
    rcases read_cons quote c with ⟨e, -, -, hread⟩ | ⟨lead, base, most, exact, hlead, hread⟩
    · rw [hread, hread]
    · have hlong : lead ≤ (c :: rest).length := hlead.trans (Nat.succ_le_succ (Nat.zero_le _))
      rw [hread, hread, ← List.cons_append, List.drop_append_of_le_length hlong]
      exact length_ofCode_le _ _ _ _ _ _

end Escape

namespace Quoted

variable {quote : Char} {cs : List Char}

/-- What an escape takes is read. -/
theorem min_le_length_readFrom (quote : Char) (here : Location) (skip : Nat) (cs : List Char) :
    min skip cs.length ≤ (readFrom quote here skip cs).length := by
  induction cs generalizing here skip with
  | nil => simp
  | cons c cs ih =>
    cases skip with
    | zero => simp
    | succ skip =>
      rw [readFrom, List.length_cons]
      have := ih (here.after c) skip
      dsimp only
      omega

/-- What an escape takes does not close a text. -/
theorem closed_readFrom_of_le (here : Location) {skip : Nat} (h : cs.length ≤ skip) :
    (readFrom quote here skip cs).closed = false := by
  induction cs generalizing here skip with
  | nil => rw [readFrom]
  | cons c cs ih =>
    obtain ⟨skip, rfl⟩ := Nat.exists_eq_add_of_le' (Nat.le_trans (Nat.le_add_left 1 _) h)
    exact ih (here.after c) (Nat.le_of_succ_le_succ h)

/-- **A closed text is the same one in front of more text**, and one that is not closed takes
everything, unless it ends in front of a line feed. -/
theorem readFrom_append (quote : Char) (here : Location) (skip : Nat) (cs q : List Char) :
    (readFrom quote here skip (cs ++ q) = readFrom quote here skip cs ∧
      (readFrom quote here skip cs).length ≤ cs.length) ∨
    ((readFrom quote here skip cs).closed = false ∧
      cs.length ≤ (readFrom quote here skip cs).length ∧
      cs.length ≤ (readFrom quote here skip (cs ++ q)).length) := by
  induction cs generalizing here skip with
  | nil => exact .inr ⟨by rw [readFrom], Nat.zero_le _, Nat.zero_le _⟩
  | cons c cs ih =>
    rw [List.cons_append]
    cases skip with
    | succ skip =>
      rcases ih (here.after c) skip with ⟨heq, hle⟩ | ⟨hopen, hle, hle'⟩
      · refine .inl ⟨?_, ?_⟩
        · rw [readFrom, readFrom, heq]
        · exact Nat.succ_le_succ hle
      · exact .inr ⟨hopen, Nat.succ_le_succ hle, Nat.succ_le_succ hle'⟩
    | zero =>
      by_cases hfeed : c == '\n'
      · simp only [readFrom, if_pos hfeed]
        exact .inl ⟨trivial, Nat.zero_le _⟩
      simp only [readFrom, if_neg hfeed]
      by_cases hbackslash : c == '\\'
      · simp only [if_pos hbackslash]
        rcases Nat.lt_or_ge (Escape.read quote cs).length cs.length with hlt | hge
        · rw [Escape.read_append q hlt]
          rcases ih (here.after c) _ with ⟨heq, hle⟩ | ⟨hopen, hle, hle'⟩
          · refine .inl ⟨?_, Nat.succ_le_succ hle⟩
            rw [heq]
            cases hfault : (Escape.read quote cs).fault with
            | none => rfl
            | some n =>
              have := Escape.fault_read_le hfault
              simp only [Option.map_some]
              rw [List.take_append_of_le_length (by omega)]
          · exact .inr ⟨hopen, Nat.succ_le_succ hle, Nat.succ_le_succ hle'⟩
        · -- the escape goes to the end of the text, and with more text behind it at least as far
          have hge' := Escape.length_read_le quote cs q
          have h := min_le_length_readFrom quote (here.after c) (Escape.read quote cs).length cs
          have h' := min_le_length_readFrom quote (here.after c)
            (Escape.read quote (cs ++ q)).length (cs ++ q)
          rw [List.length_append] at h'
          exact .inr ⟨closed_readFrom_of_le _ hge, Nat.succ_le_succ (by omega),
            Nat.succ_le_succ (by omega)⟩
      · simp only [if_neg hbackslash]
        by_cases hquote : c == quote
        · simp only [if_pos hquote]
          exact .inl ⟨trivial, Nat.succ_le_succ (Nat.zero_le _)⟩
        · simp only [if_neg hquote]
          rcases ih (here.after c) 0 with ⟨heq, hle⟩ | ⟨hopen, hle, hle'⟩
          · exact .inl ⟨by rw [heq], Nat.succ_le_succ hle⟩
          · exact .inr ⟨hopen, Nat.succ_le_succ hle, Nat.succ_le_succ hle'⟩

end Quoted

end FilterLang.Text
