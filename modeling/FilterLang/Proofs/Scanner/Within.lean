import FilterLang.Proofs.Scanner.Quoted

/-!
# Faults stand in the text

Tokens stand where their spans start, so they stand in the text.  A fault has a place of its own, which
may lie inside of a token, but it too is reached by reading characters of the text.

* `Location.Within` — the places that are reached by reading a text from some place on.
* `within_readFrom` — a faulty escape is at fault within the quoted text.
* `InView` and `fault_step_cases` — a step notes a fault within what it has in front of it.
* `within_scan` — so the fault of a text stands within it, and so do its tokens (`within_token`).
-/

namespace FilterLang

open Text

namespace Location

variable {here there : Location} {cs ds : List Char}

/-- The place is reached by reading some of the characters `cs`, which start at `here`. -/
def Within (here : Location) (cs : List Char) (there : Location) : Prop :=
  ∃ front, front <+: cs ∧ there = here.advance front

theorem Within.refl (here : Location) (cs : List Char) : here.Within cs here :=
  ⟨[], List.nil_prefix, rfl⟩

/-- What lies within a text lies within a longer one that starts earlier. -/
theorem Within.behind (cs : List Char) (h : (here.advance cs).Within ds there) :
    here.Within (cs ++ ds) there := by
  obtain ⟨front, hfront, rfl⟩ := h
  exact ⟨cs ++ front, (List.prefix_append_right_inj cs).mpr hfront, (advance_append here cs front).symm⟩

/-- Where there is no line feed, every place lies in the line in which the text starts. -/
theorem Within.line_eq (h : here.Within cs there) (hline : '\n' ∉ cs) : there.line = here.line := by
  obtain ⟨front, hfront, rfl⟩ := h
  rw [line_advance, List.count_eq_zero.mpr fun hmem => hline (hfront.subset hmem), Nat.add_zero]

end Location

/-! ### Quoted texts -/

/-- A faulty escape is at fault within the text that is read. -/
theorem within_readFrom {quote : Char} {here there : Location} {skip : Nat} {cs : List Char}
    (h : there ∈ (Quoted.readFrom quote here skip cs).fault) : here.Within cs there := by
  fun_induction Quoted.readFrom quote here skip cs with
  | case1 => cases h
  | case2 here skip c cs tail ih => exact .behind [c] (ih h)
  | case3 => cases h
  | case4 here c cs _ _ escape inside tail ih =>
    rcases Option.or_eq_some_iff.mp h with h | ⟨-, h⟩
    · obtain ⟨n, -, rfl⟩ := Option.map_eq_some_iff.mp h
      exact .behind [c] ⟨cs.take n, List.take_prefix n cs, rfl⟩
    · exact .behind [c] (ih h)
  | case5 => cases h
  | case6 here c cs _ _ _ tail ih => exact .behind [c] (ih h)

namespace Scanner

variable {s : Scanner} {phase : Phase} {fault : Located ScanFault} {c : Char} {cs : List Char}

/-! ### What a step notes -/

/-- The place lies within what the scanner is reading or has not read yet. -/
def InView (s : Scanner) (there : Location) : Prop := s.start.Within (s.lexeme ++ s.rest) there

theorem inView_of_eq_start {there : Location} (h : there = s.start) : s.InView there :=
  h ▸ .refl _ _

/-- A fault that is there behind a note was there in front of it, or is the noted one. -/
theorem mem_fault_note {found : ScanFault} (h : fault ∈ (s.note found).fault) :
    fault ∈ s.fault ∨ fault.location = s.start := by
  rcases Option.or_eq_some_iff.mp h with h | ⟨-, h⟩
  · exact .inl h
  · cases h
    exact .inr rfl

@[simp]
theorem readOne_fault (p : Char → Bool) : (s.readOne p).fault = s.fault := by
  obtain ⟨n, hn⟩ := s.readOne_eq_read p
  rw [hn, read_fault]

@[simp]
theorem readNumber_start : s.readNumber.1.start = s.start := by
  obtain ⟨n, hn⟩ := s.readNumber_eq_read
  rw [hn, read_start]

@[simp]
theorem readNumber_fault : s.readNumber.1.fault = s.fault := by
  obtain ⟨n, hn⟩ := s.readNumber_eq_read
  rw [hn, read_fault]

@[simp]
theorem stepNot_fault (s : Scanner) : s.stepNot.fault = s.fault := by
  unfold stepNot
  dsimp only
  split_ifs <;> rfl

/-- At a quote there is a faulty escape, or the quote is not closed. -/
theorem fault_readQuoted (hlexeme : s.lexeme = []) (hhere : s.here = s.start) (hrest : s.rest = c :: cs)
    {quote : Char} (h : fault ∈ (s.readQuoted quote).fault) :
    fault ∈ s.fault ∨ s.InView fault.location := by
  rw [readQuoted_eq_of_cons hlexeme hrest] at h
  rcases Option.or_eq_some_iff.mp h with h | ⟨-, h⟩
  · exact .inl h
  refine .inr ?_
  rcases Option.or_eq_some_iff.mp h with h | ⟨-, h⟩
  · obtain ⟨there, hthere, rfl⟩ := Option.map_eq_some_iff.mp h
    have hwithin : s.start.Within ([c] ++ cs) there :=
      .behind [c] (hhere ▸ within_readFrom hthere)
    rwa [InView, hlexeme, hrest]
  · split_ifs at h
    cases h
    exact inView_of_eq_start rfl

/-- Nothing but a quote, a backquote and a stray character gives a fault at once. -/
theorem fault_stepRoot (hlexeme : s.lexeme = []) (hhere : s.here = s.start) (hrest : s.rest = c :: cs)
    (h : fault ∈ (s.stepRoot c).2.fault) : fault ∈ s.fault ∨ s.InView fault.location := by
  have hmove := s.stepRoot_move c
  generalize s.stepRoot c = next at hmove h
  cases hmove with
  | quoted => exact fault_readQuoted hlexeme hhere hrest h
  | raw =>
    unfold readRaw at h
    dsimp only at h
    split_ifs at h
    · exact .inl h
    · exact (mem_fault_note h).imp_right inView_of_eq_start
  | stray => exact (mem_fault_note h).imp_right inView_of_eq_start
  | pair | double => exact .inl (by rwa [emit_fault, readOne_fault] at h)
  | _ => exact .inl h

/-- **The step lemma.**  A step notes a fault within what it has in front of it. -/
theorem fault_step_cases (hr : Ready phase s) (hhere : s.here = s.start.advance s.lexeme)
    (h : fault ∈ (s.step phase).2.fault) : fault ∈ s.fault ∨ s.InView fault.location := by
  cases phase with
  | root =>
    have hlexeme : s.lexeme = [] := hr
    rw [hlexeme, Location.advance_nil] at hhere
    cases hrest : s.rest with
    | nil =>
      simp only [step, hrest] at h
      exact .inl h
    | cons c cs =>
      simp only [step, hrest] at h
      exact fault_stepRoot hlexeme hhere hrest h
  | number =>
    simp only [step] at h
    split_ifs at h
    · exact .inl (by rwa [emit_fault, readNumber_fault] at h)
    · -- the number is read before the note is made, but the note is at its start
      rw [emit_fault] at h
      have hnote := mem_fault_note h
      rw [readNumber_fault, readNumber_start] at hnote
      exact hnote.imp_right inView_of_eq_start
  | dot =>
    simp only [step] at h
    split_ifs at h
    · exact .inl h
    · exact .inl (by rwa [emit_fault, readOne_fault] at h)
  | identifier =>
    simp only [step] at h
    split_ifs at h <;> exact .inl h
  | not => exact .inl (by rwa [step, stepNot_fault] at h)
  | questionMark => exact .inl (by rwa [step, emit_fault, readOne_fault] at h)
  | slash =>
    simp only [step] at h
    split at h <;> exact .inl h
  | lineComment | done => exact .inl h
  | blockComment =>
    simp only [step] at h
    split_ifs at h
    · exact .inl h
    · rw [skip_fault] at h
      exact (mem_fault_note h).imp_right inView_of_eq_start
  | pointer =>
    simp only [step] at h
    split_ifs at h
    · exact .inl (by rwa [readWhile, read_fault, emit_fault, readOne_fault] at h)
    · exact .inl (by rwa [emit_fault, readWhile, read_fault, emit_fault, readOne_fault] at h)

/-! ### The text as a whole -/

/-- What a scanner has in view lies within its text. -/
theorem Cut.within {source : List Char} {segments : List Segment} (h : Cut source segments s)
    {there : Location} (hthere : s.InView there) : Location.origin.Within source there := by
  rw [InView, h.start] at hthere
  have hwithin := hthere.behind _
  rwa [← List.append_assoc, h.text] at hwithin

/-- **The run lemma.**  The fault of a text stands within it. -/
theorem within_scan {source : String} (h : fault ∈ (scan source).fault) :
    Location.origin.Within source.toList fault.location := by
  have hready : Ready .root { rest := source.toList } := rfl
  let motive (phase : Phase) (s : Scanner) : Prop := Kept (Tiled source.toList) phase s ∧
    ∀ fault ∈ s.fault, Location.origin.Within source.toList fault.location
  have hinit : motive .root { rest := source.toList } := ⟨⟨[], cut_init _⟩, nofun⟩
  have hend := finish_induct (motive := motive) (fun phase s hr hp ⟨htiled, hwithin⟩ => ?_) hready hinit
  · rw [scan, scanChars_eq] at h
    exact hend.2.2 fault h
  · refine ⟨(stable_tiled _).step hr hp htiled, fun found hfound => ?_⟩
    obtain ⟨segments, hcut⟩ := (kept_of_ne_done hp).mp htiled
    rcases fault_step_cases hr hcut.here hfound with hfound | hview
    · exact hwithin found hfound
    · exact hcut.within hview

/-- The tokens of placed pieces stand within the pieces. -/
theorem within_of_placed {here : Location} {segments : List Segment} (h : Placed here segments)
    {token : Token} (htoken : token ∈ segments.filterMap Segment.token?) :
    here.Within (spans segments) token.location := by
  induction segments generalizing here with
  | nil => cases htoken
  | cons segment segments ih =>
    obtain ⟨hstands, hplaced⟩ := h
    obtain ⟨piece, hpiece, hsome⟩ := List.mem_filterMap.mp htoken
    rcases List.mem_cons.mp hpiece with rfl | hpiece
    · cases piece with
      | token found span =>
        cases hsome
        have hplace : token.location = here := hstands
        exact hplace ▸ .refl _ _
      | comment | stray => cases hsome
    · exact (ih hplaced (List.mem_filterMap.mpr ⟨piece, hpiece, hsome⟩)).behind _

/-- Every token of a text stands within it, the end token behind all of it. -/
theorem within_token {source : String} {token : Token} (h : token ∈ (scan source).tokens) :
    Location.origin.Within source.toList token.location := by
  obtain ⟨segments, htiling⟩ := scan_tiles source
  rw [htiling.tokens, List.mem_append, List.mem_singleton] at h
  rcases h with h | rfl
  · exact htiling.text ▸ within_of_placed htiling.placed h
  · exact ⟨source.toList, List.prefix_rfl, rfl⟩

end Scanner

end FilterLang
