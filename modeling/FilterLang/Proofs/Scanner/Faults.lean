import FilterLang.Proofs.Scanner.Tiling

/-!
# Where the scanner is at fault

Some faults spoil a token, which is made all the same: a number that runs into a word, and a text
without its closing quote.  The others are about a character or a comment that gives no token, or
about an escape inside of one.

* `ScanFault.spoiled?` — the kind of the token that a fault spoils.
* `Accounted` — a fault that spoils a token stands where that token starts.
* `accounted_step` and `spoilsOneOf_scan` — a step keeps this, so it holds of every text.
* `unmarked_scan` — the scanner itself puts no message on a token.
-/

namespace FilterLang

/-- The kind of the token that a fault spoils, if it spoils a whole one. -/
def ScanFault.spoiled? : ScanFault → Option TokenKind
  | badNumberSyntax _ => some .number
  | unterminatedLiteral => some .string
  | unrecognizedCharacter _ | invalidEscape | unclosedComment => none

/-- The fault, if it spoils a token, stands where a token of the spoiled kind starts. -/
def SpoilsOneOf (tokens : List Token) (fault : Located ScanFault) : Prop :=
  ∀ kind ∈ fault.value.spoiled?, ∃ token ∈ tokens, token.kind = kind ∧
    token.location = fault.location

namespace Scanner

variable {s : Scanner} {phase : Phase}

/-- The scanner's fault has its token, if it spoils one. -/
def Accounted (s : Scanner) : Prop := ∀ fault ∈ s.fault, SpoilsOneOf s.tokens fault

namespace Accounted

theorem read (h : Accounted s) (n : Nat) : Accounted (s.read n) := h

theorem readWhile (h : Accounted s) (p : Char → Bool) : Accounted (s.readWhile p) := h

theorem readOne (h : Accounted s) (p : Char → Bool) : Accounted (s.readOne p) := by
  obtain ⟨n, hn⟩ := s.readOne_eq_read p
  exact hn ▸ h.read n

theorem skip (h : Accounted s) : Accounted s.skip := h

theorem emitValue (h : Accounted s) (kind : TokenKind) (value : List Char) :
    Accounted (s.emitValue kind value) := by
  intro fault hfault kind hkind
  obtain ⟨token, htoken, hspoiled⟩ := h fault hfault kind hkind
  exact ⟨token, List.mem_cons_of_mem _ htoken, hspoiled⟩

theorem emit (h : Accounted s) (kind : TokenKind) : Accounted (s.emit kind) :=
  h.emitValue kind s.lexeme

/-- A fault that spoils no token asks for none. -/
theorem noteAt (h : Accounted s) (location : Location) {fault : ScanFault}
    (hnone : fault.spoiled? = none) : Accounted (s.noteAt location fault) := by
  intro found hfound kind hkind
  rcases Option.or_eq_some_iff.mp hfound with hfound | ⟨-, hfound⟩
  · exact h found hfound kind hkind
  · cases hfound
    rw [hnone] at hkind
    cases hkind

theorem note (h : Accounted s) {fault : ScanFault} (hnone : fault.spoiled? = none) :
    Accounted (s.note fault) :=
  h.noteAt s.start hnone

/-- A fault that spoils a token is noted where that token is made. -/
theorem spoil (h : Accounted s) {fault : ScanFault} {kind : TokenKind}
    (hspoiled : fault.spoiled? = some kind) (value : List Char) :
    Accounted ((s.note fault).emitValue kind value) := by
  intro found hfound kind' hkind
  rcases Option.or_eq_some_iff.mp hfound with hfound | ⟨-, hfound⟩
  · exact h.emitValue kind value found hfound kind' hkind
  · cases hfound
    rw [hspoiled] at hkind
    cases hkind
    exact ⟨_, .head _, rfl, rfl⟩

theorem readQuoted (h : Accounted s) (quote : Char) : Accounted (s.readQuoted quote) := by
  unfold Scanner.readQuoted
  dsimp only
  generalize Text.Quoted.read quote (s.read 1).here (s.read 1).rest = quoted
  have h := (h.read 1).read quoted.length
  cases quoted.fault with
  | none =>
    split_ifs
    · exact h.emitValue _ _
    · exact h.spoil rfl _
  | some location =>
    have hnone : ScanFault.invalidEscape.spoiled? = none := rfl
    have h := h.noteAt location hnone
    split_ifs
    · exact h.emitValue _ _
    · exact h.spoil rfl _

theorem readRaw (h : Accounted s) : Accounted s.readRaw := by
  unfold Scanner.readRaw
  dsimp only
  split_ifs
  · exact ((h.read 1).read _).emitValue _ _
  · exact ((h.read 1).read _).spoil rfl _

theorem emitBlanks (h : Accounted s) : Accounted s.emitBlanks := by
  unfold Scanner.emitBlanks
  dsimp only
  split_ifs
  · exact h.readWhile _
  · exact (h.readWhile _).emit _

theorem emitNegatable (h : Accounted s) : Accounted s.emitNegatable := by
  unfold Scanner.emitNegatable
  split_ifs
  · exact (h.readWhile _).emit _
  · exact h

theorem stepRoot (h : Accounted s) (c : Char) : Accounted (s.stepRoot c).2 := by
  have hmove := s.stepRoot_move c
  generalize s.stepRoot c = next at hmove ⊢
  cases hmove with
  | blank => exact (h.readWhile _).emit _
  | quoted => exact h.readQuoted c
  | raw => exact h.readRaw
  | number | dot | word => exact h
  | questionMark | slash | pointer => exact h.read 1
  | pair | double => exact ((h.read 1).readOne _).emit _
  | bracket | single => exact (h.read 1).emit _
  | stray => exact ((h.read 1).note rfl).skip

end Accounted

/-- **The step lemma.**  A fault that spoils a token is noted in the step that makes it. -/
theorem accounted_step (phase : Phase) (h : Accounted s) : Accounted (s.step phase).2 := by
  cases phase with
  | root =>
    cases hrest : s.rest with
    | nil =>
      simp only [Scanner.step, hrest]
      exact h.emit _
    | cons c cs =>
      simp only [Scanner.step, hrest]
      exact h.stepRoot c
  | number =>
    obtain ⟨n, hn⟩ := s.readNumber_eq_read
    have hnumber : Accounted s.readNumber.1 := hn ▸ h.read n
    simp only [Scanner.step]
    split_ifs
    · exact hnumber.emit _
    · exact hnumber.spoil rfl _
  | dot =>
    simp only [Scanner.step]
    split_ifs
    · exact h.read 1
    · exact ((h.read 1).readOne _).emit _
  | identifier =>
    simp only [Scanner.step]
    split_ifs
    · exact h.readWhile _
    · exact (h.readWhile _).emit _
    · exact (h.readWhile _).emit _
  | not => exact (h.emit _).emitBlanks.emitNegatable
  | questionMark => exact (h.readOne _).emit _
  | slash =>
    simp only [Scanner.step]
    split
    · exact h.read 1
    · exact h.read 1
    · exact h.emit _
  | lineComment => exact (h.readWhile _).skip
  | blockComment =>
    simp only [Scanner.step]
    split_ifs
    · exact (h.read _).skip
    · exact ((h.read _).note rfl).skip
  | pointer =>
    simp only [Scanner.step]
    split_ifs
    · exact ((h.readOne _).emit _).readWhile _
    · exact (((h.readOne _).emit _).readWhile _).emit _
  | done => exact h

/-- **A fault that spoils a token stands where that token starts.** -/
theorem spoilsOneOf_scan {source : String} {fault : Located ScanFault}
    (h : (scan source).fault = some fault) : SpoilsOneOf (scan source).tokens fault := by
  have hready : Ready .root { rest := source.toList } := rfl
  have hinit : Accounted { rest := source.toList } := fun _ hfault => nomatch hfault
  have hend : Accounted (finish .root { rest := source.toList }) :=
    (finish_induct (motive := fun _ => Accounted) (fun phase _ _ _ => accounted_step phase) hready
      hinit).2
  rw [scan, scanChars_eq] at h ⊢
  intro kind hkind
  obtain ⟨token, htoken, hspoiled⟩ := hend fault h kind hkind
  exact ⟨token, List.mem_reverse.mpr htoken, hspoiled⟩

theorem stable_unmarked : Stable fun s => ∀ token ∈ s.tokens, token.error = none where
  read h _ := h
  noteAt h _ _ := h
  emitValue h _ _ _ := List.forall_mem_cons.mpr ⟨rfl, h⟩
  skip _ h _ := h

/-- The scanner itself puts no message on a token. -/
theorem unmarked_scan (source : String) : ∀ token ∈ (scan source).tokens, token.error = none := by
  have hinit : ∀ token ∈ ({ rest := source.toList } : Scanner).tokens, token.error = none := nofun
  obtain ⟨t, hunmarked, -, -, hfinish⟩ := stable_unmarked.whole hinit
  intro token htoken
  rw [scan, scanChars_eq, hfinish, List.mem_reverse] at htoken
  rcases List.mem_cons.mp htoken with rfl | htoken
  · rfl
  · exact hunmarked token htoken

end Scanner

end FilterLang
