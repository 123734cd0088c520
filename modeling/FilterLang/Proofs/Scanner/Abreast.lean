import FilterLang.Cursor
import FilterLang.Proofs.Scanner.Tiling
import FilterLang.Proofs.Text.Prefix

/-!
# Two runs over a line

The run over a line is compared with the run over the same line with more text behind it, by the
tokens that are complete at the column where the first text ends.

* `Scanner.extend` — a scanner with more text behind.
* `Before` — both runs are in the same state, in front of the column.
* `Past` — a run has read up to the column or beyond it; `Behind` — and it has begun a token there,
  so that no token becomes complete any more (`stable_behind`).
* `Ends` — the complete tokens at the end of a run.
* `Abreast` — while a token is read, the two runs are in the same state or both have read up to the
  column.  All ways of reading keep them abreast.
-/

namespace FilterLang.Scanner

open Cursor Text

variable {c : Nat} {q : List Char} {V : List Token} {s t t' : Scanner} {phase : Phase}

/-! ### Tokens that are not complete -/

/-- The complete ones of the tokens that have been found. -/
def shown (c : Nat) (s : Scanner) : List Token := tokensUntil c s.tokens.reverse

/-- A token of this kind is not complete before a character follows it. -/
def Open (kind : TokenKind) (value : List Char) : Prop :=
  kind ≠ .bracket ∧ (kind = .operator → value.head? ≠ some '.')

theorem open_of_kind {kind : TokenKind} (value : List Char) (h : kind ≠ .bracket)
    (h' : kind ≠ .operator) : Open kind value :=
  ⟨h, fun hkind => absurd hkind h'⟩

theorem open_operator {value : List Char} (h : value.head? ≠ some '.') : Open .operator value :=
  ⟨nofun, fun _ => h⟩

theorem isClosed_eq_false {token : Token} {value : List Char}
    (hvalue : token.value = String.ofList value) (h : Open token.kind value) :
    isClosed token = false := by
  obtain ⟨hkind, hdot⟩ := h
  rw [isClosed, Token.is, Bool.or_eq_false_iff, Bool.and_eq_false_iff]
  refine ⟨beq_false_of_ne hkind, ?_⟩
  by_cases hoperator : token.kind = .operator
  · refine .inr (beq_false_of_ne fun heq => hdot hoperator ?_)
    have hchars : value = ['.'] := by
      rw [← String.toList_ofList (l := value), ← hvalue, heq]
      rfl
    rw [hchars]
    rfl
  · exact .inl (beq_false_of_ne hoperator)

theorem tokensUntil_append_singleton {token : Token} (tokens : List Token)
    (h : isComplete c token = false) :
    tokensUntil c (tokens ++ [token]) = tokensUntil c tokens := by
  rw [tokensUntil, tokensUntil, List.takeWhile_append, List.takeWhile_cons_of_neg (by simp [h]),
    List.append_nil]
  split_ifs with hall
  · exact ((List.takeWhile_prefix _).eq_of_length hall).symm
  · rfl

theorem isComplete_of_lt {token : Token} (h : c < token.endColumn) :
    isComplete c token = false := by
  rw [isComplete]
  split_ifs <;> simp <;> omega

theorem isComplete_of_open {token : Token} {value : List Char} (h : c ≤ token.endColumn)
    (hvalue : token.value = String.ofList value) (hopen : Open token.kind value) :
    isComplete c token = false := by
  rw [isComplete, isClosed_eq_false hvalue hopen]
  simpa using h

/-! ### Where a run is -/

/-- A run along one line. -/
structure Along (s : Scanner) : Prop where
  line : '\n' ∉ s.rest
  span : s.here.column = s.start.column + s.lexeme.length

theorem Along.read (h : Along s) (n : Nat) :
    Along (s.read n) ∧ (s.read n).here.column = s.here.column + (s.rest.take n).length := by
  have hline : '\n' ∉ s.rest.take n := fun hmem => h.line (List.mem_of_mem_take hmem)
  have hhere : (s.read n).here.column = s.here.column + (s.rest.take n).length :=
    s.here.column_advance hline
  refine ⟨⟨fun hmem => h.line (List.mem_of_mem_drop hmem), ?_⟩, hhere⟩
  rw [hhere, h.span, read_lexeme, List.length_append, read_start]
  omega

theorem Along.forget (h : Along s) : Along s.skip := ⟨h.line, rfl⟩

/-- A run has read to the column `c` or beyond it, and `V` are the complete tokens. -/
structure Past (c : Nat) (V : List Token) (s : Scanner) : Prop where
  along : Along s
  far : c ≤ s.here.column
  shows : s.shown c = V

/-- A run has begun a token at the column `c` or beyond it, and `V` are the complete tokens. -/
structure Behind (c : Nat) (V : List Token) (s : Scanner) : Prop where
  along : Along s
  far : c ≤ s.start.column
  shows : s.shown c = V

/-- A run in front of the column `c`, where its text ends.  With the text `q` behind, that column
does not lie within dots or a number that starts with one. -/
structure Before (c : Nat) (q : List Char) (s : Scanner) : Prop where
  line : '\n' ∉ s.rest ++ q
  span : s.here.column = s.start.column + s.lexeme.length
  near : s.here.column + s.rest.length = c
  undivided : s.rest.getLast? = some '.' → ∀ d ∈ q.head?, d ≠ '.' ∧ ¬ d.isDigit

/-- The same scanner with more text behind. -/
def extend (q : List Char) (s : Scanner) : Scanner := { s with rest := s.rest ++ q }

theorem Before.along (h : Before c q s) : Along s :=
  ⟨fun hmem => h.line (List.mem_append_left _ hmem), h.span⟩

theorem Before.along_extend (h : Before c q s) : Along (s.extend q) := ⟨h.line, h.span⟩

namespace Past

theorem read (h : Past c V s) (n : Nat) : Past c V (s.read n) where
  along := (h.along.read n).1
  far := by
    rw [(h.along.read n).2]
    exact Nat.le_add_right_of_le h.far
  shows := h.shows

theorem of_read (h : Past c V s) (ht : ∃ n, t = s.read n) : Past c V t := by
  obtain ⟨n, rfl⟩ := ht
  exact h.read n

theorem noteAt (h : Past c V s) (location : Location) (fault : ScanFault) :
    Past c V (s.noteAt location fault) :=
  ⟨⟨h.along.line, h.along.span⟩, h.far, h.shows⟩

theorem skip (h : Past c V s) : Behind c V s.skip := ⟨h.along.forget, h.far, h.shows⟩

/-- A token that ends at the column or behind it is not complete, unless it is closed. -/
theorem emitValue {kind : TokenKind} {value : List Char} (h : Past c V s)
    (hopen : Open kind value) : Behind c V (s.emitValue kind value) where
  along := ⟨h.along.line, rfl⟩
  far := h.far
  shows := by
    have hend : c ≤ s.start.column + s.lexeme.length := h.along.span ▸ h.far
    rw [← h.shows]
    simp only [shown, Scanner.emitValue, Scanner.skip, List.reverse_cons]
    exact tokensUntil_append_singleton _ (isComplete_of_open hend rfl hopen)

theorem emit {kind : TokenKind} (h : Past c V s) (hopen : Open kind s.lexeme) :
    Behind c V (s.emit kind) :=
  h.emitValue hopen

end Past

theorem Behind.past (h : Behind c V s) : Past c V s :=
  ⟨h.along, by have := h.along.span; have := h.far; omega, h.shows⟩

/-- **Behind the column no token becomes complete.** -/
theorem stable_behind (c : Nat) (V : List Token) : Stable (Behind c V) where
  read h n := ⟨(h.along.read n).1, h.far, h.shows⟩
  noteAt h _ _ := ⟨⟨h.along.line, h.along.span⟩, h.far, h.shows⟩
  emitValue {s kind value} h hne _ _ := {
    along := ⟨h.along.line, rfl⟩
    far := h.past.far
    shows := by
      have hlong : 0 < s.lexeme.length := List.length_pos_iff.mpr hne
      have hfar := h.far
      rw [← h.shows]
      simp only [shown, Scanner.emitValue, Scanner.skip, List.reverse_cons]
      refine tokensUntil_append_singleton _ (isComplete_of_lt ?_)
      show c < s.start.column + s.lexeme.length
      omega }
  skip _ h _ := h.past.skip

theorem stable_before (c : Nat) (q : List Char) : Stable (Before c q) where
  read {s} h n := {
    line := by
      intro hmem
      refine h.line ?_
      rw [List.mem_append] at hmem ⊢
      exact hmem.imp_left List.mem_of_mem_drop
    span := (h.along.read n).1.span
    near := by
      rw [(h.along.read n).2, ← h.near, read_rest, List.length_take, List.length_drop]
      omega
    undivided := by
      intro hlast
      refine h.undivided ?_
      rw [read_rest, List.getLast?_drop] at hlast
      split_ifs at hlast
      exact hlast }
  noteAt h _ _ := ⟨h.line, h.span, h.near, h.undivided⟩
  emitValue h _ _ _ := ⟨h.line, rfl, h.near, h.undivided⟩
  skip _ h _ := ⟨h.line, rfl, h.near, h.undivided⟩

/-! ### Where a run ends -/

/-- From here a run ends with the complete tokens `V`. -/
def Ends (c : Nat) (V : List Token) (next : Phase × Scanner) : Prop :=
  (finish next.1 next.2).shown c = V

theorem Behind.ends (h : Behind c V s) (hr : Ready phase s) (hp : phase ≠ .done) :
    Ends c V (phase, s) := by
  obtain ⟨t, ht, hlexeme, -, hfinish⟩ := (stable_behind c V).finish hr hp h
  have hopen : Open .eof t.lexeme := open_of_kind _ nofun nofun
  show (finish phase s).shown c = V
  rw [hfinish]
  exact (ht.past.emit hopen).shows

theorem Behind.ends_root (h : Behind c V s) (hlexeme : s.lexeme = []) : Ends c V (.root, s) :=
  h.ends hlexeme nofun

theorem Past.ends_emitValue {kind : TokenKind} {value : List Char} (h : Past c V s)
    (hopen : Open kind value) : Ends c V (.root, s.emitValue kind value) :=
  (h.emitValue hopen).ends_root rfl

theorem Past.ends_skip (h : Past c V s) : Ends c V (.root, s.skip) :=
  h.skip.ends_root rfl

/-- A step of two runs leads to the same state, or the runs end with the same complete tokens. -/
def Meets (c : Nat) (q : List Char) (next next' : Phase × Scanner) : Prop :=
  next' = (next.1, next.2.extend q) ∨ ∃ V, Ends c V next ∧ Ends c V next'

/-- What relates both branches of two choices by the same condition relates the choices. -/
theorem rel_ite {α : Type} {R : α → α → Prop} {p : Prop} [Decidable p] {a a' b b' : α}
    (h : p → R a a') (h' : ¬ p → R b b') : R (if p then a else b) (if p then a' else b') := by
  by_cases hp : p
  · rw [if_pos hp, if_pos hp]
    exact h hp
  · rw [if_neg hp, if_neg hp]
    exact h' hp

/-! ### Two runs while a token is read -/

/-- Two runs are in the same state, in front of the column `c`, or both have read up to it. -/
inductive Abreast (c : Nat) (q : List Char) : Scanner → Scanner → Prop where
  | level {s : Scanner} (h : Before c q s) : Abreast c q s (s.extend q)
  | past {t t' : Scanner} {V : List Token} (h : Past c V t) (h' : Past c V t') : Abreast c q t t'

/-- Reading all the text that is left leads to its end, and reading as much of a longer text leads
as far. -/
theorem Before.past_read (h : Before c q s) {n n' : Nat} (hn : s.rest.length ≤ n)
    (hn' : s.rest.length ≤ n') :
    Past c (s.shown c) (s.read n) ∧ Past c (s.shown c) ((s.extend q).read n') := by
  refine ⟨⟨(h.along.read n).1, ?_, rfl⟩, ⟨(h.along_extend.read n').1, ?_, rfl⟩⟩
  · rw [(h.along.read n).2, List.length_take, ← h.near]
    omega
  · rw [(h.along_extend.read n').2, List.length_take, ← h.near]
    show s.here.column + s.rest.length ≤ s.here.column + min n' (s.rest ++ q).length
    rw [List.length_append]
    omega

theorem extend_rest {d : Char} {ds : List Char} (q : List Char) (hrest : s.rest = d :: ds) :
    (s.extend q).rest = d :: (ds ++ q) := by
  rw [extend, hrest, List.cons_append]

theorem extend_read {n : Nat} (q : List Char) (hn : n ≤ s.rest.length) :
    (s.extend q).read n = (s.read n).extend q := by
  simp only [read, extend, List.drop_append_of_le_length hn, List.take_append_of_le_length hn]

theorem extend_readOne {d : Char} {ds : List Char} {p : Char → Bool} (q : List Char)
    (hrest : s.rest = d :: ds) : (s.extend q).readOne p = (s.readOne p).extend q := by
  have hrest' : (s.extend q).rest = d :: (ds ++ q) := extend_rest q hrest
  rw [readOne_cons hrest, readOne_cons hrest']
  split_ifs
  · exact extend_read q (by simp [hrest])
  · rfl

theorem Before.read_abreast (h : Before c q s) {n n' : Nat} (hn : SameReach s.rest.length n n') :
    Abreast c q (s.read n) ((s.extend q).read n') := by
  rcases hn with ⟨rfl, hn⟩ | ⟨hn, hn'⟩
  · rw [extend_read q hn]
    exact .level ((stable_before c q).read h _)
  · exact .past (h.past_read hn hn').1 (h.past_read hn hn').2

theorem Before.past_of_nil (h : Before c q s) (hrest : s.rest = []) :
    Past c (s.shown c) s ∧ Past c (s.shown c) (s.extend q) := by
  have hzero : Past c (s.shown c) (s.read 0) ∧ Past c (s.shown c) ((s.extend q).read 0) :=
    h.past_read (by simp [hrest]) (by simp [hrest])
  rwa [read_zero, read_zero] at hzero

theorem Before.read_one (h : Before c q s) {d : Char} {ds : List Char} (hrest : s.rest = d :: ds) :
    Before c q (s.read 1) ∧ (s.extend q).read 1 = (s.read 1).extend q :=
  ⟨(stable_before c q).read h 1, extend_read q (by simp [hrest])⟩

namespace Abreast

theorem readWhile (h : Abreast c q t t') (p : Char → Bool) :
    Abreast c q (t.readWhile p) (t'.readWhile p) := by
  cases h with
  | level h => exact h.read_abreast (sameReach_takeWhile p t.rest q)
  | past h h' => exact .past (h.read _) (h'.read _)

/-- Reading keeps two runs abreast, if it does while there is text left. -/
theorem reading (h : Abreast c q t t') {f : Scanner → Scanner} (hf : ∀ s, ∃ n, f s = s.read n)
    (hlevel : ∀ d ds, Before c q t → t.rest = d :: ds → (t.extend q).rest = d :: (ds ++ q) →
      Abreast c q (f t) (f (t.extend q))) : Abreast c q (f t) (f t') := by
  cases h with
  | past h h' => exact .past (h.of_read (hf _)) (h'.of_read (hf _))
  | level h =>
    cases hrest : t.rest with
    | nil =>
      obtain ⟨hs, hs'⟩ := h.past_of_nil hrest
      exact .past (hs.of_read (hf _)) (hs'.of_read (hf _))
    | cons d ds => exact hlevel d ds h hrest (extend_rest q hrest)

theorem readOne (h : Abreast c q t t') (p : Char → Bool) :
    Abreast c q (t.readOne p) (t'.readOne p) := by
  refine h.reading (fun s => s.readOne_eq_read p) fun d ds h hrest hrest' => ?_
  obtain ⟨n, hn⟩ := t.readOne_eq_read p
  rw [extend_readOne q hrest]
  exact .level (hn ▸ (stable_before c q).read h n)

/-- Two runs that are abreast when they make a token that is not closed. -/
theorem meets_emit {kind : TokenKind} (h : Abreast c q t t') (hopen : Open kind t.lexeme)
    (hopen' : Open kind t'.lexeme) : Meets c q (.root, t.emit kind) (.root, t'.emit kind) := by
  cases h with
  | level h => exact .inl rfl
  | past h h' => exact .inr ⟨_, h.ends_emitValue hopen, h'.ends_emitValue hopen'⟩

theorem meets_skip (h : Abreast c q t t') : Meets c q (.root, t.skip) (.root, t'.skip) := by
  cases h with
  | level h => exact .inl rfl
  | past h h' => exact .inr ⟨_, h.ends_skip, h'.ends_skip⟩

end Abreast

end FilterLang.Scanner
