import FilterLang.Proofs.Grammar.Reader
import FilterLang.Proofs.Scanner.Tiling
import FilterLang.Proofs.Text.Integers
import FilterLang.Proofs.Text.Literals

/-!
# How texts are cut

A text that is put together from pieces is cut where the pieces meet, if each piece ends there.

* `Word`, `solidWords` — what tokens say, wherever they stand, with blanks and without them.
* `Takes` — a piece of a text becomes these words, in front of that rest of the text.
* `IsSign` and `takes_of_isSign` — the operators that are no words, and how far each of them goes.
* `takes_word`, `takes_number`, `takes_quoted`, `takes_symbol` — the pieces; numbers in each of their
  spellings (`finish_of_spells`).
* `exists_tokens_of_finish`, `exists_tokens_of_takes` — the tokens of a piece stay the first ones.
* `finish_not` — the word `not` is an operator like any other, for all that is looked at behind it.
* `scan_of_takes` — the tokens of a whole text.
-/

namespace FilterLang

/-- What a token says: its kind and its text. -/
abbrev Word := TokenKind × String

def Token.word (t : Token) : Word := (t.kind, t.value)

theorem Token.is_iff_word {t : Token} {kind : TokenKind} {value : String} :
    t.is kind value ↔ t.word = (kind, value) := by
  rw [Token.is, Bool.and_eq_true, beq_iff_eq, beq_iff_eq, Token.word, Prod.mk.injEq]

/-- The word of a space. -/
def space : Word := (.whitespace, " ")

/-- The words that are not blank. -/
def solidWords (ws : List Word) : List Word := ws.filter fun w => w.1 != .whitespace

theorem map_word_solid (tokens : List Token) :
    (solid tokens).map Token.word = solidWords (tokens.map Token.word) := by
  rw [solidWords, List.filter_map, solid]
  rfl

namespace Scanner

/-- Reading the piece `cs` in front of `rest` makes tokens of these words, and no fault. -/
def Takes (cs : List Char) (ws : List Word) (rest : List Char) : Prop :=
  ∀ s : Scanner, s.lexeme = [] → s.rest = cs ++ rest →
    ∃ t, finish .root s = finish .root t ∧ t.lexeme = [] ∧ t.rest = rest ∧ t.fault = s.fault ∧
      t.tokens.map Token.word = ws.reverse ++ s.tokens.map Token.word

variable {s : Scanner} {cs ds rest : List Char} {ws vs : List Word}

theorem Takes.append (h : Takes cs ws (ds ++ rest)) (h' : Takes ds vs rest) :
    Takes (cs ++ ds) (ws ++ vs) rest := by
  intro s hlexeme hrest
  obtain ⟨t, hfinish, ht, htrest, hfault, hwords⟩ := h s hlexeme (by rw [hrest, List.append_assoc])
  obtain ⟨u, hfinish', hu, hurest, hfault', hwords'⟩ := h' t ht htrest
  refine ⟨u, hfinish.trans hfinish', hu, hurest, hfault'.trans hfault, ?_⟩
  rw [hwords', hwords, List.reverse_append, List.append_assoc]

/-- A piece that becomes one token. -/
theorem takes_of_emitValue {kind : TokenKind} {value : List Char}
    (h : ∀ s : Scanner, s.lexeme = [] → s.rest = cs ++ rest →
      finish .root s = finish .root ((s.read cs.length).emitValue kind value)) :
    Takes cs [(kind, String.ofList value)] rest := by
  intro s hlexeme hrest
  refine ⟨_, h s hlexeme hrest, rfl, ?_, rfl, rfl⟩
  show s.rest.drop cs.length = rest
  rw [hrest, List.drop_left]

theorem emit_read (hlexeme : s.lexeme = []) (hrest : s.rest = cs ++ rest) (kind : TokenKind) :
    (s.read cs.length).emit kind = (s.read cs.length).emitValue kind cs := by
  rw [emit, read_lexeme, hlexeme, hrest, List.take_left, List.nil_append]

theorem takes_of_emit {kind : TokenKind}
    (h : ∀ s : Scanner, s.lexeme = [] → s.rest = cs ++ rest →
      finish .root s = finish .root ((s.read cs.length).emit kind)) :
    Takes cs [(kind, String.ofList cs)] rest :=
  takes_of_emitValue fun s hlexeme hrest =>
    (h s hlexeme hrest).trans (by rw [emit_read hlexeme hrest])

/-- Where nothing is left, the end of the text becomes a token. -/
theorem finish_end (hlexeme : s.lexeme = []) (hrest : s.rest = []) :
    finish .root s = s.emit .eof := by
  have hready : Ready .root s := hlexeme
  rw [finish_step hready nofun, step, hrest]
  dsimp only
  rw [finish, run_done]

/-- **The tokens of a whole text**, by its pieces. -/
theorem scan_of_takes {text : String} (h : Takes text.toList ws []) :
    (scan text).fault = none ∧
      ∃ front last, (scan text).tokens = front ++ [last] ∧ front.map Token.word = ws ∧
        last.kind = .eof := by
  obtain ⟨t, hfinish, hlexeme, hrest, hfault, hwords⟩ := h { rest := text.toList } rfl (by simp)
  rw [scan, scanChars_eq, hfinish, finish_end hlexeme hrest]
  refine ⟨hfault, t.tokens.reverse, _, List.reverse_cons, ?_, rfl⟩
  rw [List.map_reverse, hwords, List.reverse_append, List.reverse_reverse]
  rfl

/-- The tokens that have been found are the first ones of the text. -/
theorem exists_tokens_of_finish {text : String} {t : Scanner} (hlexeme : t.lexeme = [])
    (hfinish : finish .root { rest := text.toList } = finish .root t) :
    ∃ more, (scan text).tokens = t.tokens.reverse ++ more := by
  have hready : Ready .root t := hlexeme
  obtain ⟨u, hkept, -, -, hend⟩ :=
    (stable_tokens t.tokens).finish hready nofun List.suffix_rfl
  have hlast : u.tokens <:+ (u.emit .eof).tokens := List.suffix_cons _ _
  obtain ⟨later, hlater⟩ := hkept.trans hlast
  refine ⟨later.reverse, ?_⟩
  rw [scan, scanChars_eq, hfinish, hend, ← hlater, List.reverse_append]

/-- The tokens at the start of a text. -/
theorem exists_tokens_of_takes {text : String} {front back : List Char} {ws : List Word}
    (h : Takes front ws back) (htext : text.toList = front ++ back) :
    ∃ more, (scan text).tokens.map Token.word = ws ++ more := by
  obtain ⟨t, hfinish, hlexeme, -, -, hwords⟩ := h { rest := text.toList } rfl htext
  obtain ⟨later, hlater⟩ := exists_tokens_of_finish hlexeme hfinish
  refine ⟨later.map Token.word, ?_⟩
  rw [hlater, List.map_append, List.map_reverse, hwords, List.reverse_append,
    List.reverse_reverse]
  rfl

/-- A run goes on from what is done with the character at hand. -/
theorem finish_root {c : Char} {phase : Phase} {t : Scanner} (hlexeme : s.lexeme = [])
    (hrest : s.rest = c :: cs) (hstep : s.stepRoot c = (phase, t)) :
    finish .root s = finish phase t := by
  have hready : Ready .root s := hlexeme
  rw [finish_step hready nofun, step, hrest]
  dsimp only
  rw [hstep]

/-! ### Blanks -/

/-- The blanks ahead become a token of their own. -/
theorem finish_emitBlanks (hlexeme : s.lexeme = []) :
    finish .root s = finish .root s.emitBlanks := by
  cases hrest : s.rest with
  | nil =>
    have hnone : s.readWhile Text.isBlank = s := by
      rw [readWhile, hrest]
      exact s.read_zero
    rw [emitBlanks, hnone, hlexeme]
    rfl
  | cons c cs =>
    by_cases hc : Text.isBlank c
    · have hlong : (s.readWhile Text.isBlank).lexeme.isEmpty = false := by
        rw [readWhile_lexeme, hlexeme, hrest, List.takeWhile_cons_of_pos hc]
        rfl
      rw [finish_root hlexeme hrest (if_pos hc), emitBlanks, hlong]
      rfl
    · have hnone : s.readWhile Text.isBlank = s := by
        rw [readWhile, hrest, List.takeWhile_cons_of_neg hc]
        exact s.read_zero
      rw [emitBlanks, hnone, hlexeme]
      rfl

/-- Blanks in front of something else. -/
theorem takes_blanks (hne : cs ≠ []) (hcs : ∀ c ∈ cs, Text.isBlank c)
    (h : ∀ c ds, rest = c :: ds → ¬ Text.isBlank c) :
    Takes cs [(.whitespace, String.ofList cs)] rest := by
  refine takes_of_emit fun s hlexeme hrest => ?_
  have htake : s.rest.takeWhile Text.isBlank = cs := by
    rw [hrest, List.takeWhile_append_of_pos hcs]
    cases rest with
    | nil => simp
    | cons c ds => rw [List.takeWhile_cons_of_neg (h c ds rfl), List.append_nil]
  have hlong : (s.read cs.length).lexeme.isEmpty = false := by
    rw [read_lexeme, hlexeme, hrest, List.take_left, List.nil_append]
    exact List.isEmpty_eq_false_iff.mpr hne
  rw [finish_emitBlanks hlexeme, emitBlanks, readWhile, htake, hlong]
  rfl

/-- A space in front of something else. -/
theorem takes_space (h : ∀ c ds, rest = c :: ds → ¬ Text.isBlank c) : Takes [' '] [space] rest := by
  refine takes_blanks (List.cons_ne_nil _ _) (fun c hc => ?_) h
  rw [List.mem_singleton.mp hc]
  rfl

/-- Blanks are one token, as many as there are. -/
theorem exists_takes_blanks {c : Char} (hc : Text.isBlank c) (cs : List Char) :
    ∃ value front back, c :: cs = front ++ back ∧ Takes front [(.whitespace, value)] back := by
  have hcut := List.takeWhile_append_dropWhile (p := Text.isBlank) (l := c :: cs)
  refine ⟨_, _, _, hcut.symm, takes_blanks ?_ (fun d hd => List.mem_takeWhile_imp hd) ?_⟩
  · rw [List.takeWhile_cons_of_pos hc]
    exact List.cons_ne_nil _ _
  · intro d ds hcons
    have hhead := List.head?_dropWhile_not Text.isBlank (c :: cs)
    rw [hcons] at hhead
    simpa using hhead

/-! ### Words -/

/-- No word goes on here. -/
def EndsWord (rest : List Char) : Prop := ∀ c ds, rest = c :: ds → ¬ Text.isWordChar c

/-- The characters that a word of the language may have: word characters, and not an ASCII digit in
front. -/
def IsWord (cs : List Char) : Prop :=
  (∀ c ∈ cs, Text.isWordChar c) ∧ ∃ c ds, cs = c :: ds ∧ ¬ c.isDigit

theorem isWord_iff (cs : List Char) :
    IsWord cs ↔ (cs.all Text.isWordChar && cs.head?.any fun c => !c.isDigit) = true := by
  cases cs <;> simp [IsWord]

instance : DecidablePred IsWord := fun cs => decidable_of_iff _ (isWord_iff cs).symm

/-- The kind of the token that a word becomes. -/
def kindOfWord (word : String) : TokenKind :=
  if word = "not" ∨ Operator.isOperatorWord word then .operator else .identifier

theorem takeWhile_of_endsWord (hcs : ∀ c ∈ cs, Text.isWordChar c) (hrest : EndsWord rest) :
    (cs ++ rest).takeWhile Text.isWordChar = cs := by
  rw [List.takeWhile_append_of_pos hcs]
  cases rest with
  | nil => simp
  | cons c ds => rw [List.takeWhile_cons_of_neg (hrest c ds rfl), List.append_nil]

/-- What is true of no sign is not true of one of them. -/
theorem eq_false_of_contains {p : Char → Bool} {c : Char} {signs : List Char}
    (h : signs.contains c) (hsigns : signs.any p = false) : p c = false := by
  have hc := List.any_eq_false.mp hsigns c (List.contains_iff_mem.mp h)
  simpa using hc

/-- A word character starts a word, unless it is a digit. -/
theorem stepRoot_of_isWordChar {c : Char} (hc : Text.isWordChar c) (hdigit : ¬ c.isDigit)
    (s : Scanner) : s.stepRoot c = (.identifier, s) := by
  have hmove := stepRoot_move s c
  have hno : Text.isWordChar c ≠ false := by simp [hc]
  generalize s.stepRoot c = next at hmove ⊢
  cases hmove with
  | word => rfl
  | blank h => exact absurd (Text.isWordChar_of_isBlank h) hno
  | number h => exact absurd h hdigit
  | bracket h => exact absurd (eq_false_of_contains h (by decide)) hno
  | single h => exact absurd (eq_false_of_contains h (by decide)) hno
  | double h => exact absurd (eq_false_of_contains h (by decide)) hno
  | stray h => simp [isStray, hc] at h
  | quoted h => rcases h with rfl | rfl <;> exact absurd (by decide) hno
  | pair h => rcases h with rfl | rfl <;> exact absurd (by decide) hno
  | raw h | questionMark h | slash h | pointer h | dot h =>
    subst h
    exact absurd (by decide) hno

/-- The whole word is read before it is looked at. -/
theorem finish_identifier (hlexeme : s.lexeme = []) (hrest : s.rest = cs ++ rest)
    (hcs : IsWord cs) (hends : EndsWord rest) :
    (s.read cs.length).lexeme = cs ∧
      finish .root s =
        if String.ofList cs = "not" then finish .not (s.read cs.length)
        else finish .root ((s.read cs.length).emit (kindOfWord (String.ofList cs))) := by
  obtain ⟨hword, c, ds, hcons, hdigit⟩ := hcs
  have hc : Text.isWordChar c := hword c (by rw [hcons]; exact .head _)
  have hhead : s.rest = c :: (ds ++ rest) := by rw [hrest, hcons, List.cons_append]
  have hready : Ready .identifier s := ⟨hlexeme, c, _, hhead, hc⟩
  have hfinish := finish_step hready nofun
  have hread : s.readWhile Text.isWordChar = s.read cs.length := by
    rw [readWhile, hrest, takeWhile_of_endsWord hword hends]
  have hlex : (s.read cs.length).lexeme = cs := by
    rw [read_lexeme, hlexeme, hrest, List.take_left, List.nil_append]
  refine ⟨hlex, ?_⟩
  rw [finish_root hlexeme hhead (stepRoot_of_isWordChar hc hdigit s), hfinish]
  simp only [step, hread, hlex, beq_iff_eq, kindOfWord]
  by_cases hnot : String.ofList cs = "not"
  · rw [if_pos hnot, if_pos hnot]
  · rw [if_neg hnot, if_neg hnot]
    by_cases hoperator : Operator.isOperatorWord (String.ofList cs)
    · rw [if_pos hoperator, if_pos (.inr hoperator)]
    · rw [if_neg hoperator, if_neg (by tauto)]

/-- The relations that can be negated are words, and operators. -/
theorem isWord_of_isNegatable {word : String} (h : Operator.isNegatable word) :
    IsWord word.toList ∧ word ≠ "not" ∧ kindOfWord word = .operator := by
  have hall : ∀ word ∈ Operator.negatables,
      IsWord word.toList ∧ word ≠ "not" ∧ kindOfWord word = .operator := by decide
  exact hall word (by simpa [Operator.isNegatable] using h)

/-- A relation ahead that can be negated becomes a token of its own. -/
theorem finish_emitNegatable (hlexeme : s.lexeme = []) :
    finish .root s = finish .root s.emitNegatable := by
  rw [emitNegatable]
  split
  · rename_i hnegatable
    obtain ⟨hword, hnot, hkind⟩ := isWord_of_isNegatable hnegatable
    rw [String.toList_ofList] at hword
    have hends : EndsWord (s.rest.dropWhile Text.isWordChar) := by
      intro c ds hcons
      have hhead := List.head?_dropWhile_not Text.isWordChar s.rest
      rw [hcons] at hhead
      simpa using hhead
    obtain ⟨-, hfinish⟩ :=
      finish_identifier hlexeme List.takeWhile_append_dropWhile.symm hword hends
    rw [hfinish, if_neg hnot, hkind]
    rfl
  · rfl

/-- **The word `not` is an operator**, and what is looked at behind it is read as it always is. -/
theorem finish_not (hlexeme : s.lexeme = "not".toList) :
    finish .not s = finish .root (s.emit .operator) := by
  have hready : Ready .not s := hlexeme
  rw [finish_step hready nofun, finish_emitBlanks (s := s.emit .operator) rfl,
    finish_emitNegatable (s := (s.emit .operator).emitBlanks) (emitBlanks_rest _).1]
  rfl

/-- **A word is one token**, if no word character is behind it. -/
theorem takes_word (hcs : IsWord cs) (hends : EndsWord rest) :
    Takes cs [(kindOfWord (String.ofList cs), String.ofList cs)] rest := by
  refine takes_of_emit fun s hlexeme hrest => ?_
  obtain ⟨hlex, hfinish⟩ := finish_identifier hlexeme hrest hcs hends
  rw [hfinish]
  split
  · rename_i hnot
    have hchars : cs = "not".toList := by rw [← hnot, String.toList_ofList]
    rw [finish_not (hlex.trans hchars), kindOfWord, if_pos (.inl hnot)]
  · rfl

/-! ### Signs -/

section Signs

variable {c : Char}

/-- A sign that is a token of its own. -/
theorem takes_sign {kind : TokenKind}
    (hstep : ∀ s : Scanner, s.stepRoot c = (.root, (s.read 1).emit kind)) (rest : List Char) :
    Takes [c] [(kind, String.ofList [c])] rest :=
  takes_of_emit fun s hlexeme hrest => finish_root hlexeme hrest (hstep s)

/-- What is left when one character is read. -/
theorem read_one (hlexeme : s.lexeme = []) (hrest : s.rest = c :: rest) :
    (s.read 1).lexeme = [c] ∧ (s.read 1).rest = rest := by
  rw [read_lexeme, read_rest, hlexeme, hrest]
  exact ⟨rfl, rfl⟩

/-- A character that does not belong to what has been read is left where it is. -/
theorem readOne_of_not {p : Char → Bool} (hrest : s.rest = rest)
    (hends : ∀ d ds, rest = d :: ds → ¬ p d) : s.readOne p = s := by
  cases hcons : rest with
  | nil => exact readOne_nil (hrest.trans hcons)
  | cons d ds => rw [readOne_cons (hrest.trans hcons), if_neg (hends d ds hcons)]

/-- A sign that takes one of some others along, where none of them is behind it. -/
theorem takes_one {p : Char → Bool}
    (hstep : ∀ s : Scanner, s.stepRoot c = (.root, ((s.read 1).readOne p).emit .operator))
    (hends : ∀ d ds, rest = d :: ds → ¬ p d) :
    Takes [c] [(.operator, String.ofList [c])] rest := by
  refine takes_of_emit fun s hlexeme hrest => ?_
  have hone : (s.read 1).readOne p = s.read 1 :=
    readOne_of_not (read_one hlexeme hrest).2 hends
  rw [finish_root hlexeme hrest (hstep s), hone]
  rfl

/-- A sign that takes one of some others along, where one of them is behind it. -/
theorem takes_two {p : Char → Bool} {d : Char}
    (hstep : ∀ s : Scanner, s.stepRoot c = (.root, ((s.read 1).readOne p).emit .operator))
    (hd : p d) (rest : List Char) :
    Takes [c, d] [(.operator, String.ofList [c, d])] rest := by
  refine takes_of_emit fun s hlexeme hrest => ?_
  have htwo : (s.read 1).readOne p = s.read 2 := by
    rw [readOne_cons (read_one hlexeme hrest).2, if_pos hd, read_read]
  rw [finish_root hlexeme hrest (hstep s), htwo]
  rfl

/-- A slash that starts no comment. -/
theorem takes_slash (hends : ∀ d ds, rest = d :: ds → d ≠ '/' ∧ d ≠ '*') :
    Takes ['/'] [(.operator, "/")] rest := by
  show Takes ['/'] [(.operator, String.ofList ['/'])] rest
  refine takes_of_emit fun s hlexeme hrest => ?_
  obtain ⟨hready, hbehind⟩ := read_one hlexeme hrest
  have hready : Ready .slash (s.read 1) := hready
  rw [finish_root hlexeme hrest rfl, finish_step hready nofun, step, hbehind]
  split
  · next hrest => exact absurd rfl (hends _ _ hrest).1
  · next hrest => exact absurd rfl (hends _ _ hrest).2
  · rfl

/-- A question mark by itself. -/
theorem takes_mark (hends : ∀ d ds, rest = d :: ds → d ≠ '.' ∧ d ≠ '?') :
    Takes ['?'] [(.operator, "?")] rest := by
  show Takes ['?'] [(.operator, String.ofList ['?'])] rest
  refine takes_of_emit fun s hlexeme hrest => ?_
  obtain ⟨hready, hbehind⟩ := read_one hlexeme hrest
  have hready : Ready .questionMark (s.read 1) := hready
  have hone : (s.read 1).readOne (fun c => c == '.' || c == '?') = s.read 1 :=
    readOne_of_not hbehind fun d ds hcons => by simpa using hends d ds hcons
  rw [finish_root hlexeme hrest rfl, finish_step hready nofun, step, hone]
  rfl

/-- A question mark with a dot or another one. -/
theorem takes_marks (hc : c = '.' ∨ c = '?') (rest : List Char) :
    Takes ['?', c] [(.operator, String.ofList ['?', c])] rest := by
  refine takes_of_emit fun s hlexeme hrest => ?_
  obtain ⟨hready, hbehind⟩ := read_one hlexeme hrest
  have hready : Ready .questionMark (s.read 1) := hready
  rw [finish_root hlexeme hrest rfl, finish_step hready nofun, step, readOne_cons hbehind,
    if_pos (by simpa using hc), read_read]
  rfl

/-- A pointer sign in front of no name. -/
theorem takes_pointer (hcs : cs = ['#'] ∨ cs = ['#', '#'])
    (hends : ∀ d ds, rest = d :: ds → d ≠ '#' ∧ ¬ Text.isWordChar d) :
    Takes cs [(.operator, String.ofList cs)] rest := by
  refine takes_of_emit fun s hlexeme hrest => ?_
  obtain ⟨behind, hhead⟩ : ∃ behind, s.rest = '#' :: behind := by
    rcases hcs with rfl | rfl <;> exact ⟨_, hrest⟩
  have hready : Ready .pointer (s.read 1) := (read_one hlexeme hhead).1
  have hone : (s.read 1).readOne (· == '#') = s.read cs.length := by
    rcases hcs with rfl | rfl
    · exact readOne_of_not (read_one hlexeme hrest).2
        fun d ds hcons => by simpa using (hends d ds hcons).1
    · rw [readOne_cons (read_one hlexeme hrest).2, beq_self_eq_true, if_pos rfl, read_read]
      rfl
  -- no name is read behind the sign
  have hnone : ((s.read cs.length).emit .operator).readWhile Text.isWordChar
      = (s.read cs.length).emit .operator := by
    have hbehind : ((s.read cs.length).emit .operator).rest = rest := by
      rw [emit_rest, read_rest, hrest, List.drop_left]
    rw [readWhile, hbehind]
    cases hcons : rest with
    | nil => exact read_zero
    | cons d ds =>
      rw [List.takeWhile_cons_of_neg (hends d ds hcons).2]
      exact read_zero
  rw [finish_root hlexeme hhead rfl, finish_step hready (by decide)]
  simp only [step, hone, hnone]
  rfl

/-- The step at a dot that starts no number. -/
theorem finish_dot (hlexeme : s.lexeme = []) (hrest : s.rest = '.' :: rest)
    (hdigit : ∀ d ds, rest = d :: ds → ¬ d.isDigit) :
    finish .root s = finish .root (((s.read 1).readOne (· == '.')).emit .operator) := by
  have hready : Ready .dot s := ⟨hlexeme, rest, hrest⟩
  have hbehind : (s.read 1).rest = rest := (read_one hlexeme hrest).2
  have hnone : rest.head?.any Char.isDigit = false := by
    cases rest with
    | nil => rfl
    | cons d ds => simpa using hdigit d ds rfl
  rw [finish_root hlexeme hrest rfl, finish_step hready nofun]
  simp only [step, hbehind, hnone]
  rfl

theorem takes_dots (rest : List Char) : Takes ['.', '.'] [(.operator, "..")] rest := by
  show Takes ['.', '.'] [(.operator, String.ofList ['.', '.'])] rest
  refine takes_of_emit fun s hlexeme hrest => ?_
  rw [finish_dot hlexeme hrest (by rintro d ds ⟨⟩; decide),
    readOne_cons (read_one hlexeme hrest).2, if_pos (by decide), read_read]
  rfl

/-- A dot in front of a name. -/
theorem takes_dot (hends : ∀ d ds, rest = d :: ds → ¬ d.isDigit ∧ d ≠ '.') :
    Takes ['.'] [(.operator, ".")] rest := by
  show Takes ['.'] [(.operator, String.ofList ['.'])] rest
  refine takes_of_emit fun s hlexeme hrest => ?_
  have hone : (s.read 1).readOne (· == '.') = s.read 1 :=
    readOne_of_not (read_one hlexeme hrest).2 fun d ds h => by simpa using (hends d ds h).2
  rw [finish_dot hlexeme hrest fun d ds h => (hends d ds h).1, hone]
  rfl

/-- The operators that are no words, one form for each way to read one. -/
inductive IsSign : List Char → Prop where
  | pair {c : Char} (hc : c = '|' ∨ c = ':') : IsSign [c]
  | pairs {c : Char} (hc : c = '|' ∨ c = ':') : IsSign [c, c]
  | single {c : Char} (hc : isSingleOperator c) : IsSign [c]
  | double {c : Char} (hc : isDoubleOperator c) : IsSign [c]
  | doubles {c d : Char} (hc : isDoubleOperator c) (hd : isOperatorTail d) : IsSign [c, d]
  | dot : IsSign ['.']
  | dots : IsSign ['.', '.']
  | mark : IsSign ['?']
  | marks {c : Char} (hc : c = '.' ∨ c = '?') : IsSign ['?', c]
  | slash : IsSign ['/']
  | pointer : IsSign ['#']
  | pointers : IsSign ['#', '#']

/-- A sign starts with no word character, and with a dot only if it has nothing but dots. -/
theorem IsSign.head {cs : List Char} (h : IsSign cs) : ∃ c ds, cs = c :: ds ∧
    Text.isWordChar c = false ∧ (c = '.' → cs = ['.'] ∨ cs = ['.', '.']) := by
  have hno : ∀ {signs : List Char} {c : Char}, signs.contains c →
      signs.any Text.isWordChar = false → signs.any (· == '.') = false →
      Text.isWordChar c = false ∧ c ≠ '.' := by
    intro signs c hc hword hdot
    exact ⟨eq_false_of_contains hc hword, by simpa using eq_false_of_contains hc hdot⟩
  have hpair : ∀ {c : Char}, c = '|' ∨ c = ':' → Text.isWordChar c = false ∧ c ≠ '.' := by
    intro c hc
    rcases hc with rfl | rfl <;> decide
  cases h with
  | pair hc => exact ⟨_, _, rfl, (hpair hc).1, fun h => absurd h (hpair hc).2⟩
  | pairs hc => exact ⟨_, _, rfl, (hpair hc).1, fun h => absurd h (hpair hc).2⟩
  | single hc =>
    obtain ⟨hword, hdot⟩ := hno hc (by decide) (by decide)
    exact ⟨_, _, rfl, hword, fun h => absurd h hdot⟩
  | double hc =>
    obtain ⟨hword, hdot⟩ := hno hc (by decide) (by decide)
    exact ⟨_, _, rfl, hword, fun h => absurd h hdot⟩
  | doubles hc =>
    obtain ⟨hword, hdot⟩ := hno hc (by decide) (by decide)
    exact ⟨_, _, rfl, hword, fun h => absurd h hdot⟩
  | dot => exact ⟨_, _, rfl, by decide, fun _ => .inl rfl⟩
  | dots => exact ⟨_, _, rfl, by decide, fun _ => .inr rfl⟩
  | mark => exact ⟨_, _, rfl, by decide, by decide⟩
  | marks => exact ⟨_, _, rfl, by decide, fun h => absurd h (by decide)⟩
  | slash => exact ⟨_, _, rfl, by decide, by decide⟩
  | pointer => exact ⟨_, _, rfl, by decide, by decide⟩
  | pointers => exact ⟨_, _, rfl, by decide, by decide⟩

theorem IsSign.not_isWord {cs : List Char} (h : IsSign cs) : ¬ IsWord cs := by
  obtain ⟨c, ds, rfl, hc, -⟩ := h.head
  intro hword
  have hchar := hword.1 c (.head _)
  rw [hc] at hchar
  cases hchar

/-- Nothing behind a sign belongs to it.  Only a dot and a question mark take a dot along. -/
def EndsSign (cs rest : List Char) : Prop :=
  ∀ d ds, rest = d :: ds → d = ' ' ∨ d = ')' ∨ d = '.' ∧ cs ≠ ['.'] ∧ cs ≠ ['?']

theorem stepRoot_of_pair (hc : c = '|' ∨ c = ':') (s : Scanner) :
    s.stepRoot c = (.root, ((s.read 1).readOne (· == c)).emit .operator) := by
  rcases hc with rfl | rfl
  · rfl
  · rfl

theorem stepRoot_of_single (hc : isSingleOperator c) (s : Scanner) :
    s.stepRoot c = (.root, (s.read 1).emit .operator) := by
  have hmem : c ∈ [',', ';', '%', '+', '-', '^'] := List.contains_iff_mem.mp hc
  simp only [List.mem_cons, List.not_mem_nil, or_false] at hmem
  rcases hmem with rfl | rfl | rfl | rfl | rfl | rfl <;> rfl

theorem stepRoot_of_double (hc : isDoubleOperator c) (s : Scanner) :
    s.stepRoot c = (.root, ((s.read 1).readOne isOperatorTail).emit .operator) := by
  have hmem : c ∈ ['&', '!', '=', '*', '<', '>'] := List.contains_iff_mem.mp hc
  simp only [List.mem_cons, List.not_mem_nil, or_false] at hmem
  rcases hmem with rfl | rfl | rfl | rfl | rfl | rfl <;> rfl

/-- **A sign is one token**, if nothing behind it belongs to it. -/
theorem takes_of_isSign (h : IsSign cs) (hends : EndsSign cs rest) :
    Takes cs [(.operator, String.ofList cs)] rest := by
  have hno : ∀ {p : Char → Bool}, p ' ' = false → p ')' = false → p '.' = false →
      ∀ d ds, rest = d :: ds → ¬ p d := by
    intro p hspace hbracket hdot d ds hcons
    rcases hends d ds hcons with rfl | rfl | ⟨rfl, -⟩
    · simp [hspace]
    · simp [hbracket]
    · simp [hdot]
  -- behind a dot or a question mark there is no dot
  have hmark : cs = ['.'] ∨ cs = ['?'] → ∀ d ds, rest = d :: ds → d = ' ' ∨ d = ')' := by
    intro hcs d ds hcons
    rcases hends d ds hcons with hd | hd | ⟨-, hdot, hquestion⟩
    · exact .inl hd
    · exact .inr hd
    · exact (hcs.elim hdot hquestion).elim
  cases h with
  | pair hc =>
    refine takes_one (stepRoot_of_pair hc) ?_
    rcases hc with rfl | rfl
    · exact hno rfl rfl rfl
    · exact hno rfl rfl rfl
  | pairs hc => exact takes_two (stepRoot_of_pair hc) (beq_self_eq_true _) _
  | single hc => exact takes_sign (stepRoot_of_single hc) _
  | double hc => exact takes_one (stepRoot_of_double hc) (hno rfl rfl rfl)
  | doubles hc hd => exact takes_two (stepRoot_of_double hc) hd _
  | dot =>
    refine takes_dot fun d ds hcons => ?_
    rcases hmark (.inl rfl) d ds hcons with rfl | rfl <;> decide
  | dots => exact takes_dots _
  | mark =>
    refine takes_mark fun d ds hcons => ?_
    rcases hmark (.inr rfl) d ds hcons with rfl | rfl <;> decide
  | marks hc => exact takes_marks hc _
  | slash =>
    refine takes_slash fun d ds hcons => ?_
    rcases hends d ds hcons with rfl | rfl | ⟨rfl, -⟩ <;> decide
  | pointer =>
    refine takes_pointer (.inl rfl) fun d ds hcons => ?_
    rcases hends d ds hcons with rfl | rfl | ⟨rfl, -⟩ <;> decide
  | pointers =>
    refine takes_pointer (.inr rfl) fun d ds hcons => ?_
    rcases hends d ds hcons with rfl | rfl | ⟨rfl, -⟩ <;> decide

end Signs

/-- The binary operators that are no words. -/
def symbols : List String :=
  ["|", "||", "&&", "==", "!=", "<", ">", ">=", "<=", "..", "+", "-", "*", "/", "%", "**", "^", "??"]

theorem isSign_of_mem_symbols {symbol : String} (h : symbol ∈ symbols) : IsSign symbol.toList := by
  simp only [symbols, List.mem_cons, List.not_mem_nil, or_false] at h
  rcases h with rfl | rfl | rfl | rfl | rfl | rfl | rfl | rfl | rfl | rfl | rfl | rfl | rfl | rfl |
    rfl | rfl | rfl | rfl
  · exact .pair (.inl rfl)
  · exact .pairs (.inl rfl)
  · exact .doubles rfl rfl
  · exact .doubles rfl rfl
  · exact .doubles rfl rfl
  · exact .double rfl
  · exact .double rfl
  · exact .doubles rfl rfl
  · exact .doubles rfl rfl
  · exact .dots
  · exact .single rfl
  · exact .single rfl
  · exact .double rfl
  · exact .slash
  · exact .single rfl
  · exact .doubles rfl rfl
  · exact .single rfl
  · exact .marks (.inr rfl)

/-- **A symbol is one token**, in front of a space. -/
theorem takes_symbol {symbol : String} (h : symbol ∈ symbols) (rest : List Char) :
    Takes symbol.toList [(.operator, symbol)] (' ' :: rest) := by
  have hends : EndsSign symbol.toList (' ' :: rest) := by
    rintro d ds ⟨⟩
    exact .inl rfl
  have htakes := takes_of_isSign (isSign_of_mem_symbols h) hends
  rwa [String.ofList_toList] at htakes

/-! ### Numbers and quoted texts -/

theorem stepRoot_of_isDigit {c : Char} (h : c.isDigit) (s : Scanner) :
    s.stepRoot c = (.number, s) := by
  have hword := Text.isWordChar_of_isDigit h
  have hblank : ¬ Text.isBlank c := fun hblank => by
    rw [Text.isWordChar_of_isBlank hblank] at hword
    cases hword
  have hno : ∀ d, d.isDigit = false → ¬ (c == d) := by
    intro d hd hcd
    rw [eq_of_beq hcd, hd] at h
    cases h
  rw [stepRoot, if_neg hblank, if_neg, if_neg (hno _ rfl), if_pos h]
  rw [Bool.or_eq_true]
  exact fun hquote => hquote.elim (hno _ rfl) (hno _ rfl)

/-- Whatever a digit starts becomes a number, perhaps a faulty one. -/
theorem step_number_spec (s : Scanner) : ∃ t token, s.step .number = (.root, t) ∧ t.lexeme = [] ∧
    t.tokens = token :: s.tokens ∧ token.kind = .number := by
  obtain ⟨n, hn⟩ := s.readNumber_eq_read
  have htokens : s.readNumber.1.tokens = s.tokens := by rw [hn, read_tokens]
  simp only [step]
  rw [← htokens]
  split_ifs
  · exact ⟨_, _, rfl, rfl, rfl, rfl⟩
  · exact ⟨_, _, rfl, rfl, rfl, rfl⟩

theorem stepRoot_quote (s : Scanner) : s.stepRoot '"' = (.root, s.readQuoted '"') := rfl

/-- The end of a text, or a space or a bracket behind a piece of it. -/
def EndsPiece (rest : List Char) : Prop :=
  ∀ c ds, rest = c :: ds → c = ' ' ∨ c = ')'

/-- Neither a fraction nor an exponent is behind a number that ends. -/
theorem readFraction_of_endsPiece {base : Nat} (h : EndsPiece s.rest) :
    s.readFraction base = (s, true) := by
  obtain ⟨rest, lexeme, start, here, tokens, fault⟩ := s
  cases rest with
  | nil => rfl
  | cons c cs => rcases h c cs rfl with rfl | rfl <;> rfl

theorem EndsPiece.endsWord (h : EndsPiece rest) : EndsWord rest := by
  intro c ds hrest
  rcases h c ds hrest with rfl | rfl <;> decide

/-- The characters of a number may stand in words. -/
theorem isWordChar_of_isNumeralChar {base : Nat} {c : Char} (h : isNumeralChar base c) :
    Text.isWordChar c := by
  rw [isNumeralChar, Bool.or_eq_true, beq_iff_eq] at h
  rcases h with h | rfl
  · exact Text.isWordChar_of_isDigitOf h
  · decide

/-- The digits of a number end where a word would. -/
theorem takeWhile_numerals {base : Nat} (hcs : ∀ c ∈ cs, isNumeralChar base c)
    (hends : EndsWord rest) : (cs ++ rest).takeWhile (isNumeralChar base) = cs := by
  rw [List.takeWhile_append_of_pos hcs]
  cases rest with
  | nil => simp
  | cons d ds =>
    have hd : ¬ isNumeralChar base d := fun hd => hends d ds rfl (isWordChar_of_isNumeralChar hd)
    rw [List.takeWhile_cons_of_neg hd, List.append_nil]

/-- Behind the mark of its base the digits of a number are read. -/
theorem readWhile_of_readBase {base n : Nat} (hbehind : (s.read n).rest = cs ++ rest)
    (hcs : ∀ c ∈ cs, isNumeralChar base c) (hends : EndsWord rest) :
    (s.read n).readWhile (isNumeralChar base) = s.read (n + cs.length) ∧
      (s.read (n + cs.length)).rest = rest := by
  constructor
  · rw [readWhile, hbehind, takeWhile_numerals hcs hends, read_read]
  · rw [← read_read, read_rest, hbehind, List.drop_left]

/-- Behind the mark of its base a number is read to the end of the piece. -/
theorem readNumber_of_readBase {base n : Nat} (hbase : s.readBase = (s.read n, base))
    (hbehind : (s.read n).rest = cs ++ rest) (hcs : ∀ c ∈ cs, isNumeralChar base c)
    (hends : EndsPiece rest) : s.readNumber = (s.read (n + cs.length), true) := by
  obtain ⟨hread, hleft⟩ := readWhile_of_readBase hbehind hcs hends.endsWord
  rw [readNumber_eq, hbase]
  dsimp only
  rw [hread]
  exact readFraction_of_endsPiece (by rwa [hleft])

/-- No decimal digit is the letter of a base, nor is what ends a word. -/
theorem baseOfLetter?_eq_none {c : Char} (h : isNumeralChar 10 c ∨ ¬ Text.isWordChar c) :
    baseOfLetter? c = none := by
  have hno : ∀ letter, ¬ (isNumeralChar 10 letter ∨ ¬ Text.isWordChar letter) →
      (c == letter) = false := fun letter hletter => beq_false_of_ne fun hc => hletter (hc ▸ h)
  rw [baseOfLetter?, hno 'x' (by decide), hno 'X' (by decide), hno 'o' (by decide),
    hno 'O' (by decide), hno 'b' (by decide), hno 'B' (by decide)]
  rfl

/-- A decimal number marks no base. -/
theorem readBase_of_numerals (hrest : s.rest = cs ++ rest) (hne : cs ≠ [])
    (hcs : ∀ c ∈ cs, isNumeralChar 10 c) (hends : EndsWord rest) : s.readBase = (s, 10) := by
  obtain ⟨c, cs, rfl⟩ := List.exists_cons_of_ne_nil hne
  have hletter : ∀ d ds, cs ++ rest = d :: ds → baseOfLetter? d = none := by
    intro d ds hcons
    refine baseOfLetter?_eq_none ?_
    rcases List.append_eq_cons_iff.mp hcons with ⟨-, hrest⟩ | ⟨cs, rfl, -⟩
    · exact .inr (hends d ds hrest)
    · exact .inl (hcs d (.tail _ (.head _)))
  rw [readBase, hrest]
  split
  · next d ds hcons =>
    injection hcons with _ hcons
    rw [hletter d ds hcons]
  · rfl

/-- **A number is read to the end** from each of its spellings. -/
theorem readNumber_of_spells {base value : Nat} (h : Numeral.Spells base cs value)
    (hrest : s.rest = cs ++ rest) (hends : EndsPiece rest) :
    s.readNumber = (s.read cs.length, true) := by
  have hnumerals : ∀ {base value ds}, Numeral.Denotes base ds value →
      ∀ c ∈ ds, isNumeralChar base c := by
    intro base value ds hdenotes c hc
    rw [isNumeralChar, Bool.or_eq_true, beq_iff_eq]
    exact hdenotes.numerals c hc
  cases h with
  | decimal _ h =>
    have hbase := readBase_of_numerals hrest (List.cons_ne_nil _ _) (hnumerals h)
      hends.endsWord
    rw [readNumber_of_readBase (n := 0) (by rwa [read_zero]) (by rwa [read_zero]) (hnumerals h)
      hends, Nat.zero_add]
  | @marked base value mark cs hmark _ h =>
    have hbase : s.readBase = (s.read 2, base) := by
      have hletter : baseOfLetter? mark = some base := by
        simp only [Numeral.baseMarks, List.mem_cons, List.not_mem_nil, or_false,
          Prod.mk.injEq] at hmark
        rcases hmark with h | h | h | h | h | h <;> obtain ⟨rfl, rfl⟩ := h <;> rfl
      simp only [readBase, hrest, List.cons_append, hletter]
    have hbehind : (s.read 2).rest = cs ++ rest := by
      rw [read_rest, hrest]
      rfl
    rw [readNumber_of_readBase hbase hbehind (hnumerals h) hends, List.length_cons,
      List.length_cons, Nat.add_comm 2]

/-- A spelling starts with an ASCII digit. -/
theorem exists_isDigit_of_spells {base value : Nat} (h : Numeral.Spells base cs value) :
    ∃ c ds, cs = c :: ds ∧ c.isDigit := by
  cases h with
  | decimal hdigit _ => exact ⟨_, _, rfl, hdigit⟩
  | marked => exact ⟨_, _, rfl, rfl⟩

/-- **A number becomes a token**, whichever way it is spelled. -/
theorem finish_of_spells {base value : Nat} (h : Numeral.Spells base cs value)
    (hlexeme : s.lexeme = []) (hrest : s.rest = cs ++ rest) (hends : EndsPiece rest) :
    finish .root s = finish .root ((s.read cs.length).emit .number) := by
  obtain ⟨c, ds, hcons, hc⟩ := exists_isDigit_of_spells h
  have hhead : s.rest = c :: (ds ++ rest) := by rw [hrest, hcons, List.cons_append]
  have hready : Ready .number s := ⟨.inl hlexeme, c, _, hhead, hc⟩
  rw [finish_root hlexeme hhead (stepRoot_of_isDigit hc s), finish_step hready nofun]
  simp only [step, readNumber_of_spells h hrest hends]
  rfl

/-- The decimal digits of a number are one token. -/
theorem takes_number (n : Nat) (hends : EndsPiece rest) :
    Takes (toString (n : Int)).toList [(.number, toString (n : Int))] rest := by
  have hchars : String.ofList (Nat.toDigits 10 n) = toString (n : Int) := by
    rw [← Numeral.toList_toString, String.ofList_toList]
  rw [Numeral.toList_toString, ← hchars]
  exact takes_of_emit fun s hlexeme hrest =>
    finish_of_spells (Numeral.spells_toDigits n) hlexeme hrest hends

/-- A quoted text becomes a token, and there is a fault if it is not closed. -/
theorem readQuoted_spec (s : Scanner) (quote : Char) :
    ∃ token : Token, (s.readQuoted quote).tokens = token :: s.tokens ∧
      token.value = String.ofList (Text.Quoted.read quote (s.read 1).here (s.read 1).rest).value ∧
      ((Text.Quoted.read quote (s.read 1).here (s.read 1).rest).closed = false →
        (s.readQuoted quote).fault ≠ none) := by
  unfold readQuoted
  dsimp only
  generalize Text.Quoted.read quote (s.read 1).here (s.read 1).rest = quoted
  have hnote : ∀ t : Scanner, ((t.note .unterminatedLiteral).emitValue .string quoted.value).fault
      ≠ none := fun t => fault_note_ne_none t _
  cases quoted.fault with
  | none =>
    split_ifs with hclosed
    · exact ⟨_, rfl, rfl, fun h => absurd hclosed (by simp [h])⟩
    · exact ⟨_, rfl, rfl, fun _ => hnote _⟩
  | some location =>
    split_ifs with hclosed
    · exact ⟨_, rfl, rfl, fun h => absurd hclosed (by simp [h])⟩
    · exact ⟨_, rfl, rfl, fun _ => hnote _⟩

/-- A text between double quotes is one token, if it is read without a fault and up to its closing
quote. -/
theorem takes_quoted {body value : List Char} (hread : ∀ here, Text.Quoted.read '"' here
    (body ++ '"' :: rest) = ⟨value, body.length + 1, true, none⟩) :
    Takes ('"' :: (body ++ ['"'])) [(.string, String.ofList value)] rest := by
  refine takes_of_emitValue fun s hlexeme hrest => ?_
  have hbehind : (s.read 1).rest = body ++ '"' :: rest := by
    rw [read_rest, hrest]
    simp
  have hquoted : s.readQuoted '"' = (s.read (body.length + 2)).emitValue .string value := by
    simp only [readQuoted, hbehind, hread, read_read]
    rw [if_pos trivial, Nat.add_comm 1]
  rw [finish_root hlexeme hrest (stepRoot_quote s), hquoted]
  simp

/-- **A quoted text is one token.** -/
theorem takes_quote (text : String) (rest : List Char) :
    Takes (Text.quote text).toList [(.string, text)] rest := by
  have hchars : (Text.quote text).toList =
      '"' :: (text.toList.flatMap Text.quoteChar ++ ['"']) := by
    rw [Text.quote, String.toList_ofList, List.cons_append]
  have htakes := takes_quoted (Text.read_quoteChars text.toList rest)
  rwa [String.ofList_toList, ← hchars] at htakes

end Scanner

end FilterLang
