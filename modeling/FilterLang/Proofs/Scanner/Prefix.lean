import FilterLang.Proofs.Scanner.Abreast
import FilterLang.Proofs.Scanner.Words

/-!
# The tokens in front of a column

The tokens that are complete at a column do not depend on what is behind the column.

* `extend_readQuoted`, `extend_readRaw`, `extend_blockComment`, ... — what ends within a text is the
  same with more text behind.
* `Before.readNumber`, `Before.meets_quoted`, `Before.meets_raw`, `blockComment_append` — what is
  read of a number, a quoted text or a comment is the same with more text behind, or it goes up to
  the end of the first text.
* `Before.meets_step` — the step lemma: a step of both runs leads to the same state, or they end
  with the same complete tokens.
* `Before.shown_finish` — the run lemma, by induction on the measure of the machine.
* `tokensUntil_append` — the tokens in front of the end of the first text.
-/

namespace FilterLang.Scanner

open Cursor Text

variable {c : Nat} {q : List Char} {V : List Token} {s t t' : Scanner} {phase : Phase}

/-! ### Numbers -/

section Numbers

variable {base : Nat}

/-- Reads a point and the digits behind it, if there is one. -/
def readPoint (base : Nat) (s : Scanner) : Scanner :=
  if s.rest.head? == some '.' then (s.read 1).readWhile (isNumeralChar base) else s

/-- Takes a character along if a word is right behind a number. -/
def readClash (s : Scanner) : Scanner × Bool :=
  if s.rest.head?.any Text.isWordChar then (s.read 1, false) else (s, true)

theorem readPoint_eq_read (base : Nat) (s : Scanner) : ∃ n, s.readPoint base = s.read n := by
  unfold readPoint
  split_ifs
  · exact ⟨_, by rw [readWhile, read_read]⟩
  · exact ⟨0, read_zero.symm⟩

theorem readClash_eq_read (s : Scanner) : ∃ n, s.readClash.1 = s.read n := by
  unfold readClash
  split_ifs
  · exact ⟨1, rfl⟩
  · exact ⟨0, read_zero.symm⟩

theorem readBase_of_ne {d : Char} {ds : List Char} (hrest : s.rest = d :: ds) (hd : d ≠ '0') :
    s.readBase = (s, 10) := by
  unfold readBase
  split
  · rename_i hzero
    rw [hrest] at hzero
    exact absurd (List.cons_eq_cons.mp hzero).1 hd
  · rfl

/-- The mark of a base is told by its two characters. -/
theorem extend_readBase {d e : Char} {es : List Char} (q : List Char)
    (hrest : s.rest = d :: e :: es) :
    (s.extend q).readBase = s.readBase.map (extend q) id := by
  have hrest' : (s.extend q).rest = d :: e :: (es ++ q) := extend_rest q hrest
  have htwo : (s.extend q).read 2 = (s.read 2).extend q := extend_read q (by simp [hrest])
  by_cases hzero : d = '0'
  · subst hzero
    simp only [readBase, hrest, hrest']
    cases baseOfLetter? e with
    | none => rfl
    | some base => exact congrArg (·, base) htwo
  · rw [readBase_of_ne hrest hzero, readBase_of_ne hrest' hzero]
    rfl

theorem readFraction_of_dots {ds : List Char} (h : s.rest = '.' :: '.' :: ds) :
    s.readFraction base = (s, true) := by
  simp only [readFraction, h]

theorem readFraction_of_not_dots (h : ∀ ds, s.rest ≠ '.' :: '.' :: ds) :
    s.readFraction base = ((s.readPoint base).readExponent base).readClash := by
  unfold readFraction
  split
  · rename_i hrest
    exact absurd hrest (h _)
  · rfl

theorem Abreast.readPoint (h : Abreast c q t t') :
    Abreast c q (t.readPoint base) (t'.readPoint base) := by
  refine h.reading (readPoint_eq_read base) fun d ds h hrest hrest' => ?_
  simp only [Scanner.readPoint, hrest, hrest', List.head?_cons]
  split_ifs
  · rw [(h.read_one hrest).2]
    exact (Abreast.level (h.read_one hrest).1).readWhile _
  · exact .level h

theorem Abreast.readExponent (h : Abreast c q t t') :
    Abreast c q (t.readExponent base) (t'.readExponent base) := by
  refine h.reading (fun s => s.readExponent_eq_read base) fun d ds h hrest hrest' => ?_
  simp only [Scanner.readExponent, hrest, hrest']
  split_ifs
  · rw [(h.read_one hrest).2]
    exact ((Abreast.level (h.read_one hrest).1).readOne _).readWhile _
  · exact .level h

/-- Two runs have read a number to the same place with the same verdict, or both up to the end. -/
def Numbered (c : Nat) (q : List Char) (r r' : Scanner × Bool) : Prop :=
  r' = (r.1.extend q, r.2) ∨ ∃ V, Past c V r.1 ∧ Past c V r'.1

/-- The character behind a number tells whether a word follows. -/
theorem extend_readClash {d : Char} {ds : List Char} (hrest : s.rest = d :: ds) (q : List Char) :
    (s.extend q).readClash = s.readClash.map (extend q) id := by
  have hrest' : (s.extend q).rest = d :: (ds ++ q) := extend_rest q hrest
  have hone : (s.extend q).read 1 = (s.read 1).extend q := extend_read q (by simp [hrest])
  rw [readClash, readClash, hrest, hrest', hone, List.head?_cons, List.head?_cons]
  split_ifs
  · rfl
  · rfl

theorem Abreast.readClash (h : Abreast c q t t') : Numbered c q t.readClash t'.readClash := by
  have hpast : ∀ {V s}, Past c V s → Past c V s.readClash.1 :=
    fun hs => hs.of_read (readClash_eq_read _)
  cases h with
  | past h h' => exact .inr ⟨_, hpast h, hpast h'⟩
  | level h =>
    cases hrest : t.rest with
    | nil =>
      obtain ⟨hs, hs'⟩ := h.past_of_nil hrest
      exact .inr ⟨_, hpast hs, hpast hs'⟩
    | cons d ds => exact .inl (extend_readClash hrest q)

theorem Abreast.readFraction (h : Abreast c q t t') :
    Numbered c q (t.readFraction base) (t'.readFraction base) := by
  have hpast : ∀ {V s}, Past c V s → Past c V (s.readFraction base).1 :=
    fun hs => hs.of_read (readFraction_eq_read base)
  cases h with
  | past h h' => exact .inr ⟨_, hpast h, hpast h'⟩
  | level h =>
    cases hrest : t.rest with
    | nil =>
      obtain ⟨hs, hs'⟩ := h.past_of_nil hrest
      exact .inr ⟨_, hpast hs, hpast hs'⟩
    | cons d ds =>
      have hrest' : (t.extend q).rest = d :: (ds ++ q) := extend_rest q hrest
      by_cases hdots : ∃ es, t.rest = '.' :: '.' :: es
      · obtain ⟨es, hes⟩ := hdots
        have hes' : (t.extend q).rest = '.' :: '.' :: (es ++ q) := by
          rw [extend, hes, List.cons_append, List.cons_append]
        rw [readFraction_of_dots hes, readFraction_of_dots hes']
        exact .inl rfl
      · have hdots' : ∀ es, (t.extend q).rest ≠ '.' :: '.' :: es := by
          intro es hes
          rw [hrest'] at hes
          obtain ⟨rfl, htail⟩ := List.cons_eq_cons.mp hes
          cases ds with
          | nil =>
            have hq : q.head? = some '.' := by rw [← List.nil_append q, htail, List.head?_cons]
            exact (h.undivided (by rw [hrest]; rfl) '.' hq).1 rfl
          | cons e ds =>
            obtain ⟨rfl, -⟩ := List.cons_eq_cons.mp htail
            exact hdots ⟨ds, hrest⟩
        rw [readFraction_of_not_dots (not_exists.mp hdots), readFraction_of_not_dots hdots']
        exact (Abreast.level h).readPoint.readExponent.readClash

/-- A number is read the same way with more text behind, or up to the end both times. -/
theorem Before.readNumber (h : Before c q s) {d : Char} {ds : List Char} (hrest : s.rest = d :: ds)
    (hd : d.isDigit) : Numbered c q s.readNumber (s.extend q).readNumber := by
  have hrest' : (s.extend q).rest = d :: (ds ++ q) := extend_rest q hrest
  cases ds with
  | nil =>
    -- a number takes one character at least
    obtain ⟨n, hn⟩ := s.readNumber_eq_read
    obtain ⟨n', hn'⟩ := (s.extend q).readNumber_eq_read
    have hlen := length_readNumber_rest hrest hd
    have hlen' := length_readNumber_rest hrest' hd
    rw [hn, read_rest, List.length_drop, hrest] at hlen
    rw [hn', read_rest, List.length_drop, hrest'] at hlen'
    simp only [List.length_cons, List.length_nil, List.nil_append] at hlen hlen'
    obtain ⟨hpast, hpast'⟩ : Past c (s.shown c) (s.read n) ∧
        Past c (s.shown c) ((s.extend q).read n') := by
      refine h.past_read ?_ ?_
      · rw [hrest, List.length_singleton]
        omega
      · rw [hrest, List.length_singleton]
        omega
    exact .inr ⟨_, hn ▸ hpast, hn' ▸ hpast'⟩
  | cons e es =>
    have hlevel : Before c q s.readBase.1 := by
      obtain ⟨n, hn⟩ := s.readBase_eq_read
      rw [hn]
      exact (stable_before c q).read h n
    rw [readNumber_eq, readNumber_eq, extend_readBase q hrest]
    exact ((Abreast.level hlevel).readWhile _).readFraction

end Numbers

/-! ### Quoted texts, comments and words -/

/-- A closed comment is the same one in front of more text, and one that is not closed takes
everything. -/
theorem blockComment_append (cs q : List Char) :
    blockComment (cs ++ q) = blockComment cs ∧ (blockComment cs).1 ≤ cs.length ∨
      (blockComment cs).2 = false ∧ cs.length ≤ (blockComment cs).1 ∧
        cs.length ≤ (blockComment (cs ++ q)).1 := by
  fun_induction blockComment cs with
  | case1 => exact .inr ⟨rfl, Nat.zero_le _, Nat.zero_le _⟩
  | case2 cs => exact .inl ⟨rfl, by simp⟩
  | case3 d cs hne ih =>
    cases cs with
    | nil =>
      refine .inr ⟨rfl, by simp [blockComment], ?_⟩
      rw [List.cons_append, List.nil_append]
      by_cases hclosed : ∃ es, d = '*' ∧ q = '/' :: es
      · obtain ⟨es, rfl, rfl⟩ := hclosed
        simp [blockComment]
      · rw [blockComment.eq_3 d q fun es hd hq => hclosed ⟨es, hd, hq⟩]
        simp
    | cons e es =>
      have hne' : ∀ tail, d = '*' → e :: es ++ q = '/' :: tail → False := by
        rintro tail hd htail
        obtain ⟨rfl, -⟩ := List.cons_eq_cons.mp htail
        exact hne es hd rfl
      rw [List.cons_append, blockComment.eq_3 d _ hne']
      rcases ih with ⟨heq, hle⟩ | ⟨hopen, hle, hle'⟩
      · exact .inl ⟨by rw [heq], Nat.succ_le_succ hle⟩
      · exact .inr ⟨hopen, Nat.succ_le_succ hle, Nat.succ_le_succ hle'⟩

section Tokens

variable {d : Char} {ds : List Char}

/-- Notes what is wrong with a quoted text. -/
def noteQuoted (quoted : Quoted) (s : Scanner) : Scanner :=
  let s := match quoted.fault with
    | some location => s.noteAt location .invalidEscape
    | none => s
  if quoted.closed then s else s.note .unterminatedLiteral

theorem readQuoted_eq (quote : Char) (s : Scanner) :
    let quoted := Quoted.readFrom quote (s.read 1).here 0 (s.read 1).rest
    s.readQuoted quote =
      (((s.read 1).read quoted.length).noteQuoted quoted).emitValue .string quoted.value :=
  rfl

theorem extend_noteQuoted (quoted : Quoted) (s : Scanner) :
    (s.extend q).noteQuoted quoted = (s.noteQuoted quoted).extend q := by
  obtain ⟨value, length, closed, fault⟩ := quoted
  cases fault <;> cases closed <;> rfl

theorem Past.noteQuoted (h : Past c V s) (quoted : Quoted) : Past c V (s.noteQuoted quoted) := by
  obtain ⟨value, length, closed, fault⟩ := quoted
  cases fault with
  | none =>
    cases closed with
    | false => exact h.noteAt _ _
    | true => exact h
  | some location =>
    cases closed with
    | false => exact (h.noteAt _ _).noteAt _ _
    | true => exact h.noteAt _ _

/-- A quoted text that ends within the text is the same token in front of more text. -/
theorem extend_readQuoted (hrest : s.rest = d :: ds) (quote : Char)
    (hends : let quoted := Quoted.readFrom quote (s.read 1).here 0 (s.read 1).rest
      Quoted.readFrom quote (s.read 1).here 0 ((s.read 1).rest ++ q) = quoted ∧
        quoted.length ≤ (s.read 1).rest.length) :
    (s.extend q).readQuoted quote = (s.readQuoted quote).extend q := by
  obtain ⟨heq, hle⟩ := hends
  have hone : (s.extend q).read 1 = (s.read 1).extend q := extend_read q (by simp [hrest])
  have hhere : ((s.read 1).extend q).here = (s.read 1).here := rfl
  have hbehind : ((s.read 1).extend q).rest = (s.read 1).rest ++ q := rfl
  rw [readQuoted_eq, readQuoted_eq, hone, hhere, hbehind, heq, extend_read q hle, extend_noteQuoted]
  rfl

theorem Before.meets_quoted (h : Before c q s) (hrest : s.rest = d :: ds) (quote : Char) :
    Meets c q (.root, s.readQuoted quote) (.root, (s.extend q).readQuoted quote) := by
  obtain ⟨hone, hextend⟩ := h.read_one hrest
  have hopen : ∀ value, Open .string value := fun value => open_of_kind value nofun nofun
  rcases Quoted.readFrom_append quote (s.read 1).here 0 (s.read 1).rest q with
    hends | ⟨-, hle, hle'⟩
  · exact .inl (congrArg (Phase.root, ·) (extend_readQuoted hrest quote hends))
  · obtain ⟨hs, hs'⟩ := hone.past_read hle hle'
    rw [readQuoted_eq, readQuoted_eq, hextend]
    exact .inr ⟨_, (hs.noteQuoted _).ends_emitValue (hopen _),
      (hs'.noteQuoted _).ends_emitValue (hopen _)⟩

/-- A raw text that is closed within the text is the same token in front of more text. -/
theorem extend_readRaw (hrest : s.rest = d :: ds)
    (hclosed : ((s.read 1).rest.takeWhile (· != '\x60')).length < (s.read 1).rest.length) :
    (s.extend q).readRaw = s.readRaw.extend q := by
  have hone : (s.extend q).read 1 = (s.read 1).extend q := extend_read q (by simp [hrest])
  have hbehind : ((s.read 1).extend q).rest = (s.read 1).rest ++ q := rfl
  have hsame : ((s.read 1).rest ++ q).takeWhile (· != '\x60') =
      (s.read 1).rest.takeWhile (· != '\x60') := by
    rw [List.takeWhile_append, if_neg (by omega)]
  have hclosed' : ((s.read 1).rest.takeWhile (· != '\x60')).length <
      ((s.read 1).rest ++ q).length := by
    rw [List.length_append]
    omega
  rw [readRaw, readRaw, hone, hbehind, hsame, if_pos hclosed, if_pos hclosed',
    extend_read q hclosed]
  rfl

theorem Before.meets_raw (h : Before c q s) (hrest : s.rest = d :: ds) :
    Meets c q (.root, s.readRaw) (.root, (s.extend q).readRaw) := by
  obtain ⟨hone, hextend⟩ := h.read_one hrest
  have hopen : ∀ value, Open .string value := fun value => open_of_kind value nofun nofun
  have hbehind : ((s.read 1).extend q).rest = (s.read 1).rest ++ q := rfl
  have hreach := sameReach_takeWhile (· != '\x60') (s.read 1).rest q
  rcases Nat.lt_or_ge ((s.read 1).rest.takeWhile (· != '\x60')).length (s.read 1).rest.length with
    hlt | hge
  · exact .inl (congrArg (Phase.root, ·) (extend_readRaw hrest hlt))
  · have hge' : (s.read 1).rest.length ≤
        (((s.read 1).rest ++ q).takeWhile (· != '\x60')).length := by
      rcases hreach with h | h
      · omega
      · exact h.2
    have hpast := (hone.past_read hge hge').1
    have hpast' : ∀ n, (s.read 1).rest.length ≤ n →
        Past c ((s.read 1).shown c) (((s.read 1).extend q).read n) :=
      fun n hn => (hone.past_read hge hn).2
    rw [readRaw, readRaw, hextend, hbehind, if_neg (by omega)]
    refine .inr ⟨_, (hpast.noteAt _ _).ends_emitValue (hopen _), ?_⟩
    split_ifs
    · exact (hpast' _ (by omega)).ends_emitValue (hopen _)
    · exact ((hpast' _ hge').noteAt _ _).ends_emitValue (hopen _)

/-- Makes a token of the word that has been read. -/
def closeWord (s : Scanner) : Phase × Scanner :=
  let word := String.ofList s.lexeme
  if word == "not" then (.not, s)
  else if Operator.isOperatorWord word then (.root, s.emit .operator)
  else (.root, s.emit .identifier)

theorem step_identifier (s : Scanner) :
    s.step .identifier = (s.readWhile isWordChar).closeWord := rfl

theorem extend_closeWord (q : List Char) (s : Scanner) :
    (s.extend q).closeWord = s.closeWord.map id (extend q) := by
  have hlexeme : (s.extend q).lexeme = s.lexeme := rfl
  rw [closeWord, closeWord, hlexeme]
  split_ifs
  · rfl
  · rfl
  · rfl

/-- A word that reaches the column is not complete there. -/
theorem Past.ends_word (h : Past c V s) (hdot : s.lexeme.head? ≠ some '.') :
    Ends c V s.closeWord := by
  rw [closeWord]
  split_ifs with hnot hoperator
  · have hlexeme : s.lexeme = "not".toList := by
      rw [← eq_of_beq hnot, String.toList_ofList]
    show (finish .not s).shown c = V
    rw [finish_not hlexeme]
    exact h.ends_emitValue (open_operator hdot)
  · exact h.ends_emitValue (open_operator hdot)
  · exact h.ends_emitValue (open_of_kind _ nofun nofun)

theorem Abreast.meets_word (h : Abreast c q t t') (hdot : t.lexeme.head? ≠ some '.')
    (hdot' : t'.lexeme.head? ≠ some '.') : Meets c q t.closeWord t'.closeWord := by
  cases h with
  | past h h' => exact .inr ⟨_, h.ends_word hdot, h'.ends_word hdot'⟩
  | level h => exact .inl (extend_closeWord q t)

/-! ### The step of two runs -/

theorem Ready.extend (h : Ready phase s) (hp : phase ≠ .done) (q : List Char) :
    Ready phase (s.extend q) := by
  cases phase with
  | done => exact absurd rfl hp
  | number =>
    obtain ⟨hlexeme, d, ds, hrest, hd⟩ := h
    exact ⟨hlexeme, d, ds ++ q, extend_rest q hrest, hd⟩
  | dot =>
    obtain ⟨hlexeme, ds, hrest⟩ := h
    exact ⟨hlexeme, ds ++ q, extend_rest q hrest⟩
  | identifier =>
    obtain ⟨hlexeme, d, ds, hrest, hd⟩ := h
    exact ⟨hlexeme, d, ds ++ q, extend_rest q hrest, hd⟩
  | _ => exact h

theorem head?_readOne (h : s.lexeme = d :: ds) (p : Char → Bool) :
    (s.readOne p).lexeme.head? = some d := by
  obtain ⟨n, hn⟩ := s.readOne_eq_read p
  rw [hn, read_lexeme, h]
  rfl

theorem Before.meets_root (h : Before c q s) (hlexeme : s.lexeme = []) (hrest : s.rest = d :: ds) :
    Meets c q (s.stepRoot d) ((s.extend q).stepRoot d) := by
  obtain ⟨hone, hextend⟩ := h.read_one hrest
  have hlex : (s.read 1).lexeme = [d] := by simp [hlexeme, hrest]
  have hopen : d ≠ '.' → ∀ p, Open .operator ((s.read 1).readOne p).lexeme ∧
      Open .operator (((s.read 1).extend q).readOne p).lexeme := by
    intro hd p
    refine ⟨open_operator ?_, open_operator ?_⟩
    · rw [head?_readOne hlex]
      simpa using hd
    · rw [head?_readOne (s := (s.read 1).extend q) hlex]
      simpa using hd
  have hblank : Meets c q (.root, (s.readWhile isBlank).emit .whitespace)
      (.root, ((s.extend q).readWhile isBlank).emit .whitespace) :=
    ((Abreast.level h).readWhile _).meets_emit (open_of_kind _ nofun nofun)
      (open_of_kind _ nofun nofun)
  have htwo : d ≠ '.' → ∀ p, Meets c q (.root, ((s.read 1).readOne p).emit .operator)
      (.root, (((s.read 1).extend q).readOne p).emit .operator) := fun hd p =>
    ((Abreast.level hone).readOne p).meets_emit (hopen hd p).1 (hopen hd p).2
  unfold stepRoot
  rw [hextend]
  refine rel_ite (fun _ => hblank) fun _ => ?_
  refine rel_ite (fun _ => h.meets_quoted hrest d) fun _ => ?_
  refine rel_ite (fun _ => h.meets_raw hrest) fun _ => ?_
  refine rel_ite (fun _ => .inl rfl) fun _ => ?_
  refine rel_ite (fun _ => .inl rfl) fun _ => ?_
  refine rel_ite (fun _ => .inl rfl) fun _ => ?_
  refine rel_ite (fun _ => .inl rfl) fun _ => ?_
  refine rel_ite (fun hpair => htwo ?_ _) fun _ => ?_
  · rintro rfl
    exact absurd hpair (by decide)
  refine rel_ite (fun _ => .inl rfl) fun _ => ?_
  refine rel_ite (fun _ => .inl rfl) fun _ => ?_
  refine rel_ite (fun hdouble => htwo ?_ _) fun _ => ?_
  · rintro rfl
    exact absurd hdouble (by decide)
  refine rel_ite (fun _ => .inl rfl) fun _ => ?_
  exact rel_ite (fun _ => .inl rfl) fun _ => .inl rfl

theorem Before.meets_number (h : Before c q s) (hrest : s.rest = d :: ds) (hd : d.isDigit) :
    Meets c q (s.step .number) ((s.extend q).step .number) := by
  have hends : ∀ {V} {r : Scanner × Bool} {fault}, Past c V r.1 →
      Ends c V (.root, (if r.2 then r.1 else r.1.note fault).emit .number) := by
    intro V r fault hr
    split_ifs
    · exact hr.ends_emitValue (open_of_kind _ nofun nofun)
    · exact (hr.noteAt _ _).ends_emitValue (open_of_kind _ nofun nofun)
  rcases h.readNumber hrest hd with heq | ⟨V, hs, hs'⟩
  · refine .inl ?_
    simp only [step, heq]
    split_ifs
    · rfl
    · rfl
  · exact .inr ⟨V, hends hs, hends hs'⟩

theorem Before.meets_dot (h : Before c q s) (hrest : s.rest = '.' :: ds) :
    Meets c q (s.step .dot) ((s.extend q).step .dot) := by
  obtain ⟨hone, hextend⟩ := h.read_one hrest
  have hbehind : (s.read 1).rest = ds := by rw [read_rest, hrest, List.drop_one, List.tail_cons]
  have hbehind' : ((s.read 1).extend q).rest = ds ++ q := by rw [extend, hbehind]
  simp only [step, hextend, hbehind, hbehind']
  cases ds with
  | nil =>
    -- a dot at the end of the text has neither a dot nor a digit behind it
    have hnone : ∀ e ∈ q.head?, e ≠ '.' ∧ ¬ e.isDigit := h.undivided (by rw [hrest]; rfl)
    have hdigit : q.head?.any Char.isDigit = false := by
      cases q with
      | nil => rfl
      | cons e es => simpa using (hnone e rfl).2
    have hdot : ((s.read 1).extend q).readOne (· == '.') = (s.read 1).extend q := by
      cases q with
      | nil => exact readOne_nil hbehind'
      | cons e es =>
        rw [readOne_cons hbehind', if_neg]
        simpa using (hnone e rfl).1
    rw [List.nil_append, hdigit, hdot, readOne_nil hbehind]
    exact .inl rfl
  | cons e es =>
    rw [extend_readOne q hbehind]
    exact rel_ite (fun _ => .inl rfl) fun _ => .inl rfl

theorem Past.ends_lineComment (h : Past c V s) (hr : Ready .lineComment s) :
    Ends c V (.lineComment, s) := by
  show (finish .lineComment s).shown c = V
  rw [finish_step hr nofun]
  exact (h.read _).ends_skip

theorem Past.ends_closeComment (h : Past c V s) (closed : Bool) :
    Ends c V (.root, (if closed then s else s.note .unclosedComment).skip) := by
  split_ifs
  · exact h.ends_skip
  · exact (h.noteAt _ _).ends_skip

theorem Past.ends_blockComment (h : Past c V s) (hr : Ready .blockComment s) :
    Ends c V (.blockComment, s) := by
  show (finish .blockComment s).shown c = V
  rw [finish_step hr nofun]
  exact (h.read _).ends_closeComment _

theorem Past.ends_slash (h : Past c V s) (hr : Ready .slash s) : Ends c V (s.step .slash) := by
  have hready := (step_nearer hr (by decide)).1
  have hlexeme : s.lexeme = ['/'] := hr
  simp only [step] at hready ⊢
  split
  · rename_i hrest
    simp only [hrest] at hready
    exact (h.read 1).ends_lineComment hready
  · rename_i hrest
    simp only [hrest] at hready
    exact (h.read 1).ends_blockComment hready
  · exact h.ends_emitValue (open_operator (by rw [hlexeme]; decide))

theorem step_slash_of_ne (hrest : s.rest = d :: ds) (hline : d ≠ '/') (hblock : d ≠ '*') :
    s.step .slash = (.root, s.emit .operator) := by
  simp only [step, hrest]
  split
  · exact absurd (List.cons_eq_cons.mp ‹_›).1 hline
  · exact absurd (List.cons_eq_cons.mp ‹_›).1 hblock
  · rfl

/-- What follows a slash is told by the character behind it. -/
theorem extend_slash (hrest : s.rest = d :: ds) (q : List Char) :
    (s.extend q).step .slash = (s.step .slash).map id (extend q) := by
  have hrest' : (s.extend q).rest = d :: (ds ++ q) := extend_rest q hrest
  have hone : (s.extend q).read 1 = (s.read 1).extend q := extend_read q (by simp [hrest])
  by_cases hline : d = '/'
  · subst hline
    simp only [step, hrest, hrest', hone]
    rfl
  · by_cases hblock : d = '*'
    · subst hblock
      simp only [step, hrest, hrest', hone]
      rfl
    · rw [step_slash_of_ne hrest hline hblock, step_slash_of_ne hrest' hline hblock]
      rfl

theorem Before.meets_slash (h : Before c q s) (hr : Ready .slash s) :
    Meets c q (s.step .slash) ((s.extend q).step .slash) := by
  cases hrest : s.rest with
  | nil =>
    obtain ⟨hs, hs'⟩ := h.past_of_nil hrest
    exact .inr ⟨_, hs.ends_slash hr, hs'.ends_slash (Ready.extend hr nofun q)⟩
  | cons d ds => exact .inl (extend_slash hrest q)

/-- A comment that ends within the text is the same one in front of more text. -/
theorem extend_blockComment (heq : blockComment (s.rest ++ q) = blockComment s.rest)
    (hle : (blockComment s.rest).1 ≤ s.rest.length) :
    (s.extend q).step .blockComment = (s.step .blockComment).map id (extend q) := by
  have hrest : (s.extend q).rest = s.rest ++ q := rfl
  simp only [step, hrest]
  rw [heq, extend_read q hle]
  split_ifs
  · rfl
  · rfl

theorem Before.meets_blockComment (h : Before c q s) :
    Meets c q (s.step .blockComment) ((s.extend q).step .blockComment) := by
  rcases blockComment_append s.rest q with ⟨heq, hle⟩ | ⟨-, hle, hle'⟩
  · exact .inl (extend_blockComment heq hle)
  · obtain ⟨hs, hs'⟩ := h.past_read hle hle'
    exact .inr ⟨_, hs.ends_closeComment _, hs'.ends_closeComment _⟩

/-- Makes a token of the name behind a pointer, if there is one. -/
def closeName (s : Scanner) : Scanner :=
  if s.lexeme.isEmpty then s else s.emit .identifier

theorem step_pointer (s : Scanner) : s.step .pointer =
    (.root, (((s.readOne (· == '#')).emit .operator).readWhile isWordChar).closeName) := rfl

theorem extend_closeName (q : List Char) (s : Scanner) :
    (s.extend q).closeName = s.closeName.extend q := by
  have hlexeme : (s.extend q).lexeme = s.lexeme := rfl
  rw [closeName, closeName, hlexeme]
  split_ifs
  · rfl
  · rfl

theorem Past.ends_closeName (h : Past c V s) : Ends c V (.root, s.closeName) := by
  rw [closeName]
  split_ifs with hempty
  · have hlexeme : s.lexeme = [] := List.isEmpty_iff.mp hempty
    have hspan : s.here.column = s.start.column := by rw [h.along.span, hlexeme]; rfl
    have hbehind : Behind c V s := ⟨h.along, hspan ▸ h.far, h.shows⟩
    exact hbehind.ends_root hlexeme
  · exact h.ends_emitValue (open_of_kind _ nofun nofun)

theorem Before.meets_pointer (h : Before c q s) (hr : Ready .pointer s) :
    Meets c q (s.step .pointer) ((s.extend q).step .pointer) := by
  have hlexeme : s.lexeme = ['#'] := hr
  have hopen : ∀ t : Scanner, t.lexeme = ['#'] →
      Open .operator (t.readOne (· == '#')).lexeme := by
    intro t ht
    refine open_operator ?_
    rw [head?_readOne ht]
    nofun
  rw [step_pointer, step_pointer]
  generalize hu : s.readOne (· == '#') = u
  generalize hu' : (s.extend q).readOne (· == '#') = u'
  have habreast : Abreast c q u u' := hu ▸ hu' ▸ (Abreast.level h).readOne _
  cases habreast with
  | past h h' =>
    have hs := (h.emit (hu ▸ hopen s hlexeme)).past
    have hs' := (h'.emit (hu' ▸ hopen (s.extend q) hlexeme)).past
    exact .inr ⟨_, (hs.read _).ends_closeName, (hs'.read _).ends_closeName⟩
  | level h =>
    have hemit : Before c q (u.emit .operator) := ⟨h.line, rfl, h.near, h.undivided⟩
    have hname := (Abreast.level hemit).readWhile isWordChar
    have hsame : (u.extend q).emit .operator = (u.emit .operator).extend q := rfl
    rw [hsame]
    generalize (u.emit .operator).readWhile isWordChar = v at hname ⊢
    generalize ((u.emit .operator).extend q).readWhile isWordChar = v' at hname ⊢
    cases hname with
    | past h h' => exact .inr ⟨_, h.ends_closeName, h'.ends_closeName⟩
    | level h => exact .inl (congrArg (Phase.root, ·) (extend_closeName q v))

/-- **The step lemma.**  A step of two runs leads to the same state, or they end with the same
complete tokens. -/
theorem Before.meets_step (h : Before c q s) (hr : Ready phase s) (hp : phase ≠ .done)
    (hnot : phase ≠ .not) (hrest : phase = .root → s.rest ≠ []) :
    Meets c q (s.step phase) ((s.extend q).step phase) := by
  cases phase with
  | done => exact absurd rfl hp
  | not => exact absurd rfl hnot
  | root =>
    obtain ⟨d, ds, hcons⟩ := List.exists_cons_of_ne_nil (hrest rfl)
    simp only [step, hcons, extend_rest q hcons]
    exact h.meets_root hr hcons
  | number =>
    obtain ⟨-, d, ds, hcons, hd⟩ := hr
    exact h.meets_number hcons hd
  | dot =>
    obtain ⟨-, ds, hcons⟩ := hr
    exact h.meets_dot hcons
  | identifier =>
    obtain ⟨hlexeme, d, ds, hcons, hd⟩ := hr
    have hdot : ∀ t : Scanner, t.lexeme = [] → (∃ es, t.rest = d :: es) →
        (t.readWhile isWordChar).lexeme.head? ≠ some '.' := by
      rintro t ht ⟨es, hes⟩
      rw [readWhile_lexeme, ht, hes, List.takeWhile_cons_of_pos hd]
      rintro ⟨⟩
      exact absurd hd (by decide)
    exact ((Abreast.level h).readWhile isWordChar).meets_word (hdot s hlexeme ⟨ds, hcons⟩)
      (hdot (s.extend q) hlexeme ⟨ds ++ q, extend_rest q hcons⟩)
  | questionMark =>
    have hlexeme : s.lexeme = ['?'] := hr
    refine ((Abreast.level h).readOne _).meets_emit (open_operator ?_) (open_operator ?_)
    · rw [head?_readOne hlexeme]
      decide
    · rw [head?_readOne (s := s.extend q) hlexeme]
      decide
  | slash => exact h.meets_slash hr
  | lineComment => exact ((Abreast.level h).readWhile _).meets_skip
  | blockComment => exact h.meets_blockComment
  | pointer => exact h.meets_pointer hr

end Tokens

/-- A step leads to the end only where there is no text left. -/
theorem step_ne_done (hp : phase ≠ .done) (hrest : phase = .root → s.rest ≠ []) :
    (s.step phase).1 ≠ .done := by
  cases phase with
  | done => exact absurd rfl hp
  | root =>
    obtain ⟨d, ds, hcons⟩ := List.exists_cons_of_ne_nil (hrest rfl)
    simp only [step, hcons]
    exact stepRoot_ne_done s d
  | dot =>
    simp only [step]
    split_ifs <;> simp
  | identifier =>
    simp only [step]
    split_ifs <;> simp
  | slash =>
    simp only [step]
    split <;> simp
  | number | not | questionMark | lineComment | blockComment | pointer => rintro ⟨⟩

/-- **The run lemma.**  Two runs end with the same tokens that are complete at the end of the first
text. -/
theorem Before.shown_finish (h : Before c q s) (hr : Ready phase s) (hp : phase ≠ .done) :
    (finish phase (s.extend q)).shown c = (finish phase s).shown c := by
  induction hm : measure phase s using Nat.strongRecOn generalizing phase s with
  | ind m ih =>
    have hr' := Ready.extend hr hp q
    by_cases hnot : phase = .not
    · -- the word `not` is an operator, and what is behind it is read as it always is
      subst hnot
      have hemit : Before c q (s.emit .operator) := ⟨h.line, rfl, h.near, h.undivided⟩
      rw [finish_not hr, finish_not hr']
      exact ih _ (by rw [← hm]; exact Nat.lt_succ_self _) hemit rfl nofun rfl
    by_cases hend : phase = .root ∧ s.rest = []
    · obtain ⟨rfl, hrest⟩ := hend
      have hlexeme : s.lexeme = [] := hr
      obtain ⟨hs, hs'⟩ := h.past_of_nil hrest
      have hspan : s.here.column = s.start.column := by rw [h.span, hlexeme]; rfl
      have hbehind : Behind c (s.shown c) s := ⟨hs.along, hspan ▸ hs.far, rfl⟩
      have hbehind' : Behind c (s.shown c) (s.extend q) := ⟨hs'.along, hspan ▸ hs'.far, rfl⟩
      exact (hbehind'.ends_root hlexeme).trans (hbehind.ends_root hlexeme).symm
    · obtain ⟨hready, hnear⟩ := step_nearer hr hp
      rw [finish_step hr hp, finish_step hr' hp]
      rcases h.meets_step hr hp hnot (by tauto) with heq | ⟨V, hV, hV'⟩
      · rw [heq]
        have hne := step_ne_done hp fun hroot hrest => hend ⟨hroot, hrest⟩
        have hkept := (stable_before c q).step hr hp ((kept_of_ne_done hp).2 h)
        exact ih _ (hm ▸ hnear) ((kept_of_ne_done hne).1 hkept) hready hne rfl
      · exact hV'.trans hV.symm

/-- **What is behind a column does not change the tokens that are complete there**, in a line where
the column lies neither between two dots nor between a dot and a digit. -/
theorem tokensUntil_append {p q : List Char} (hp : '\n' ∉ p) (hq : '\n' ∉ q)
    (hdot : p.getLast? = some '.' → ∀ d ∈ q.head?, d ≠ '.' ∧ ¬ d.isDigit) :
    tokensUntil p.length (scanChars (p ++ q)).tokens =
      tokensUntil p.length (scanChars p).tokens := by
  have hbefore : Before p.length q { rest := p } := {
    line := by
      rw [List.mem_append]
      exact not_or.mpr ⟨hp, hq⟩
    span := rfl
    near := Nat.zero_add _
    undivided := hdot }
  rw [scanChars_eq, scanChars_eq]
  exact hbefore.shown_finish rfl nofun

end FilterLang.Scanner
