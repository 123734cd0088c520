import FilterLang.Proofs.Scanner.Kinds
import FilterLang.Proofs.Scanner.Prefix

/-!
# Where a number ends

How far a number goes is told by its own characters and by the first of those behind it.

* `EndsNumber` — what may stand behind a number without becoming a part of it.
* `Alike` — two scanners read the same characters, which are all in one line.
* `agree_readNumber` — a number is read alike with more text behind, by the stages of reading it.
* `IsNumber` — the texts that are read as a number to their end.
* `finish_number` — such a text becomes one token in front of whatever ends a number.
* `scan_number` — such a text is one token and the end.
* `isNumber_of_scan` — a text that is scanned to a number that says all of it is one of them.
-/

namespace FilterLang

namespace Scanner

open Text

variable {base : Nat} {p : Char → Bool} {q : List Char} {s t s' t' : Scanner}

/-- What may stand behind a number that has come to its end: no character of a word and no sign, and
a dot only in front of another one. -/
def EndsNumber (q : List Char) : Prop :=
  ∀ c ds, q = c :: ds → ¬ isWordChar c ∧ c ≠ '+' ∧ c ≠ '-' ∧ (c = '.' → ∃ es, ds = '.' :: es)

theorem endsNumber_nil : EndsNumber [] := nofun

theorem endsNumber_feed (text : List Char) : EndsNumber ('\n' :: text) := by
  rintro c ds ⟨⟩
  exact ⟨by decide, by decide, by decide, fun hc => absurd hc (by decide)⟩

theorem endsNumber_dots (text : List Char) : EndsNumber ('.' :: '.' :: text) := by
  rintro c ds ⟨⟩
  exact ⟨by decide, by decide, by decide, fun _ => ⟨text, rfl⟩⟩

/-! ### Reading alike -/

/-- Two scanners read the same characters, which are in one line. -/
def Alike (s t s' t' : Scanner) : Prop :=
  ∃ n, n ≤ s.rest.length ∧ '\n' ∉ s.rest.take n ∧ s' = s.read n ∧ t' = t.read n

theorem Alike.refl (s t : Scanner) : Alike s t s t :=
  ⟨0, Nat.zero_le _, by simp, read_zero.symm, read_zero.symm⟩

theorem Alike.trans {s'' t'' : Scanner} (h : Alike s t s' t') (h' : Alike s' t' s'' t'') :
    Alike s t s'' t'' := by
  obtain ⟨m, hm, hline, rfl, rfl⟩ := h
  obtain ⟨n, hn, hline', rfl, rfl⟩ := h'
  rw [read_rest, List.length_drop] at hn
  refine ⟨m + n, by omega, ?_, read_read m n, read_read m n⟩
  rw [List.take_add, List.mem_append]
  exact not_or.mpr ⟨hline, hline'⟩

/-- What is behind the first text stays behind what is left of it. -/
theorem Alike.rest (h : Alike s t s' t') (hrest : t.rest = s.rest ++ q) :
    t'.rest = s'.rest ++ q := by
  obtain ⟨n, hn, -, rfl, rfl⟩ := h
  rw [read_rest, read_rest, hrest, List.drop_append_of_le_length hn]

theorem alike_read_one {c : Char} {cs : List Char} (hcons : s.rest = c :: cs) (hc : c ≠ '\n') :
    Alike s t (s.read 1) (t.read 1) := by
  refine ⟨1, by simp [hcons], ?_, rfl, rfl⟩
  rw [hcons]
  simpa using hc.symm

theorem alike_readWhile (hrest : t.rest = s.rest ++ q) (hq : ∀ c ds, q = c :: ds → ¬ p c)
    (hfeed : ¬ p '\n') : Alike s t (s.readWhile p) (t.readWhile p) := by
  have hsame : (s.rest ++ q).takeWhile p = s.rest.takeWhile p := by
    have hnone : q.takeWhile p = [] := by
      cases q with
      | nil => rfl
      | cons c ds => exact List.takeWhile_cons_of_neg (hq c ds rfl)
    rw [List.takeWhile_append, hnone, List.append_nil]
    split_ifs with hall
    · exact ((List.takeWhile_prefix p).eq_of_length hall).symm
    · rfl
  refine ⟨_, (List.takeWhile_prefix p).length_le, ?_, rfl, ?_⟩
  · rw [← List.prefix_iff_eq_take.mp (List.takeWhile_prefix p)]
    exact fun hmem => hfeed (List.mem_takeWhile_imp hmem)
  · rw [readWhile, hrest, hsame]

theorem alike_readOne (hrest : t.rest = s.rest ++ q) (hq : ∀ c ds, q = c :: ds → ¬ p c)
    (hfeed : ¬ p '\n') : Alike s t (s.readOne p) (t.readOne p) := by
  cases hcons : s.rest with
  | nil =>
    rw [hcons, List.nil_append] at hrest
    rw [readOne_nil hcons, readOne_of_not hrest hq]
    exact .refl s t
  | cons c cs =>
    rw [hcons, List.cons_append] at hrest
    rw [readOne_cons hcons, readOne_cons hrest]
    split_ifs with hc
    · refine alike_read_one hcons ?_
      rintro rfl
      exact hfeed hc
    · exact .refl s t

/-! ### The stages of a number -/

/-- Two scanners read alike and come to the same result. -/
def Agree {α : Type} (s t : Scanner) (r r' : Scanner × α) : Prop :=
  Alike s t r.1 r'.1 ∧ r.2 = r'.2

theorem Alike.agree {α : Type} {r r' : Scanner × α} (h : Alike s t s' t')
    (hagree : Agree s' t' r r') : Agree s t r r' :=
  ⟨h.trans hagree.1, hagree.2⟩

theorem agree_self (h : Alike s t s' t') {α : Type} (a : α) : Agree s t (s', a) (t', a) :=
  ⟨h, rfl⟩

/-- The letter of a base may stand in words. -/
theorem isWordChar_of_baseOfLetter? {c : Char} (h : baseOfLetter? c = some base) :
    isWordChar c := by
  unfold baseOfLetter? at h
  split_ifs at h with hx ho hb
  all_goals
    simp only [Bool.or_eq_true, beq_iff_eq] at *
    rcases ‹_ ∨ _› with rfl | rfl
    · decide
    · decide

theorem readBase_of_letter {c : Char} {cs : List Char} (hcons : s.rest = '0' :: c :: cs)
    (hc : ¬ isWordChar c) : s.readBase = (s, 10) := by
  have hnone : baseOfLetter? c = none := by
    rw [Option.eq_none_iff_forall_ne_some]
    exact fun base hbase => hc (isWordChar_of_baseOfLetter? hbase)
  simp only [readBase, hcons, hnone]

theorem agree_readBase (hrest : t.rest = s.rest ++ q) (hq : EndsNumber q) :
    Agree s t s.readBase t.readBase := by
  match hcons : s.rest with
  | [] =>
    rw [hcons, List.nil_append] at hrest
    have hnone : s.readBase = (s, 10) := by simp only [readBase, hcons]
    have hnone' : t.readBase = (t, 10) := by
      cases q with
      | nil => simp only [readBase, hrest]
      | cons c ds =>
        refine readBase_of_ne hrest ?_
        rintro rfl
        exact (hq _ _ rfl).1 (by decide)
    rw [hnone, hnone']
    exact agree_self (.refl s t) _
  | [c] =>
    rw [hcons] at hrest
    have hnone : s.readBase = (s, 10) := by simp only [readBase, hcons]
    have hnone' : t.readBase = (t, 10) := by
      by_cases hzero : c = '0'
      · subst hzero
        cases q with
        | nil => simp only [readBase, hrest, List.append_nil]
        | cons d ds => exact readBase_of_letter hrest (hq d ds rfl).1
      · exact readBase_of_ne hrest hzero
    rw [hnone, hnone']
    exact agree_self (.refl s t) _
  | c :: d :: ds =>
    rw [hcons] at hrest
    by_cases hzero : c = '0'
    · subst hzero
      simp only [readBase, hcons, hrest, List.cons_append]
      cases hletter : baseOfLetter? d with
      | none => exact agree_self (.refl s t) _
      | some base =>
        refine agree_self ⟨2, by simp [hcons], ?_, rfl, rfl⟩ _
        rw [hcons, List.take_succ_cons, List.take_succ_cons, List.take_zero]
        intro hmem
        have hd : '\n' = d := by simpa using hmem
        rw [← hd] at hletter
        exact absurd (isWordChar_of_baseOfLetter? hletter) (by decide)
    · rw [readBase_of_ne hcons hzero, readBase_of_ne hrest hzero]
      exact agree_self (.refl s t) _

/-- No digit of a number is looked for in vain where it ends. -/
theorem alike_readNumerals (hrest : t.rest = s.rest ++ q) (hq : EndsNumber q) (base : Nat) :
    Alike s t (s.readWhile (isNumeralChar base)) (t.readWhile (isNumeralChar base)) :=
  alike_readWhile hrest (fun c ds h hc => (hq c ds h).1 (isWordChar_of_isNumeralChar hc))
    fun hfeed => absurd (isWordChar_of_isNumeralChar hfeed) (by decide)

theorem alike_readPoint (hrest : t.rest = s.rest ++ q) (hq : EndsNumber q)
    (hdot : s.rest = [] → q.head? ≠ some '.') :
    Alike s t (s.readPoint base) (t.readPoint base) := by
  cases hcons : s.rest with
  | nil =>
    have hnone : ¬ (t.rest.head? == some '.') := by
      rw [hrest, hcons, List.nil_append, beq_iff_eq]
      exact hdot hcons
    rw [readPoint, readPoint, if_neg hnone, hcons]
    exact .refl s t
  | cons c cs =>
    have hcons' : t.rest = c :: (cs ++ q) := by rw [hrest, hcons, List.cons_append]
    rw [readPoint, readPoint, hcons, hcons', List.head?_cons, List.head?_cons]
    split_ifs with hpoint
    · have hone : Alike s t (s.read 1) (t.read 1) := by
        refine alike_read_one hcons ?_
        rintro rfl
        exact absurd hpoint (by decide)
      exact hone.trans (alike_readNumerals (hone.rest hrest) hq base)
    · exact .refl s t

theorem alike_readExponent (base : Nat) (hrest : t.rest = s.rest ++ q) (hq : EndsNumber q) :
    Alike s t (s.readExponent base) (t.readExponent base) := by
  cases hcons : s.rest with
  | nil =>
    rw [hcons, List.nil_append] at hrest
    have hnone : s.readExponent base = s := by simp only [readExponent, hcons]
    have hnone' : t.readExponent base = t := by
      cases q with
      | nil => simp only [readExponent, hrest]
      | cons c ds =>
        simp only [readExponent, hrest]
        rw [if_neg]
        intro hc
        have hletter : c = 'e' ∨ c = 'E' := by simpa using hc
        rcases hletter with rfl | rfl
        · exact (hq _ _ rfl).1 (by decide)
        · exact (hq _ _ rfl).1 (by decide)
    rw [hnone, hnone']
    exact .refl s t
  | cons c cs =>
    have hcons' : t.rest = c :: (cs ++ q) := by rw [hrest, hcons, List.cons_append]
    simp only [readExponent, hcons, hcons']
    split_ifs with hletter
    · have hone : Alike s t (s.read 1) (t.read 1) := by
        refine alike_read_one hcons ?_
        rintro rfl
        exact absurd hletter (by decide)
      have hnone : ∀ d ds, q = d :: ds → ¬ (d == '+' || d == '-') := by
        intro d ds hcut hsign
        have hd : d = '+' ∨ d = '-' := by simpa using hsign
        exact hd.elim (hq d ds hcut).2.1 (hq d ds hcut).2.2.1
      have hsign := hone.trans (alike_readOne (hone.rest hrest) hnone (by decide))
      exact hsign.trans (alike_readNumerals (hsign.rest hrest) hq base)
    · exact .refl s t

theorem agree_readClash (hrest : t.rest = s.rest ++ q) (hq : EndsNumber q) :
    Agree s t s.readClash t.readClash := by
  cases hcons : s.rest with
  | nil =>
    rw [hcons, List.nil_append] at hrest
    have hnone : s.readClash = (s, true) := by rw [readClash, hcons]; rfl
    have hnone' : t.readClash = (t, true) := by
      cases q with
      | nil => rw [readClash, hrest]; rfl
      | cons c ds => rw [readClash, hrest, List.head?_cons, Option.any_some, if_neg (hq c ds rfl).1]
    rw [hnone, hnone']
    exact agree_self (.refl s t) _
  | cons c cs =>
    have hcons' : t.rest = c :: (cs ++ q) := by rw [hrest, hcons, List.cons_append]
    rw [readClash, readClash, hcons, hcons', List.head?_cons, List.head?_cons, Option.any_some]
    split_ifs with hword
    · refine agree_self (alike_read_one hcons ?_) _
      rintro rfl
      exact absurd hword (by decide)
    · exact agree_self (.refl s t) _

/-- What follows the digits is read alike, unless a dot at the end of the first text and one behind
it would be taken for a range. -/
theorem agree_readFraction (hrest : t.rest = s.rest ++ q) (hq : EndsNumber q)
    (hdot : q.head? = some '.' → s.rest.getLast? ≠ some '.') :
    Agree s t (s.readFraction base) (t.readFraction base) := by
  by_cases hdots : ∃ ds, s.rest = '.' :: '.' :: ds
  · obtain ⟨ds, hds⟩ := hdots
    have hds' : t.rest = '.' :: '.' :: (ds ++ q) := by
      rw [hrest, hds, List.cons_append, List.cons_append]
    rw [readFraction_of_dots hds, readFraction_of_dots hds']
    exact agree_self (.refl s t) _
  by_cases hrange : s.rest = [] ∧ q.head? = some '.'
  · -- the dots are the operator behind a number without a fraction
    obtain ⟨hnil, hhead⟩ := hrange
    obtain ⟨ds, rfl⟩ : ∃ ds, q = '.' :: '.' :: ds := by
      cases q with
      | nil => cases hhead
      | cons c ds =>
        obtain rfl : c = '.' := by simpa using hhead
        obtain ⟨es, rfl⟩ := (hq _ _ rfl).2.2.2 rfl
        exact ⟨es, rfl⟩
    have hnone : s.readFraction base = (s, true) := by
      simp [readFraction_of_not_dots (not_exists.mp hdots), readPoint, readExponent, readClash,
        hnil]
    rw [hnone, readFraction_of_dots (by rw [hrest, hnil, List.nil_append])]
    exact agree_self (.refl s t) _
  · have hdots' : ∀ ds, t.rest ≠ '.' :: '.' :: ds := by
      intro ds hds
      rw [hrest] at hds
      cases hcons : s.rest with
      | nil =>
        rw [hcons, List.nil_append] at hds
        exact hrange ⟨hcons, by rw [hds, List.head?_cons]⟩
      | cons c es =>
        rw [hcons] at hds
        obtain ⟨rfl, htail⟩ := List.cons_eq_cons.mp hds
        cases es with
        | nil =>
          have hhead : q.head? = some '.' := congrArg List.head? htail
          exact hdot hhead (by rw [hcons, List.getLast?_singleton])
        | cons d es =>
          obtain ⟨rfl, -⟩ := List.cons_eq_cons.mp htail
          exact hdots ⟨es, hcons⟩
    rw [readFraction_of_not_dots (not_exists.mp hdots), readFraction_of_not_dots hdots']
    have hpoint : Alike s t (s.readPoint base) (t.readPoint base) :=
      alike_readPoint hrest hq fun hnil hhead => hrange ⟨hnil, hhead⟩
    have hexponent := hpoint.trans (alike_readExponent base (hpoint.rest hrest) hq)
    exact hexponent.agree (agree_readClash (hexponent.rest hrest) hq)

/-- **A number is read alike with more text behind**, if that ends it. -/
theorem agree_readNumber (hrest : t.rest = s.rest ++ q) (hq : EndsNumber q)
    (hdot : q.head? = some '.' → s.rest.getLast? ≠ some '.') :
    Agree s t s.readNumber t.readNumber := by
  obtain ⟨hbase, hsame⟩ := agree_readBase hrest hq
  have hdigits := hbase.trans (alike_readNumerals (hbase.rest hrest) hq s.readBase.2)
  rw [readNumber_eq, readNumber_eq, ← hsame]
  refine hdigits.agree (agree_readFraction (hdigits.rest hrest) hq fun hhead hlast => ?_)
  refine hdot hhead ?_
  obtain ⟨n, -, -, hread, -⟩ := hdigits
  rw [hread, read_rest, List.getLast?_drop] at hlast
  split_ifs at hlast
  exact hlast

/-! ### Whole numbers -/

/-- Digits and what belongs to them: a text that starts with a digit and is read to its end. -/
def ReadWhole (cs : List Char) : Prop :=
  (∃ c ds, cs = c :: ds ∧ c.isDigit) ∧
    ∀ s : Scanner, s.rest = cs → s.readNumber = (s.read cs.length, true)

/-- A text that is read as a number to its end, perhaps behind a dot. -/
def IsNumber (cs : List Char) : Prop :=
  ReadWhole cs ∨ ∃ ds, cs = '.' :: ds ∧ ReadWhole ds

variable {cs : List Char}

/-- A text that is read to its end is read to the same place with more text behind, and is in one
line. -/
theorem readNumber_of_readWhole (h : ReadWhole cs) (hrest : s.rest = cs ++ q) (hq : EndsNumber q)
    (hdot : q.head? = some '.' → cs.getLast? ≠ some '.') :
    s.readNumber = (s.read cs.length, true) ∧ '\n' ∉ cs := by
  let u : Scanner := { rest := cs }
  obtain ⟨⟨n, hn, hline, hread, hread'⟩, hsound⟩ :=
    agree_readNumber (s := u) (t := s) hrest hq hdot
  rw [h.2 u rfl] at hread hsound
  have hlength : n = cs.length := by
    have hleft : cs.drop cs.length = cs.drop n := congrArg Scanner.rest hread
    rw [List.drop_length, eq_comm, List.drop_eq_nil_iff] at hleft
    exact Nat.le_antisymm hn hleft
  subst hlength
  rw [show u.rest = cs from rfl, List.take_length] at hline
  exact ⟨Prod.ext hread' hsound.symm, hline⟩

/-- A number is in one line. -/
theorem IsNumber.notMem_feed (h : IsNumber cs) : '\n' ∉ cs := by
  have hwhole : ∀ {ds}, ReadWhole ds → '\n' ∉ ds := fun {ds} hds =>
    (readNumber_of_readWhole (s := { rest := ds }) hds (List.append_nil ds).symm endsNumber_nil
      nofun).2
  rcases h with h | ⟨ds, rfl, h⟩
  · exact hwhole h
  · exact List.not_mem_cons_of_ne_of_not_mem (by decide) (hwhole h)

/-- Digits that are read to their end become a token with the dot in front of them. -/
theorem finish_readWhole (h : ReadWhole cs) (hlexeme : s.lexeme = [] ∨ s.lexeme = ['.'])
    (hrest : s.rest = cs ++ q) (hq : EndsNumber q)
    (hdot : q.head? = some '.' → cs.getLast? ≠ some '.') :
    finish .number s = finish .root ((s.read cs.length).emit .number) := by
  obtain ⟨c, ds, hcons, hc⟩ := h.1
  have hready : Ready .number s := ⟨hlexeme, c, ds ++ q, by rw [hrest, hcons]; rfl, hc⟩
  rw [finish_step hready nofun, step, (readNumber_of_readWhole h hrest hq hdot).1]
  rfl

/-- **A number is one token** in front of whatever ends it, except that a dot at its end does not
stand in front of a range. -/
theorem finish_number (h : IsNumber cs) (hlexeme : s.lexeme = []) (hrest : s.rest = cs ++ q)
    (hq : EndsNumber q) (hdot : q.head? = some '.' → cs.getLast? ≠ some '.') :
    finish .root s = finish .root ((s.read cs.length).emit .number) := by
  rcases h with h | ⟨ds, rfl, h⟩
  · obtain ⟨c, es, hcons, hc⟩ := h.1
    have hhead : s.rest = c :: (es ++ q) := by rw [hrest, hcons, List.cons_append]
    rw [finish_root hlexeme hhead (stepRoot_of_isDigit hc s)]
    exact finish_readWhole h (.inl hlexeme) hrest hq hdot
  · obtain ⟨c, es, hcons, hc⟩ := h.1
    have hhead : s.rest = '.' :: (ds ++ q) := hrest
    obtain ⟨hlex, hbehind⟩ := read_one hlexeme hhead
    have hdigit : (s.read 1).rest.head?.any Char.isDigit := by
      rw [hbehind, hcons]
      exact hc
    have hready : Ready .dot s := ⟨hlexeme, _, hhead⟩
    have hdots : s.stepRoot '.' = (.dot, s) := rfl
    rw [finish_root hlexeme hhead hdots, finish_step hready nofun, step, if_pos hdigit]
    have hlast : q.head? = some '.' → ds.getLast? ≠ some '.' := by
      intro hq hds
      refine hdot hq ?_
      rw [List.getLast?_cons, hds]
      rfl
    rw [finish_readWhole h (.inr hlex) hbehind hq hlast, read_read, Nat.add_comm 1]
    rfl

/-! ### Between two tokens -/

/-- A scanner between two tokens, without a fault. -/
def between (tokens : List Token) (here : Location) (rest : List Char) : Scanner :=
  { rest, start := here, here, tokens }

variable {tokens : List Token} {here : Location}

/-- Where a token has been made that shows what it spans, the next one may start. -/
theorem emit_between (cs rest : List Char) (kind : TokenKind) :
    ((between tokens here (cs ++ rest)).read cs.length).emit kind =
      between (.ofText kind (String.ofList cs) here :: tokens) (here.advance cs) rest := by
  rw [emit_read rfl rfl]
  simp [between, emitValue, skip, read, Token.ofText]

/-- The scanner goes on behind a number. -/
theorem finish_between_number (h : IsNumber cs) (hq : EndsNumber q)
    (hdot : q.head? = some '.' → cs.getLast? ≠ some '.') :
    finish .root (between tokens here (cs ++ q)) = finish .root
      (between (.ofText .number (String.ofList cs) here :: tokens) (here.advance cs) q) := by
  rw [finish_number h rfl rfl hq hdot, emit_between]

/-- The scanner ends between two tokens where the text does. -/
theorem finish_between_end (tokens : List Token) (here : Location) :
    finish .root (between tokens here []) = between (.ofText .eof "" here :: tokens) here [] :=
  finish_end rfl rfl

/-! ### The numbers among the tokens -/

/-- A number token that says all of a text has been found only if the text is a number. -/
def Recognized (source : List Char) (s : Scanner) : Prop :=
  s.fault = none → ∀ token ∈ s.tokens.filter (·.kind == .number),
    token.value = String.ofList source → IsNumber source

/-- The token that says all of a text leaves nothing of it unread and has nothing in front. -/
theorem Cut.whole {source : List Char} {segments : List Segment} (h : Cut source segments s)
    {n : Nat} (hall : (s.read n).lexeme = source) :
    source = s.lexeme ++ s.rest ∧ s.read n = s.read s.rest.length := by
  have hlength := congrArg List.length h.text
  rw [← hall, read_lexeme] at hlength
  simp only [List.length_append, List.length_take] at hlength
  have htake : s.rest.take n = s.rest := List.take_of_length_le (by omega)
  refine ⟨by rw [← hall, read_lexeme, htake], ?_⟩
  rw [Scanner.read, Scanner.read, htake, List.take_length, List.drop_length,
    List.drop_of_length_le (by omega)]

/-- **The step lemma.**  Only the phase of the numbers makes number tokens. -/
theorem recognized_step {phase : Phase} {source : List Char} {segments : List Segment}
    (hr : Ready phase s) (hp : phase ≠ .done) (hcut : Cut source segments s)
    (h : Recognized source s) : Recognized source (s.step phase).2 := by
  intro hfault
  have hsound : s.fault = none := by
    by_contra hfaulty
    exact fault_step hr hp hfaulty hfault
  by_cases hnumber : phase = .number
  · subst hnumber
    obtain ⟨hlexeme, c, cs, hcons, hc⟩ := hr
    obtain ⟨n, hn⟩ := s.readNumber_eq_read
    simp only [step] at hfault ⊢
    cases hverdict : s.readNumber.2 with
    | false =>
      rw [hverdict] at hfault
      exact absurd hfault (fault_note_ne_none _ _)
    | true =>
      rw [if_pos rfl, hn]
      refine List.forall_mem_cons.mpr ⟨fun hvalue => ?_, h hsound⟩
      obtain ⟨hsource, hread⟩ := hcut.whole (String.ofList_injective hvalue)
      have hwhole : ReadWhole s.rest := by
        refine ⟨⟨c, cs, hcons, hc⟩, fun t ht => ?_⟩
        -- how a number is read depends on the unread characters only
        obtain ⟨⟨k, hk, -, hreadk, hread'⟩, hsame⟩ := agree_readNumber (s := s) (t := t)
          (ht.trans (List.append_nil _).symm) endsNumber_nil (by simp)
        have hall : s.rest.drop k = [] := by
          have hleft := congrArg Scanner.rest (hreadk.symm.trans (hn.trans hread))
          rw [read_rest, read_rest, List.drop_length] at hleft
          exact hleft
        obtain rfl : k = s.rest.length := Nat.le_antisymm hk (List.drop_eq_nil_iff.mp hall)
        exact Prod.ext hread' (hsame.symm.trans hverdict)
      rcases hlexeme with hnil | hdot
      · rw [hsource, hnil]
        exact .inl hwhole
      · rw [hsource, hdot]
        exact .inr ⟨_, rfl, hwhole⟩
  · rw [filter_step (by cases phase <;> first | exact absurd rfl hnumber | decide)]
    exact h hsound

/-- **The run lemma.**  A text that a number token says all of is a number. -/
theorem recognized_finish (source : List Char) :
    Recognized source (finish .root { rest := source }) := by
  have hready : Ready .root { rest := source } := rfl
  let motive (phase : Phase) (s : Scanner) : Prop :=
    Kept (Tiled source) phase s ∧ Recognized source s
  have hinit : motive .root { rest := source } := ⟨⟨[], cut_init source⟩, nofun⟩
  refine (finish_induct (motive := motive) (fun phase s hr hp ⟨htiled, h⟩ => ?_) hready hinit).2.2
  obtain ⟨segments, hcut⟩ := (kept_of_ne_done hp).1 htiled
  exact ⟨(stable_tiled source).step hr hp htiled, recognized_step hr hp hcut h⟩

end Scanner

/-- **A number is one token**, and there is no fault in it. -/
theorem scan_number {text : String} (h : Scanner.IsNumber text.toList) :
    scan text = ⟨[.ofText .number text .origin,
      .ofText .eof "" (Location.origin.advance text.toList)], none⟩ := by
  have hfinish : Scanner.finish .root (Scanner.between [] .origin (text.toList ++ [])) = _ :=
    Scanner.finish_between_number h Scanner.endsNumber_nil nofun
  rw [Scanner.finish_between_end, List.append_nil, String.ofList_toList] at hfinish
  have hinit : ({ rest := text.toList } : Scanner) = Scanner.between [] .origin text.toList := rfl
  rw [scan, Scanner.scanChars_eq, hinit, hfinish]
  rfl

/-- **A text that is scanned to a number that says all of it is one.** -/
theorem isNumber_of_scan {source : String} {token : Token} (hfault : (scan source).fault = none)
    (htoken : token ∈ (scan source).tokens) (hword : token.word = (.number, source)) :
    Scanner.IsNumber source.toList := by
  have hfinish := Scanner.recognized_finish source.toList
  rw [scan, Scanner.scanChars_eq] at hfault htoken
  obtain ⟨hkind, hvalue⟩ := Prod.mk.inj hword
  refine hfinish hfault token ?_ (hvalue.trans String.ofList_toList.symm)
  rw [List.mem_filter, hkind]
  exact ⟨List.mem_reverse.mp htoken, rfl⟩

end FilterLang
