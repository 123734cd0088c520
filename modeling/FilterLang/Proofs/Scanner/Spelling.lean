import FilterLang.Proofs.Scanner.Words

/-!
# What tokens say

The tokens of a text are no arbitrary pairs of a kind and a text.  This file says what each kind of
token may say, and shows that a scan makes no other tokens.

* `IsUnsigned` — the texts of numbers: a minus sign stands in an exponent only, and so they denote
  no negative integer (`readInteger?_bounds`).
* `IsSpelling` — what a token may say, by its kind.
* `Lexical` — tokens that say what they may.  Only what is directly behind a pointer sign may be any
  name, also one that starts with a digit or is an operator elsewhere.
* `sane_step`, `lexical_scan` — every step of the scanner makes such tokens, and so every scan does.
-/

namespace FilterLang

open Scanner

/-! ### Numbers -/

/-- A minus sign stands only behind the letter of an exponent. -/
def IsUnsigned (cs : List Char) : Prop :=
  ∃ front back, cs = front ++ back ∧ '-' ∉ front ∧ ∀ c ds, back = c :: ds → c = 'e' ∨ c = 'E'

theorem isUnsigned_of_notMem {cs : List Char} (h : '-' ∉ cs) : IsUnsigned cs :=
  ⟨cs, [], (List.append_nil cs).symm, h, nofun⟩

/-- An exponent may have a sign. -/
theorem isUnsigned_exponent {cs : List Char} {c : Char} (h : '-' ∉ cs) (hc : c = 'e' ∨ c = 'E')
    (ds : List Char) : IsUnsigned (cs ++ c :: ds) := by
  refine ⟨cs, c :: ds, rfl, h, fun d es hcons => ?_⟩
  cases hcons
  exact hc

theorem IsUnsigned.append {cs ds : List Char} (h : IsUnsigned cs) (hds : '-' ∉ ds) :
    IsUnsigned (cs ++ ds) := by
  obtain ⟨front, back, rfl, hfront, hback⟩ := h
  cases back with
  | nil =>
    rw [List.append_nil]
    exact isUnsigned_of_notMem fun hmem => (List.mem_append.mp hmem).elim hfront hds
  | cons c back =>
    rw [List.append_assoc, List.cons_append]
    exact isUnsigned_exponent hfront (hback c back rfl) _

namespace Numeral

theorem inRange?_eq_some {n m : Int} (h : inRange? n = some m) :
    m = n ∧ n ≤ integerMax := by
  rw [inRange?] at h
  split at h
  · next hrange =>
    cases h
    exact ⟨rfl, hrange.2⟩
  · cases h

theorem readDigits?_nonneg {base : Nat} {cs : List Char} {n : Int}
    (h : readDigits? base cs = some n) : 0 ≤ n := by
  rw [readDigits?] at h
  split at h
  · cases h
    exact Int.natCast_nonneg _
  · cases h

theorem readBased?_bounds {base : Nat} {cs : List Char} {n : Int}
    (hcs : ∀ ds, cs ≠ '-' :: ds) (h : readBased? base cs = some n) : 0 ≤ n ∧ n ≤ integerMax := by
  unfold readBased? at h
  obtain ⟨value, hvalue, hrange⟩ := Option.bind_eq_some_iff.mp h
  obtain ⟨rfl, hmax⟩ := inRange?_eq_some hrange
  refine ⟨?_, hmax⟩
  split at hvalue
  · exact absurd rfl (hcs _)
  · exact readDigits?_nonneg hvalue
  · exact readDigits?_nonneg hvalue

theorem readDecimal?_bounds {cs : List Char} {n : Int} (h : readDecimal? cs = some n) :
    0 ≤ n ∧ n ≤ integerMax := by
  rw [readDecimal?] at h
  obtain ⟨rfl, hmax⟩ := inRange?_eq_some h
  exact ⟨Int.natCast_nonneg _, hmax⟩

/-- Behind the mark of a base there is no minus sign. -/
theorem ne_minus_of_isUnsigned {cs ds : List Char} {c : Char} (h : IsUnsigned cs)
    (hcs : cs.filter (· != '_') = '0' :: c :: ds) (hc : c ≠ 'e' ∧ c ≠ 'E') :
    ∀ es, ds ≠ '-' :: es := by
  rintro es rfl
  obtain ⟨front, back, rfl, hfront, hback⟩ := h
  have hexponent : ∀ c ds, back.filter (· != '_') = c :: ds → c = 'e' ∨ c = 'E' := by
    intro c ds hcons
    cases back with
    | nil => cases hcons
    | cons d back =>
      have hd := hback d back rfl
      rw [List.filter_cons_of_pos (by rcases hd with rfl | rfl <;> rfl)] at hcons
      cases hcons
      exact hd
  have hminus : '-' ∉ front.filter (· != '_') := fun hmem => hfront (List.mem_of_mem_filter hmem)
  rw [List.filter_append] at hcs
  generalize front.filter (· != '_') = digits at hcs hminus
  -- the minus sign would be in front of the exponent, or it would start it
  match digits with
  | [] => exact absurd (hexponent _ _ hcs) (by decide)
  | [_] =>
    injection hcs with _ hcs
    exact (hexponent _ _ hcs).elim hc.1 hc.2
  | [_, _] =>
    injection hcs with _ hcs
    injection hcs with _ hcs
    exact absurd (hexponent _ _ hcs) (by decide)
  | _ :: _ :: d :: _ =>
    injection hcs with _ hcs
    injection hcs with _ hcs
    injection hcs with hd
    exact hminus (hd ▸ .tail _ (.tail _ (.head _)))

/-- **A number denotes no negative integer**, and none that is too great. -/
theorem readInteger?_bounds {text : String} {n : Int} (htext : IsUnsigned text.toList)
    (h : readInteger? text = some n) : 0 ≤ n ∧ n ≤ integerMax := by
  rw [readInteger?] at h
  split at h
  · next c rest hcs =>
    have hbased : ∀ {base}, c ≠ 'e' ∧ c ≠ 'E' → readBased? base rest = some n →
        0 ≤ n ∧ n ≤ integerMax :=
      fun hc => readBased?_bounds (ne_minus_of_isUnsigned htext hcs hc)
    split_ifs at h with hx ho hb
    · refine hbased ?_ h
      simp only [Bool.or_eq_true, beq_iff_eq] at hx
      rcases hx with rfl | rfl <;> decide
    · refine hbased ?_ h
      simp only [Bool.or_eq_true, beq_iff_eq] at ho
      rcases ho with rfl | rfl <;> decide
    · refine hbased ?_ h
      simp only [Bool.or_eq_true, beq_iff_eq] at hb
      rcases hb with rfl | rfl <;> decide
    · exact readDecimal?_bounds h
  · exact readDecimal?_bounds h

end Numeral

/-! ### What tokens may say -/

/-- What a token may say, by its kind. -/
def IsSpelling : Word → Prop
  | (.identifier, value) => IsWord value.toList ∧ kindOfWord value = .identifier
  | (.operator, value) => IsWord value.toList ∧ kindOfWord value = .operator ∨ IsSign value.toList
  | (.number, value) => IsUnsigned value.toList
  | _ => True

/-- Whether the token is a sign that takes the name directly behind it along. -/
def Token.IsPointer (t : Token) : Prop := t.word = (.operator, "#") ∨ t.word = (.operator, "##")

/-- The tokens say what they may.  Behind a pointer sign, the first one may be any name. -/
def Lexical (pointed : Prop) : List Token → Prop
  | [] => True
  | t :: ts => (IsSpelling t.word ∨ pointed ∧ t.kind = .identifier) ∧ Lexical t.IsPointer ts

theorem Lexical.mono {p q : Prop} {ts : List Token} (h : Lexical p ts) (hpq : p → q) :
    Lexical q ts := by
  cases ts with
  | nil => trivial
  | cons t ts => exact ⟨h.1.imp_right fun hpointed => ⟨hpq hpointed.1, hpointed.2⟩, h.2⟩

theorem Lexical.append {p : Prop} {ts us : List Token} (h : Lexical p ts) (hus : Lexical False us) :
    Lexical p (ts ++ us) := by
  induction ts generalizing p with
  | nil => exact hus.mono False.elim
  | cons t ts ih => exact ⟨h.1, ih h.2⟩

/-- Blanks do not matter. -/
theorem Lexical.solid {p : Prop} {ts : List Token} (h : Lexical p ts) : Lexical p (solid ts) := by
  induction ts generalizing p with
  | nil => trivial
  | cons t ts ih =>
    by_cases hblank : t.isBlank
    · have hpointer : ¬ t.IsPointer := by
        rw [Token.isBlank, beq_iff_eq] at hblank
        rintro (hword | hword) <;> cases hblank.symm.trans (congrArg Prod.fst hword)
      rw [FilterLang.solid, List.filter_cons_of_neg (by simpa using hblank)]
      exact (ih h.2).mono fun hp => absurd hp hpointer
    · rw [FilterLang.solid, List.filter_cons_of_pos (by simpa using hblank)]
      exact ⟨h.1, ih h.2⟩

/-! ### What the scanner makes -/

namespace Scanner

variable {s : Scanner} {phase : Phase} {c : Char} {cs : List Char}

theorem lexeme_readOne (s : Scanner) (p : Char → Bool) :
    (s.readOne p).lexeme = s.lexeme ∨ ∃ c, p c ∧ (s.readOne p).lexeme = s.lexeme ++ [c] := by
  cases hrest : s.rest with
  | nil => exact .inl (by rw [readOne_nil hrest])
  | cons c cs =>
    rw [readOne_cons hrest]
    split_ifs with hc
    · exact .inr ⟨c, hc, by rw [read_lexeme, hrest]; rfl⟩
    · exact .inl rfl

/-- Digits are read without a minus sign. -/
theorem notMem_readWhile_isNumeralChar (h : '-' ∉ s.lexeme) (base : Nat) :
    '-' ∉ (s.readWhile (isNumeralChar base)).lexeme := by
  have hminus : isNumeralChar base '-' = false := by
    simp [isNumeralChar, Text.isDigitOf, Text.digitValue?]
  rw [readWhile_lexeme]
  refine fun hmem => (List.mem_append.mp hmem).elim h fun hdigit => ?_
  have hall := List.mem_takeWhile_imp hdigit
  rw [hminus] at hall
  cases hall

theorem notMem_readBase (h : '-' ∉ s.lexeme) : '-' ∉ s.readBase.1.lexeme := by
  unfold readBase
  split
  · next c cs hrest =>
    split
    · next base hbase =>
      have hc : c ≠ '-' := by
        rintro rfl
        cases hbase
      rw [read_lexeme, hrest]
      simp [h, hc.symm]
    · exact h
  · exact h

theorem isUnsigned_readExponent (h : '-' ∉ s.lexeme) (base : Nat) :
    IsUnsigned (s.readExponent base).lexeme := by
  unfold readExponent
  split
  · next c cs hrest =>
    split_ifs with hc
    · obtain ⟨n, hn⟩ := (s.read 1).readOne_eq_read fun c => c == '+' || c == '-'
      rw [hn, read_read, readWhile, read_read, read_lexeme, hrest, Nat.add_assoc, Nat.add_comm 1,
        List.take_succ_cons]
      exact isUnsigned_exponent h (by simpa using hc) _
    · exact isUnsigned_of_notMem h
  · exact isUnsigned_of_notMem h

theorem isUnsigned_readFraction (h : '-' ∉ s.lexeme) (base : Nat) :
    IsUnsigned (s.readFraction base).1.lexeme := by
  unfold readFraction
  split
  · exact isUnsigned_of_notMem h
  · have hdigits : '-' ∉ (if s.rest.head? == some '.' then
        (s.read 1).readWhile (isNumeralChar base) else s).lexeme := by
      split_ifs with hdot
      · obtain ⟨cs, hrest⟩ := List.head?_eq_some_iff.mp (eq_of_beq hdot)
        refine notMem_readWhile_isNumeralChar ?_ base
        rw [read_lexeme, hrest]
        simpa using h
      · exact h
    have hexponent := isUnsigned_readExponent hdigits base
    dsimp only
    generalize Scanner.readExponent base _ = t at hexponent ⊢
    split_ifs with hword
    · refine hexponent.append fun hmem => ?_
      cases hrest : t.rest with
      | nil =>
        rw [hrest] at hword
        cases hword
      | cons c cs =>
        rw [hrest] at hword hmem
        obtain rfl : '-' = c := by simpa using hmem
        have hminus : Text.isWordChar '-' = false := by decide
        rw [List.head?_cons, Option.any_some, hminus] at hword
        cases hword
    · exact hexponent

/-- A number has no minus sign but in its exponent. -/
theorem isUnsigned_readNumber (h : '-' ∉ s.lexeme) : IsUnsigned s.readNumber.1.lexeme := by
  rw [readNumber_eq]
  exact isUnsigned_readFraction (notMem_readWhile_isNumeralChar (notMem_readBase h) _) _

/-- The tokens found so far say what they may. -/
def Spelled (s : Scanner) : Prop := Lexical False s.tokens.reverse

theorem Spelled.emitValue {kind : TokenKind} {value : List Char} (h : s.Spelled)
    (hvalue : IsSpelling (kind, String.ofList value)) : (s.emitValue kind value).Spelled := by
  rw [Spelled, Scanner.emitValue, skip, List.reverse_cons]
  exact h.append ⟨.inl hvalue, trivial⟩

theorem Spelled.emit {kind : TokenKind} (h : s.Spelled)
    (hvalue : IsSpelling (kind, String.ofList s.lexeme)) : (s.emit kind).Spelled :=
  h.emitValue hvalue

theorem Spelled.emitSign (h : s.Spelled) (hsign : IsSign s.lexeme) : (s.emit .operator).Spelled :=
  h.emit (.inr (by rwa [String.toList_ofList]))

theorem Spelled.emitBlanks (h : s.Spelled) : s.emitBlanks.Spelled := by
  unfold Scanner.emitBlanks
  dsimp only
  split_ifs
  · exact h
  · exact Spelled.emit (s := s.readWhile Text.isBlank) h trivial

theorem Spelled.emitNegatable (hl : s.lexeme = []) (h : s.Spelled) : s.emitNegatable.Spelled := by
  unfold Scanner.emitNegatable
  split_ifs with hnegatable
  · obtain ⟨hword, -, hkind⟩ := isWord_of_isNegatable hnegatable
    refine Spelled.emit (s := s.readWhile Text.isWordChar) h (.inl ?_)
    rw [readWhile_lexeme, hl, List.nil_append]
    exact ⟨hword, hkind⟩
  · exact h

theorem Spelled.readQuoted (h : s.Spelled) (quote : Char) : (s.readQuoted quote).Spelled := by
  unfold Scanner.readQuoted
  dsimp only
  refine Spelled.emitValue ?_ trivial
  split_ifs <;> split <;> exact h

theorem Spelled.readRaw (h : s.Spelled) : s.readRaw.Spelled := by
  have hstring : ∀ value, IsSpelling (.string, value) := fun _ => trivial
  unfold Scanner.readRaw
  dsimp only
  split_ifs
  · exact Spelled.emitValue h (hstring _)
  · exact Spelled.emitValue h (hstring _)

/-- What the scanner keeps: what it has found says what it may, and no digit starts a word. -/
def Sane (phase : Phase) (s : Scanner) : Prop :=
  s.Spelled ∧ (phase = .identifier → ∀ c cs, s.rest = c :: cs → ¬ c.isDigit)

theorem sane_of_ne (h : s.Spelled) (hp : phase ≠ .identifier) : Sane phase s :=
  ⟨h, fun heq => absurd heq hp⟩

/-- A sign with a character that may belong to it. -/
theorem isSign_readOne {p : Char → Bool} (hlex : s.lexeme = [c]) (hone : IsSign [c])
    (htwo : ∀ d, p d → IsSign [c, d]) : IsSign (s.readOne p).lexeme := by
  rcases s.lexeme_readOne p with hread | ⟨d, hd, hread⟩
  · rw [hread, hlex]
    exact hone
  · rw [hread, hlex]
    exact htwo d hd

theorem spelled_readOne {p : Char → Bool} (h : s.Spelled) : (s.readOne p).Spelled := by
  obtain ⟨n, hn⟩ := s.readOne_eq_read p
  rw [hn]
  exact h

theorem sane_stepRoot (hl : s.lexeme = []) (hrest : s.rest = c :: cs) (h : s.Spelled) :
    Sane (s.stepRoot c).1 (s.stepRoot c).2 := by
  have hlex : (s.read 1).lexeme = [c] := (read_one hl hrest).1
  have hread : (s.read 1).Spelled := h
  have hmove := s.stepRoot_move c
  have hdigit := stepRoot_of_isDigit (c := c) (s := s)
  generalize s.stepRoot c = next at hmove hdigit ⊢
  cases hmove with
  | word =>
    refine ⟨h, fun _ d ds hcons hd => ?_⟩
    rw [hrest] at hcons
    cases hcons
    cases hdigit hd
  | blank => exact sane_of_ne (Spelled.emit (s := s.readWhile _) h trivial) nofun
  | quoted => exact sane_of_ne (h.readQuoted c) nofun
  | raw => exact sane_of_ne h.readRaw nofun
  | number => exact sane_of_ne h nofun
  | questionMark => exact sane_of_ne h nofun
  | slash => exact sane_of_ne h nofun
  | pointer => exact sane_of_ne h nofun
  | dot => exact sane_of_ne h nofun
  | pair hc =>
    refine sane_of_ne ((spelled_readOne hread).emitSign ?_) nofun
    refine isSign_readOne hlex (.pair hc) fun d hd => ?_
    rw [eq_of_beq hd]
    exact .pairs hc
  | bracket => exact sane_of_ne (hread.emit trivial) nofun
  | single hc => exact sane_of_ne (hread.emitSign (hlex ▸ .single hc)) nofun
  | double hc =>
    exact sane_of_ne ((spelled_readOne hread).emitSign
      (isSign_readOne hlex (.double hc) fun d hd => .doubles hc hd)) nofun
  | stray => exact sane_of_ne h nofun

theorem sane_identifier (hready : Ready .identifier s) (h : Sane .identifier s) :
    Sane (s.step .identifier).1 (s.step .identifier).2 := by
  obtain ⟨hl, c, cs, hrest, hc⟩ := hready
  have hlex : (s.readWhile Text.isWordChar).lexeme = s.rest.takeWhile Text.isWordChar := by
    rw [readWhile_lexeme, hl, List.nil_append]
  have hword : IsWord (s.readWhile Text.isWordChar).lexeme := by
    refine ⟨fun d hd => ?_, c, cs.takeWhile Text.isWordChar, ?_, h.2 rfl c cs hrest⟩
    · rw [hlex] at hd
      exact List.mem_takeWhile_imp hd
    · rw [hlex, hrest, List.takeWhile_cons_of_pos hc]
  have hread : (s.readWhile Text.isWordChar).Spelled := h.1
  have hkind : ∀ {kind : TokenKind},
      kindOfWord (String.ofList (s.readWhile Text.isWordChar).lexeme) = kind →
      kind = .identifier ∨ kind = .operator → ((s.readWhile Text.isWordChar).emit kind).Spelled := by
    intro kind hkind hcases
    refine hread.emit ?_
    rcases hcases with rfl | rfl
    · exact ⟨by rwa [String.toList_ofList], hkind⟩
    · exact .inl ⟨by rwa [String.toList_ofList], hkind⟩
  simp only [step]
  split_ifs with hnot hoperator
  · exact sane_of_ne hread (by simp)
  · exact sane_of_ne (hkind (if_pos (.inr hoperator)) (.inr rfl)) (by simp)
  · refine sane_of_ne (hkind (if_neg ?_) (.inl rfl)) (by simp)
    rintro (hword | hword)
    · exact hnot (beq_iff_eq.mpr hword)
    · exact hoperator hword

/-- A pointer sign, with the name directly behind it. -/
theorem spelled_pointer (hready : Ready .pointer s) (h : s.Spelled) :
    (s.step .pointer).2.Spelled := by
  have hlex : s.lexeme = ['#'] := hready
  have hcases : (s.readOne (· == '#')).lexeme = ['#'] ∨
      (s.readOne (· == '#')).lexeme = ['#', '#'] := by
    rcases s.lexeme_readOne (· == '#') with hread | ⟨d, hd, hread⟩
    · exact .inl (hread.trans hlex)
    · rw [hread, hlex, eq_of_beq hd]
      exact .inr rfl
  have hread : (s.readOne (· == '#')).Spelled := spelled_readOne h
  simp only [step]
  generalize s.readOne (· == '#') = t at hcases hread ⊢
  have hsign : IsSign t.lexeme := hcases.elim (fun h => h ▸ .pointer) fun h => h ▸ .pointers
  split_ifs
  · exact hread.emitSign hsign
  · have hpointer : String.ofList t.lexeme = "#" ∨ String.ofList t.lexeme = "##" := by
      rcases hcases with hlex | hlex
      · exact .inl (by rw [hlex])
      · exact .inr (by rw [hlex])
    -- the name comes directly behind the sign
    show Lexical False (List.reverse (_ :: _ :: t.tokens))
    rw [List.reverse_cons, List.reverse_cons, List.append_assoc]
    refine hread.append ⟨.inl ?_, .inr ⟨?_, rfl⟩, trivial⟩
    · exact .inr (by rwa [String.toList_ofList])
    · exact hpointer.imp (congrArg (TokenKind.operator, ·)) (congrArg (TokenKind.operator, ·))

/-- **The step lemma.**  Every step makes tokens that say what they may. -/
theorem sane_step (hready : Ready phase s) (hp : phase ≠ .done) (h : Sane phase s) :
    Sane (s.step phase).1 (s.step phase).2 := by
  cases phase with
  | root =>
    cases hrest : s.rest with
    | nil =>
      simp only [step, hrest]
      exact sane_of_ne (h.1.emit trivial) (by simp)
    | cons c cs =>
      simp only [step, hrest]
      exact sane_stepRoot hready hrest h.1
  | number =>
    have hminus : '-' ∉ s.lexeme := by
      rcases hready.1 with hlex | hlex <;> rw [hlex] <;> decide
    have hnumber : s.readNumber.1.Spelled := by
      obtain ⟨n, hn⟩ := s.readNumber_eq_read
      rw [hn]
      exact h.1
    have hunsigned : IsSpelling (.number, String.ofList s.readNumber.1.lexeme) := by
      rw [IsSpelling, String.toList_ofList]
      exact isUnsigned_readNumber hminus
    simp only [step]
    split_ifs
    · exact sane_of_ne (hnumber.emit hunsigned) (by simp)
    · exact sane_of_ne (Spelled.emit (s := s.readNumber.1.note _) hnumber hunsigned) (by simp)
  | dot =>
    obtain ⟨hl, cs, hrest⟩ := hready
    have hread : (s.read 1).Spelled := h.1
    simp only [step]
    split_ifs
    · exact sane_of_ne hread (by simp)
    · refine sane_of_ne ((spelled_readOne hread).emitSign ?_) (by simp)
      refine isSign_readOne (read_one hl hrest).1 .dot fun d hd => ?_
      rw [eq_of_beq hd]
      exact .dots
  | identifier => exact sane_identifier hready h
  | not =>
    have hlex : s.lexeme = "not".toList := hready
    have hnot : (s.emit .operator).Spelled := by
      refine h.1.emit (.inl ?_)
      rw [hlex]
      exact ⟨by decide, rfl⟩
    rw [step, stepNot_eq]
    exact sane_of_ne (hnot.emitBlanks.emitNegatable (emitBlanks_rest _).1) (by simp)
  | questionMark =>
    refine sane_of_ne ((spelled_readOne h.1).emitSign ?_) (by simp [step])
    exact isSign_readOne hready .mark fun d hd => .marks (by simpa using hd)
  | slash =>
    have hlex : s.lexeme = ['/'] := hready
    simp only [step]
    split
    · exact sane_of_ne h.1 (by simp)
    · exact sane_of_ne h.1 (by simp)
    · exact sane_of_ne (h.1.emitSign (hlex ▸ .slash)) (by simp)
  | lineComment => exact sane_of_ne h.1 (by simp [step])
  | blockComment =>
    refine sane_of_ne ?_ (by simp [step])
    simp only [step]
    split_ifs
    · exact h.1
    · exact h.1
  | pointer => exact sane_of_ne (spelled_pointer hready h.1) (by simp [step])
  | done => exact absurd rfl hp

end Scanner

/-- **The tokens of a text say what they may.** -/
theorem lexical_scan (source : String) : Lexical False (scan source).tokens := by
  have hsane : Sane .root { rest := source.toList } := sane_of_ne trivial nofun
  have hready : Ready .root { rest := source.toList } := rfl
  obtain ⟨-, hspelled, -⟩ :=
    finish_induct (motive := Sane) (fun _ _ hready hp h => sane_step hready hp h) hready hsane
  rw [scan, scanChars_eq]
  exact hspelled

end FilterLang
