import FilterLang.Proofs.Text.Integers
import FilterLang.Proofs.Text.Prefix
import Mathlib.Algebra.Order.Ring.Nat

/-!
# The pieces of a quoted text

A text between two quotes is a sequence of pieces: characters that stand for themselves, and escapes.

* `Piece` — a piece in one of its forms, with its `spelling` and the `text` it stands for; `Code` is a
  code point in digits, which is `isVoid` where no character has it.
* `Separated` — the pieces can be told apart: no octal digit continues an octal escape.
* `toNat_codeWord` — a word of 32 bits holds the digits of an escape as they are added up.
* `readFrom_pieces` — **pieces are read as what they stand for**, and the fault lies behind the first
  void one.
* `isChain_feeds` — a line feed is read only right behind a backslash, and then there is a fault.
-/

namespace FilterLang.Text

open Numeral (Denotes)

/-! ### Pieces -/

/-- The letters that stand for a character behind a backslash, and the backslash itself. -/
def namedEscapes : List (Char × Char) :=
  [('a', '\x07'), ('b', '\x08'), ('f', '\x0c'), ('n', '\n'), ('r', '\r'), ('t', '\t'), ('v', '\x0b'),
    ('\\', '\\')]

/-- The letters in front of hexadecimal digits, and how many digits belong to each. -/
def hexLetters : List (Char × Nat) := [('x', 2), ('u', 4), ('U', 8)]

/-- A code point in digits of a base. -/
structure Code where
  base : Nat
  digits : List Char
  value : Nat
  solid : '_' ∉ digits
  denotes : Denotes base digits value

/-- The code point is a surrogate or above the last one, so that no character has it. -/
def Code.isVoid (code : Code) : Bool :=
  (0xD800 ≤ code.value && code.value ≤ 0xDFFF) || 0x10FFFF < code.value

/-- The character of a code point, if there is one. -/
def Code.text (code : Code) : List Char := if code.isVoid then [] else [Char.ofNat code.value]

/-- A piece of a text between two `quote` characters. -/
inductive Piece (quote : Char) where
  /-- a character that stands for itself -/
  | plain (c : Char) (h : c ≠ '\n' ∧ c ≠ '\\' ∧ c ≠ quote)
  /-- a letter that stands for a character -/
  | named (letter c : Char) (h : (letter, c) ∈ namedEscapes)
  /-- the quote, which would end the text by itself -/
  | escapedQuote
  /-- two, four or eight hexadecimal digits -/
  | hex (letter : Char) (code : Code)
      (h : code.base = 16 ∧ (letter, code.digits.length) ∈ hexLetters)
  /-- one to three octal digits -/
  | octal (code : Code) (h : code.base = 8 ∧ 1 ≤ code.digits.length ∧ code.digits.length ≤ 3)

variable {quote : Char}

namespace Piece

/-- How a piece is written. -/
def spelling : Piece quote → List Char
  | plain c _ => [c]
  | named letter _ _ => ['\\', letter]
  | escapedQuote => ['\\', quote]
  | hex letter code _ => '\\' :: letter :: code.digits
  | octal code _ => '\\' :: code.digits

/-- The code point of a piece that has one in digits. -/
def code? : Piece quote → Option Code
  | hex _ code _ | octal code _ => some code
  | _ => none

/-- What a piece stands for. -/
def text : Piece quote → List Char
  | plain c _ | named _ c _ => [c]
  | escapedQuote => [quote]
  | hex _ code _ | octal code _ => code.text

/-- No character has the code point of the piece. -/
def isVoid (piece : Piece quote) : Bool := piece.code?.any Code.isVoid

/-- Another octal digit would belong to the piece. -/
def isShort : Piece quote → Bool
  | octal code _ => code.digits.length < 3
  | _ => false

/-- What is behind the piece does not belong to it. -/
def EndsAt (piece : Piece quote) (rest : List Char) : Prop :=
  piece.isShort → ∀ c ∈ rest.head?, ¬ isDigitOf 8 c

end Piece

/-- How pieces are written. -/
def spelling (pieces : List (Piece quote)) : List Char := pieces.flatMap Piece.spelling

theorem spelling_cons (piece : Piece quote) (pieces : List (Piece quote)) :
    spelling (piece :: pieces) = piece.spelling ++ spelling pieces :=
  List.flatMap_cons

/-- What pieces stand for. -/
def meaning (pieces : List (Piece quote)) : List Char := pieces.flatMap Piece.text

/-- Behind each octal escape of less than three digits stands something else than an octal digit. -/
def Separated : List (Piece quote) → Prop
  | [] => True
  | piece :: pieces => piece.EndsAt (spelling pieces ++ [quote]) ∧ Separated pieces

instance (piece : Piece quote) : (rest : List Char) → Decidable (piece.EndsAt rest)
  | [] => .isTrue nofun
  | c :: rest => decidable_of_iff (piece.isShort → ¬ isDigitOf 8 c) (by simp [Piece.EndsAt])

instance decidableSeparated : (pieces : List (Piece quote)) → Decidable (Separated pieces)
  | [] => .isTrue trivial
  | piece :: pieces =>
    have := decidableSeparated pieces
    inferInstanceAs (Decidable (piece.EndsAt (spelling pieces ++ [quote]) ∧ Separated pieces))

/-- The place behind the first void piece. -/
def faultOf (here : Location) : List (Piece quote) → Option Location
  | [] => none
  | piece :: pieces =>
    let there := here.advance piece.spelling
    if piece.isVoid then some there else faultOf there pieces

theorem isSome_faultOf (here : Location) (pieces : List (Piece quote)) :
    (faultOf here pieces).isSome = pieces.any Piece.isVoid := by
  induction pieces generalizing here with
  | nil => rfl
  | cons piece pieces ih =>
    rw [faultOf, List.any_cons]
    cases piece.isVoid with
    | true => rfl
    | false => exact ih _

/-! ### Codes -/

theorem Code.isDigitOf_of_mem (code : Code) {c : Char} (hc : c ∈ code.digits) :
    isDigitOf code.base c := by
  refine (code.denotes.numerals c hc).resolve_right ?_
  rintro rfl
  exact code.solid hc

/-- Digits without underscores have the value that they denote. -/
theorem valueOfDigits_of_denotes {base value : Nat} {digits : List Char} (hsolid : '_' ∉ digits)
    (h : Denotes base digits value) : valueOfDigits base digits = value := by
  have hall : digits.filter (· != '_') = digits := by
    refine List.filter_eq_self.mpr fun c hc => bne_iff_ne.mpr ?_
    rintro rfl
    exact hsolid hc
  rw [← h.valueOfDigits_eq, hall]

/-! ### Codes in a word -/

/-- A word keeps the value of the digits up to a multiple of its range. -/
theorem toNat_codeWord_mod (base : Nat) (digits : List Char) :
    (codeWord base digits).toNat = valueOfDigits base digits % 2 ^ 32 := by
  induction digits using List.reverseRecOn with
  | nil => rfl
  | append_singleton digits c ih =>
    rw [valueOfDigits_append_singleton, codeWord, List.foldl_append, List.foldl_cons,
      List.foldl_nil, UInt32.toNat_add, UInt32.toNat_mul, UInt32.toNat_ofNat', UInt32.toNat_ofNat']
    rw [codeWord] at ih
    rw [ih, ← Nat.mul_mod, ← Nat.add_mod]

theorem valueOfDigits_lt {base : Nat} (hbase : 0 < base) (digits : List Char) :
    valueOfDigits base digits < base ^ digits.length := by
  induction digits using List.reverseRecOn with
  | nil => exact Nat.one_pos
  | append_singleton digits c ih =>
    have hdigit : (digitValue? base c).getD 0 < base := by
      cases h : digitValue? base c with
      | none => exact hbase
      | some value => exact digitValue?_lt h
    rw [valueOfDigits_append_singleton, List.length_append, List.length_singleton, Nat.pow_succ]
    calc valueOfDigits base digits * base + (digitValue? base c).getD 0
        < valueOfDigits base digits * base + base := Nat.add_lt_add_left hdigit _
      _ = (valueOfDigits base digits + 1) * base := (Nat.succ_mul _ _).symm
      _ ≤ base ^ digits.length * base := Nat.mul_le_mul_right _ ih

/-- **A word holds the code point of a piece**, and whatever its first digits denote. -/
theorem toNat_codeWord {piece : Piece quote} {code : Code} (hcode : code ∈ piece.code?)
    {digits : List Char} {value : Nat} (hdigits : digits <+: code.digits)
    (hvalue : Denotes code.base digits value) : (codeWord code.base digits).toNat = value := by
  have hrange : 0 < code.base ∧ code.base ^ code.digits.length ≤ 2 ^ 32 := by
    cases piece with
    | plain | named | escapedQuote => cases hcode
    | hex letter code h =>
      cases hcode
      have hall : ∀ form ∈ hexLetters, 16 ^ form.2 ≤ 2 ^ 32 := by decide
      exact h.1 ▸ ⟨by decide, hall _ h.2⟩
    | octal code h =>
      cases hcode
      have hthree : 8 ^ code.digits.length ≤ 8 ^ 3 := Nat.pow_le_pow_right (by decide) h.2.2
      exact h.1 ▸ ⟨by decide, hthree.trans (by decide)⟩
  rw [toNat_codeWord_mod,
    ← valueOfDigits_of_denotes (fun hmem => code.solid (hdigits.subset hmem)) hvalue]
  refine Nat.mod_eq_of_lt ?_
  calc valueOfDigits code.base digits
      < code.base ^ digits.length := valueOfDigits_lt hrange.1 digits
    _ ≤ code.base ^ code.digits.length := Nat.pow_le_pow_right hrange.1 hdigits.length_le
    _ ≤ 2 ^ 32 := hrange.2

/-- The digits of an escape add up to its code point. -/
theorem Piece.codeWord_digits (piece : Piece quote) {code : Code} (hcode : code ∈ piece.code?) :
    (codeWord code.base code.digits).toNat = code.value :=
  toNat_codeWord hcode List.prefix_rfl code.denotes

/-! ### Escapes by code point -/

theorem charOfCode?_eq (code : Code) :
    Escape.charOfCode? code.value = if code.isVoid then none else some (Char.ofNat code.value) := by
  have hvoid : code.isVoid = false ↔ code.value.isValidChar := by
    simp only [Code.isVoid, Bool.or_eq_false_iff, Bool.and_eq_false_iff, decide_eq_false_iff_not,
      Nat.isValidChar]
    omega
  rw [Escape.charOfCode?]
  cases h : code.isVoid with
  | false => rw [if_pos (hvoid.mp h), if_neg Bool.false_ne_true]
  | true => rw [if_neg (mt hvoid.mpr (by simp [h])), if_pos rfl]

/-- A code point is read from its digits, where they are as many as there have to be and a word holds
it. -/
theorem ofCode_append_digits (code : Code) {lead base most : Nat} {exact : Bool}
    {rest : List Char} (hbase : code.base = base)
    (hword : (codeWord code.base code.digits).toNat = code.value)
    (hlength : 1 ≤ code.digits.length ∧ code.digits.length ≤ most)
    (hexact : exact = true → code.digits.length = most)
    (hrest : code.digits.length < most → ∀ c ∈ rest.head?, ¬ isDigitOf base c) :
    Escape.ofCode lead base most exact (code.digits ++ rest) =
      ⟨code.text.head?, lead + code.digits.length,
        if code.isVoid then some (lead + code.digits.length) else none⟩ := by
  subst hbase
  have hdigits : ((code.digits ++ rest).take most).takeWhile (isDigitOf code.base)
      = code.digits := by
    rw [List.take_append, List.take_of_length_le hlength.2,
      List.takeWhile_append_of_pos fun c hc => code.isDigitOf_of_mem hc]
    rcases Nat.lt_or_ge code.digits.length most with hlt | hge
    · cases rest with
      | nil => simp
      | cons c cs =>
        obtain ⟨n, hn⟩ := Nat.exists_eq_add_of_lt hlt
        rw [hn, Nat.add_assoc, Nat.add_sub_cancel_left, List.take_succ_cons,
          List.takeWhile_cons_of_neg (hrest hlt c rfl), List.append_nil]
    · rw [Nat.sub_eq_zero_of_le hge, List.take_zero, List.takeWhile_nil, List.append_nil]
  have hcomplete : (if exact then code.digits.length == most else !code.digits.isEmpty) = true := by
    cases exact with
    | true => simpa using hexact rfl
    | false =>
      have hne : code.digits ≠ [] := List.ne_nil_of_length_pos hlength.1
      simpa using hne
  rw [Escape.ofCode, hdigits]
  simp only [hcomplete, if_true, hword, charOfCode?_eq, Code.text]
  cases code.isVoid with
  | true => rfl
  | false => rfl

/-! ### Reading -/

/-- A quote that may stand around a text. -/
def IsQuote (quote : Char) : Prop := quote = '\'' ∨ quote = '"'

/-- An octal digit is no quote and names no escape. -/
theorem named?_of_isDigitOf {c : Char} (h : isDigitOf 8 c) :
    Escape.named? c = none ∧ ¬ IsQuote c := by
  constructor
  · unfold Escape.named?
    split <;> first | rfl | exact absurd h (by decide)
  · rintro (rfl | rfl) <;> exact absurd h (by decide)

/-- **An escape stands for what its piece does.** -/
theorem Piece.read_escape (hquote : IsQuote quote) (piece : Piece quote) {body rest : List Char}
    (hspelling : piece.spelling = '\\' :: body) (hends : piece.EndsAt rest) :
    Escape.read quote (body ++ rest) =
      ⟨piece.text.head?, body.length, if piece.isVoid then some body.length else none⟩ := by
  cases piece with
  | plain c h => exact absurd (List.cons_eq_cons.mp hspelling).1 h.2.1
  | named letter c h =>
    cases hspelling
    simp only [namedEscapes, List.mem_cons, List.not_mem_nil, or_false, Prod.mk.injEq] at h
    rcases h with h | h | h | h | h | h | h | h <;> obtain ⟨rfl, rfl⟩ := h <;> rfl
  | escapedQuote =>
    cases hspelling
    rcases hquote with rfl | rfl <;> rfl
  | hex letter code h =>
    have hword := (hex letter code h : Piece quote).codeWord_digits rfl
    obtain ⟨hbase, h⟩ := h
    cases hspelling
    have hread : ∀ most, (letter, most) ∈ hexLetters → 1 ≤ most ∧
        Escape.read quote (letter :: (code.digits ++ rest)) =
          Escape.ofCode 1 16 most true (code.digits ++ rest) := by
      intro most hmost
      simp only [hexLetters, List.mem_cons, List.not_mem_nil, or_false, Prod.mk.injEq] at hmost
      rcases hmost with h | h | h <;> obtain ⟨rfl, rfl⟩ := h <;> rcases hquote with rfl | rfl <;>
        exact ⟨by decide, rfl⟩
    obtain ⟨hpos, hread⟩ := hread _ h
    rw [List.cons_append, hread, ofCode_append_digits code hbase hword ⟨hpos, Nat.le_refl _⟩
      (fun _ => rfl) (fun hlt => absurd hlt (Nat.lt_irrefl _)), List.length_cons, Nat.add_comm 1]
    rfl
  | octal code h =>
    have hword := (octal code h : Piece quote).codeWord_digits rfl
    obtain ⟨hbase, hlength⟩ := h
    cases hspelling
    have hread : Escape.read quote (code.digits ++ rest) =
        Escape.ofCode 0 8 3 false (code.digits ++ rest) := by
      obtain ⟨d, ds, hcons⟩ := List.exists_cons_of_ne_nil (List.ne_nil_of_length_pos hlength.1)
      have hd : isDigitOf 8 d := hbase ▸ code.isDigitOf_of_mem (hcons ▸ List.mem_cons_self)
      obtain ⟨hnamed, hno⟩ := named?_of_isDigitOf hd
      have hne : ¬ (d == quote) := by
        rw [beq_iff_eq]
        rintro rfl
        exact hno hquote
      rw [hcons, List.cons_append, Escape.read, hnamed]
      dsimp only
      rw [if_neg hne, if_pos hd]
    rw [hread, ofCode_append_digits code hbase hword hlength (fun h => absurd h Bool.false_ne_true)
      fun hlt => hends (decide_eq_true hlt), Nat.zero_add]
    rfl

/-- What has been read of an escape already is passed over. -/
theorem readFrom_append_of_length (here : Location) (cs rest : List Char) :
    Quoted.readFrom quote here cs.length (cs ++ rest) =
      { Quoted.readFrom quote (here.advance cs) 0 rest with
        length := (Quoted.readFrom quote (here.advance cs) 0 rest).length + cs.length } := by
  induction cs generalizing here with
  | nil => rfl
  | cons c cs ih =>
    rw [List.cons_append, List.length_cons, Quoted.readFrom, ih, Location.advance_cons]
    rfl

/-- What is read of a text that starts with a piece. -/
def Piece.behind (piece : Piece quote) (here : Location) (rest : List Char) : Quoted :=
  let there := here.advance piece.spelling
  let tail := Quoted.readFrom quote there 0 rest
  { value := piece.text ++ tail.value
    length := tail.length + piece.spelling.length
    closed := tail.closed
    fault := if piece.isVoid then some there else tail.fault }

theorem Piece.readFrom_escape (hquote : IsQuote quote) (piece : Piece quote) (here : Location)
    {body rest : List Char} (hspelling : piece.spelling = '\\' :: body)
    (hends : piece.EndsAt rest) :
    Quoted.readFrom quote here 0 (piece.spelling ++ rest) = piece.behind here rest := by
  have hescape := piece.read_escape hquote hspelling hends
  have htext : piece.text.head?.toList = piece.text := by
    cases piece with
    | hex _ code _ | octal code _ =>
      simp only [Piece.text, Code.text]
      split_ifs <;> rfl
    | _ => rfl
  rw [hspelling, List.cons_append, Quoted.readFrom, if_neg (by decide), if_pos (by decide),
    hescape]
  dsimp only
  rw [readFrom_append_of_length, htext, Piece.behind, hspelling]
  cases piece.isVoid with
  | true => simp [Nat.add_assoc]
  | false => rfl

/-- **A piece is read as what it stands for**, in front of anything that does not belong to it. -/
theorem Piece.readFrom_spelling (hquote : IsQuote quote) (piece : Piece quote) (here : Location)
    {rest : List Char} (hends : piece.EndsAt rest) :
    Quoted.readFrom quote here 0 (piece.spelling ++ rest) = piece.behind here rest := by
  cases piece with
  | plain c h =>
    obtain ⟨hfeed, hbackslash, hc⟩ := h
    rw [Piece.spelling, List.singleton_append, Quoted.readFrom, if_neg (by simpa using hfeed),
      if_neg (by simpa using hbackslash), if_neg (by simpa using hc)]
    rfl
  | named | escapedQuote | hex | octal => exact readFrom_escape hquote _ here rfl hends

/-- The end of the body, or the next piece, is behind a piece. -/
theorem Piece.EndsAt.append {piece : Piece quote} {cs : List Char}
    (h : piece.EndsAt (cs ++ [quote])) (rest : List Char) : piece.EndsAt (cs ++ quote :: rest) := by
  intro hshort c hc
  refine h hshort c ?_
  cases cs with
  | nil => exact hc
  | cons d ds => exact hc

/-- **Pieces are read as what they stand for**, up to the closing quote. -/
theorem readFrom_pieces (hquote : IsQuote quote) {pieces : List (Piece quote)}
    (h : Separated pieces) (here : Location) (rest : List Char) :
    Quoted.readFrom quote here 0 (spelling pieces ++ quote :: rest) =
      ⟨meaning pieces, (spelling pieces).length + 1, true, faultOf here pieces⟩ := by
  induction pieces generalizing here with
  | nil =>
    rcases hquote with rfl | rfl <;> rfl
  | cons piece pieces ih =>
    obtain ⟨hends, hseparated⟩ := h
    have hread := piece.readFrom_spelling hquote here (hends.append rest)
    rw [spelling_cons, List.append_assoc, hread, Piece.behind, ih hseparated]
    simp only [meaning, List.flatMap_cons, faultOf, List.length_append]
    congr 1
    omega

/-! ### Line feeds -/

variable {faulty : Prop}

/-- A line feed may stand right behind a backslash, where there is a fault, and nowhere else. -/
def Feeds (faulty : Prop) (a b : Char) : Prop := b = '\n' → a = '\\' ∧ faulty

theorem isChain_of_notMem {cs : List Char} (h : '\n' ∉ cs) (a : Char) :
    List.IsChain (Feeds faulty) (a :: cs) := by
  induction cs generalizing a with
  | nil => exact .singleton a
  | cons b cs ih =>
    rw [List.mem_cons, not_or] at h
    exact .cons_cons (fun hb => absurd hb.symm h.1) (ih h.2 b)

/-- A line feed in a chain has its backslash. -/
theorem of_isChain_feeds {a : Char} {cs : List Char} (h : List.IsChain (Feeds faulty) (a :: cs))
    (hmem : '\n' ∈ cs) : ['\\', '\n'] <:+: a :: cs ∧ faulty := by
  induction cs generalizing a with
  | nil => cases hmem
  | cons b cs ih =>
    obtain ⟨hb, hcs⟩ := List.isChain_cons_cons.mp h
    by_cases hfeed : b = '\n'
    · obtain ⟨ha, hfaulty⟩ := hb hfeed
      subst hfeed ha
      exact ⟨⟨[], cs, rfl⟩, hfaulty⟩
    · have hlater : '\n' ∈ cs := (List.mem_cons.mp hmem).resolve_left (Ne.symm hfeed)
      exact (ih hcs hlater).imp_left fun hinfix => hinfix.trans (List.suffix_cons a _).isInfix

/-- The digits that are read are no line feeds. -/
theorem notMem_take_digits (base most : Nat) (cs : List Char) :
    '\n' ∉ cs.take ((cs.take most).takeWhile (isDigitOf base)).length := by
  have hprefix : (cs.take most).takeWhile (isDigitOf base) <+: cs :=
    (List.takeWhile_prefix _).trans (List.take_prefix _ _)
  rw [← List.prefix_iff_eq_take.mp hprefix]
  intro hmem
  have hdigit := List.mem_takeWhile_imp hmem
  have hno : isDigitOf base '\n' = false := by simp [isDigitOf, digitValue?]
  rw [hno] at hdigit
  cases hdigit

/-- **An escape that takes a line feed is faulty**, and the line feed is all it takes. -/
theorem isChain_escape (hquote : IsQuote quote) {cs : List Char}
    (hfault : (Escape.read quote cs).fault.isSome → faulty) :
    List.IsChain (Feeds faulty) ('\\' :: cs.take (Escape.read quote cs).length) := by
  cases cs with
  | nil => exact .singleton _
  | cons c cs =>
    have hone : (c = '\n' → faulty) → List.IsChain (Feeds faulty) ['\\', c] := fun hc =>
      .cons_cons (fun h => ⟨rfl, hc h⟩) (.singleton c)
    have hhex : ∀ most, c ≠ '\n' → List.IsChain (Feeds faulty)
        ('\\' :: (c :: cs).take (Escape.ofCode 1 16 most true cs).length) := by
      intro most hc
      rw [Escape.length_ofCode, Nat.add_comm, List.take_succ_cons]
      exact .cons_cons (fun h => absurd h hc) (isChain_of_notMem (notMem_take_digits _ _ _) c)
    revert hfault
    unfold Escape.read
    dsimp only
    split
    · next d hnamed =>
      refine fun _ => hone fun hc => ?_
      subst hc
      cases hnamed
    split_ifs with hc _ hc hc hc
    · refine fun _ => hone fun hfeed => ?_
      rw [beq_iff_eq, hfeed] at hc
      subst hc
      rcases hquote with h | h <;> exact absurd h (by decide)
    · rw [Escape.length_ofCode, Nat.zero_add]
      exact fun _ => isChain_of_notMem (notMem_take_digits _ _ _) _
    · exact fun _ => hhex _ (beq_iff_eq.mp hc ▸ by decide)
    · exact fun _ => hhex _ (beq_iff_eq.mp hc ▸ by decide)
    · exact fun _ => hhex _ (beq_iff_eq.mp hc ▸ by decide)
    · exact fun hfault => hone fun _ => hfault rfl

/-- **A line feed is read only right behind a backslash, and then there is a fault.**  The characters
that are skipped have to be so already. -/
theorem isChain_feeds (hquote : IsQuote quote) (here : Location) (skip : Nat) (cs : List Char)
    (a : Char) (hskip : List.IsChain (Feeds faulty) (a :: cs.take skip))
    (hfault : (Quoted.readFrom quote here skip cs).fault.isSome → faulty) :
    List.IsChain (Feeds faulty) (a :: cs.take (Quoted.readFrom quote here skip cs).length) := by
  fun_induction Quoted.readFrom quote here skip cs generalizing a with
  | case1 => exact .singleton a
  | case2 here skip c cs tail ih =>
    obtain ⟨hc, hcs⟩ := List.isChain_cons_cons.mp hskip
    exact .cons_cons hc (ih c hcs hfault)
  | case3 => exact .singleton a
  | case4 here c cs hfeed hbackslash escape inside tail ih =>
    rw [beq_iff_eq] at hbackslash
    subst hbackslash
    have hescape : escape.fault.isSome → faulty := fun h => hfault (by simp [h])
    have htail : tail.fault.isSome → faulty := fun h => hfault (by simp [h])
    exact .cons_cons (fun h => absurd h (by decide)) (ih _ (isChain_escape hquote hescape) htail)
  | case5 here c cs hfeed =>
    exact .cons_cons (fun h => absurd (beq_iff_eq.mpr h) hfeed) (.singleton c)
  | case6 here c cs hfeed hbackslash hquote tail ih =>
    exact .cons_cons (fun h => absurd (beq_iff_eq.mpr h) hfeed) (ih c (.singleton c) hfault)

end FilterLang.Text
