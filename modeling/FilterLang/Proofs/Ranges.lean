import FilterLang.Proofs.Grammar.Lookahead
import FilterLang.Proofs.Integers
import FilterLang.Proofs.Printing.RoundTrip

/-!
# Ranges of numbers

A dot may belong to a number or to the operator of a range.  Between two numbers there is no
confusion: two dots are the operator, whatever the numbers look like.

* `ScansToNumber` — the texts that are scanned to one number.
* `Scanner.finish_between_dots` — the operator behind a number.
* `scan_range` — the tokens of a range, and its tree where both numbers are integers.
-/

namespace FilterLang

open Grammar

/-- The text is scanned without a fault to one number, which says all of it. -/
def ScansToNumber (text : String) : Prop :=
  (scan text).fault = none ∧ (scan text).tokens.map Token.word = [(.number, text), (.eof, "")]

instance (text : String) : Decidable (ScansToNumber text) :=
  inferInstanceAs (Decidable (_ ∧ _))

theorem ScansToNumber.isNumber {text : String} (h : ScansToNumber text) :
    Scanner.IsNumber text.toList := by
  obtain ⟨hfault, hwords⟩ := h
  have hmem : (TokenKind.number, text) ∈ (scan text).tokens.map Token.word := by
    rw [hwords]
    exact .head _
  obtain ⟨token, htoken, hword⟩ := List.mem_map.mp hmem
  exact isNumber_of_scan hfault htoken hword

namespace Scanner

/-- The scanner goes on behind two dots, unless there is a third one. -/
theorem finish_between_dots {tokens : List Token} {here : Location} (rest : List Char) :
    finish .root (between tokens here ('.' :: '.' :: rest)) = finish .root
      (between (.ofText .operator ".." here :: tokens) (here.advance ['.', '.']) rest) := by
  have hstep : ∀ s : Scanner, s.lexeme = [] → s.rest = '.' :: '.' :: rest →
      finish .root s = finish .root ((s.read 2).emit .operator) := by
    intro s hlexeme hrest
    rw [finish_dot hlexeme hrest (by rintro d ds ⟨⟩; decide),
      readOne_cons (read_one hlexeme hrest).2, if_pos (by decide), read_read]
  rw [hstep _ rfl rfl]
  exact congrArg (finish .root) (emit_between ['.', '.'] rest .operator)

end Scanner

/-- The tokens of a range of two integers are read as one. -/
theorem parse_range {first dots second last : Token} {a b : Int} (hfirst : first.kind = .number)
    (ha : Numeral.readInteger? first.value = some a) (hdots : dots.word = (.operator, ".."))
    (hsecond : second.kind = .number) (hb : Numeral.readInteger? second.value = some b)
    (hlast : last.kind = .eof) :
    parse [first, dots, second, last] = ⟨some (.binary (.at dots.location) ".."
      (.integer (.at first.location) a) (.integer (.at second.location) b)), none⟩ := by
  obtain ⟨hkind, hvalue⟩ := Prod.mk.inj hdots
  have hsays : Says [dots] ⟨dots, 25, none⟩ := .plain hkind (by rw [hvalue]; rfl)
  have hparses := hsays.parses (parses_number hfirst ha .atom) (parses_number hsecond hb .atom)
    trivial trivial rfl rfl
  have hreads := hparses.closed (kind_ne hlast) []
  have hsolid : solid [first, dots, second, last] = [first, dots, second, last] := by
    rw [solid_cons (kind_ne hfirst), solid_cons (kind_ne hkind), solid_cons (kind_ne hsecond),
      solid_cons (kind_ne hlast)]
    rfl
  rw [← hvalue]
  exact parse_of_reads (by rw [hsolid]; exact hreads) (.inl hlast)

/-- **Ranges and fractions are never confused.**  Two numbers with two dots between them are scanned
without a fault to just these tokens, one right behind the other, if the first one does not end with
a dot.  If the numbers are integers, this is read as the range from one to the other. -/
theorem scan_range {m k : String} (hm : ScansToNumber m) (hk : ScansToNumber k)
    (hlast : m.toList.getLast? ≠ some '.') :
    let first : Token := .ofText .number m ⟨1, 0⟩
    let dots : Token := .ofText .operator ".." ⟨1, m.length⟩
    let second : Token := .ofText .number k ⟨1, m.length + 2⟩
    let last : Token := .ofText .eof "" ⟨1, m.length + 2 + k.length⟩
    scan (m ++ ".." ++ k) = ⟨[first, dots, second, last], none⟩ ∧
      ∀ a b, Numeral.readInteger? m = some a → Numeral.readInteger? k = some b →
        parse (scan (m ++ ".." ++ k)).tokens = ⟨some (.binary (.at dots.location) ".."
          (.integer (.at first.location) a) (.integer (.at second.location) b)), none⟩ := by
  intro first dots second last
  have hnumber := hm.isNumber
  have hnumber' := hk.isNumber
  have hplace : (⟨1, 0⟩ : Location).advance m.toList = ⟨1, m.length⟩ := by
    rw [Location.advance_of_notMem _ hnumber.notMem_feed, String.length_toList, Nat.zero_add]
  have hplace' : (⟨1, m.length + 2⟩ : Location).advance k.toList =
      ⟨1, m.length + 2 + k.length⟩ := by
    rw [Location.advance_of_notMem _ hnumber'.notMem_feed, String.length_toList]
  have hfinish : Scanner.finish .root { rest := m.toList ++ ('.' :: '.' :: (k.toList ++ [])) } =
      Scanner.between [last, second, dots, first] last.location [] := by
    show Scanner.finish .root (Scanner.between [] ⟨1, 0⟩ _) = _
    rw [Scanner.finish_between_number hnumber (Scanner.endsNumber_dots _) (fun _ => hlast), hplace,
      Scanner.finish_between_dots,
      Scanner.finish_between_number hnumber' Scanner.endsNumber_nil nofun]
    show Scanner.finish .root (Scanner.between _ (Location.advance ⟨1, m.length + 2⟩ _) []) = _
    rw [hplace', Scanner.finish_between_end, String.ofList_toList, String.ofList_toList]
    rfl
  have hchars : (m ++ ".." ++ k).toList = m.toList ++ ('.' :: '.' :: (k.toList ++ [])) := by
    rw [String.toList_append, String.toList_append, List.append_assoc, List.append_nil]
    rfl
  have hscan : scan (m ++ ".." ++ k) = ⟨[first, dots, second, last], none⟩ := by
    rw [scan, Scanner.scanChars_eq, hchars, hfinish]
    rfl
  refine ⟨hscan, fun a b ha hb => ?_⟩
  rw [hscan]
  exact parse_range rfl ha rfl rfl hb rfl

/-- The range from a binary number to one in groups of digits. -/
theorem scan_range_based :
    ScansToNumber "0b1_01" ∧ ScansToNumber "6_0" ∧
      scan ("0b1_01" ++ ".." ++ "6_0") =
        ⟨[.ofText .number "0b1_01" ⟨1, 0⟩, .ofText .operator ".." ⟨1, 6⟩,
          .ofText .number "6_0" ⟨1, 8⟩, .ofText .eof "" ⟨1, 11⟩], none⟩ ∧
      parse (scan ("0b1_01" ++ ".." ++ "6_0")).tokens =
        ⟨some (.binary (.at ⟨1, 6⟩) ".." (.integer (.at ⟨1, 0⟩) 5) (.integer (.at ⟨1, 8⟩) 60)),
          none⟩ := by
  have hm : ScansToNumber "0b1_01" := by decide +kernel
  have hk : ScansToNumber "6_0" := by decide +kernel
  obtain ⟨hscan, hparse⟩ := scan_range hm hk (by decide)
  exact ⟨hm, hk, hscan, hparse 5 60 (by decide +kernel) (by decide +kernel)⟩

/-- **A comment behind the first number** is no part of its token, but it takes the dots away. -/
theorem scan_range_comment :
    let m := "1//"
    let k := "2"
    ((scan m).fault = none ∧ (scan m).tokens.map Token.kind = [.number, .eof]) ∧
      ((scan k).fault = none ∧ (scan k).tokens.map Token.kind = [.number, .eof]) ∧
      m.toList.getLast? ≠ some '.' ∧ k.toList.head? ≠ some '.' ∧
      (scan (m ++ ".." ++ k)).tokens.map Token.word = [(.number, "1"), (.eof, "")] := by
  decide +kernel

end FilterLang
