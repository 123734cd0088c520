import FilterLang.Proofs.Printing.Slots
import FilterLang.Proofs.Scanner.Numbers

/-!
# A number takes a dot behind it along

* `readNumber_point` — where a dot and a name follow the digits of a number, the number is faulty or
  takes both along.
* `Piece.Trails` — a text may stand in front of a dot, or it ends in a number: `trails_ofTree`.
* `not_agrees_of_missing` — a tree does not agree with words that lack some of its own.
* `kept_ne_of_point` — so a field behind a number is lost.
-/

namespace FilterLang

namespace Scanner

open Text

variable {s : Scanner} {p : Char → Bool} {back cs name : List Char} {ws vs : List Word}

/-! ### Reading a number with a point -/

/-- What ends a number that has a point already. -/
def EndsFraction (back : List Char) : Prop :=
  ∀ c ds, back = c :: ds → ¬ isWordChar c ∧ c ≠ '+' ∧ c ≠ '-'

/-- Some characters of a word are left in front of that text. -/
def WithinWord (back : List Char) (s : Scanner) : Prop :=
  ∃ cs, s.rest = cs ++ back ∧ ∀ c ∈ cs, isWordChar c

theorem WithinWord.readWhile (h : WithinWord back s) (hback : EndsFraction back)
    (hp : ∀ c, p c → isWordChar c) : WithinWord back (s.readWhile p) := by
  obtain ⟨cs, hrest, hcs⟩ := h
  have hstop : back.dropWhile p = back := by
    cases back with
    | nil => rfl
    | cons c ds => exact List.dropWhile_cons_of_neg fun hc => (hback c ds rfl).1 (hp c hc)
  rw [WithinWord, readWhile_rest, hrest, List.dropWhile_append]
  split_ifs with hall
  · exact ⟨[], hstop, nofun⟩
  · exact ⟨_, rfl, fun c hc => hcs c ((List.dropWhile_suffix p).subset hc)⟩

theorem WithinWord.readExponent {base : Nat} (h : WithinWord back s) (hback : EndsFraction back) :
    WithinWord back (s.readExponent base) := by
  obtain ⟨cs, hrest, hcs⟩ := h
  have hletter : ∀ c, (c == 'e' || c == 'E') = true → isWordChar c := by
    intro c hc
    have hc : c = 'e' ∨ c = 'E' := by simpa using hc
    rcases hc with rfl | rfl <;> decide
  have hsign : ∀ c, (c == '+' || c == '-') = true → ¬ isWordChar c ∧ (c = '+' ∨ c = '-') := by
    intro c hc
    have hc : c = '+' ∨ c = '-' := by simpa using hc
    rcases hc with rfl | rfl <;> decide
  cases cs with
  | nil =>
    cases back with
    | nil => exact ⟨[], by simp only [Scanner.readExponent, hrest, List.append_nil], nofun⟩
    | cons c ds =>
      have hno : ¬ (c == 'e' || c == 'E') = true := fun hc => (hback c ds rfl).1 (hletter c hc)
      refine ⟨[], ?_, nofun⟩
      simp only [Scanner.readExponent, hrest, List.nil_append, if_neg hno]
  | cons c cs =>
    rw [List.cons_append] at hrest
    simp only [Scanner.readExponent, hrest]
    split_ifs with hc
    · -- neither the rest of the word nor what is behind it starts with a sign
      have hone : (s.read 1).rest = cs ++ back := by
        rw [read_rest, hrest]
        rfl
      have hnone : (s.read 1).readOne (fun c => c == '+' || c == '-') = s.read 1 := by
        refine readOne_of_not hone ?_
        intro d ds hd hdsign
        obtain ⟨hword, hor⟩ := hsign d hdsign
        rcases List.append_eq_cons_iff.mp hd with ⟨-, hback'⟩ | ⟨es, rfl, -⟩
        · exact hor.elim (hback d ds hback').2.1 (hback d ds hback').2.2
        · exact hword (hcs d (.tail _ (.head _)))
      rw [hnone]
      exact WithinWord.readWhile ⟨cs, hone, fun d hd => hcs d (.tail _ hd)⟩ hback
        fun d hd => isWordChar_of_isNumeralChar hd
    · exact ⟨c :: cs, hrest, hcs⟩

/-- A word that is not read to its end is a clash. -/
theorem WithinWord.readClash (h : WithinWord back s) (hsound : s.readClash.2 = true) :
    s.readClash.1.rest = back := by
  obtain ⟨cs, hrest, hcs⟩ := h
  rw [Scanner.readClash] at hsound ⊢
  split_ifs at hsound ⊢ with hclash
  cases cs with
  | nil => exact hrest
  | cons c cs =>
    rw [hrest, List.cons_append, List.head?_cons, Option.any_some] at hclash
    exact absurd (hcs c (.head _)) hclash

/-- **A number takes along the name behind it** and the dot in between, if it is sound at all. -/
theorem readNumber_point (hcs : ∀ c ∈ cs, isNumeralChar 10 c) (hne : cs ≠ [])
    (hname : IsWord name) (hback : EndsFraction back) (hrest : s.rest = cs ++ '.' :: (name ++ back))
    (hsound : s.readNumber.2 = true) : s.readNumber.1.rest = back := by
  have hends : EndsWord ('.' :: (name ++ back)) := by
    rintro c ds ⟨⟩
    decide
  have hbase := readBase_of_numerals hrest hne hcs hends
  obtain ⟨hread, hpoint⟩ := readWhile_of_readBase (n := 0) (by rwa [read_zero]) hcs hends
  rw [Nat.zero_add] at hread hpoint
  rw [read_zero] at hread
  have hdots : ∀ ds, (s.read cs.length).rest ≠ '.' :: '.' :: ds := by
    intro ds hds
    obtain ⟨hword, c, es, rfl, -⟩ := hname
    rw [hpoint] at hds
    cases hds
    exact absurd (hword '.' (.head _)) (by decide)
  have hwithin : WithinWord back ((s.read cs.length).readPoint 10) := by
    rw [readPoint, hpoint, List.head?_cons, if_pos (by rfl)]
    have hone : ((s.read cs.length).read 1).rest = name ++ back := by
      rw [read_rest, hpoint]
      rfl
    exact WithinWord.readWhile ⟨name, hone, hname.1⟩ hback
      fun c hc => isWordChar_of_isNumeralChar hc
  rw [readNumber_eq, hbase] at hsound ⊢
  dsimp only at hsound ⊢
  rw [hread, readFraction_of_not_dots hdots] at hsound ⊢
  exact (hwithin.readExponent hback).readClash hsound

/-- The token that such a number becomes, unless there is a fault. -/
theorem finish_point (hcs : ∀ c ∈ cs, c.isDigit) (hne : cs ≠ []) (hname : IsWord name)
    (hback : EndsFraction back) (hlexeme : s.lexeme = [])
    (hrest : s.rest = cs ++ '.' :: (name ++ back)) (hfault : (finish .root s).fault = none) :
    ∃ value t, finish .root s = finish .root t ∧ t.lexeme = [] ∧ t.rest = back ∧
      t.tokens.map Token.word = (.number, value) :: s.tokens.map Token.word := by
  obtain ⟨c, ds, rfl⟩ := List.exists_cons_of_ne_nil hne
  have hc : c.isDigit := hcs c (.head _)
  have hready : Ready .number s := ⟨.inl hlexeme, c, _, hrest, hc⟩
  have hfinish : finish .root s = finish .root (s.step .number).2 := by
    obtain ⟨t, -, hstep, -⟩ := step_number_spec s
    rw [finish_root hlexeme hrest (stepRoot_of_isDigit hc s), finish_step hready (by decide), hstep]
  have hnumerals : ∀ c' ∈ c :: ds, isNumeralChar 10 c' := by
    intro c' hc'
    rw [isNumeralChar, isDigitOf_ten, hcs c' hc']
    rfl
  cases hsound : s.readNumber.2 with
  | false =>
    -- a fault that is noted stays
    have hnoted : (s.step .number).2.fault ≠ none := by
      simp only [step, hsound, Bool.false_eq_true, if_false, emit_fault]
      exact fault_note_ne_none _ _
    obtain ⟨t, -, hstep, ht, -⟩ := step_number_spec s
    have hready : Ready .root (s.step .number).2 := by
      rw [hstep]
      exact ht
    obtain ⟨u, hu, -, -, hend⟩ := stable_faulty.finish hready (by decide) hnoted
    rw [hfinish, hend] at hfault
    exact absurd hfault hu
  | true =>
    have hbehind := readNumber_point hnumerals hne hname hback hrest hsound
    obtain ⟨n, hn⟩ := s.readNumber_eq_read
    have hstep : (s.step .number).2 = s.readNumber.1.emit .number := by
      simp only [step, hsound, if_true]
    refine ⟨String.ofList s.readNumber.1.lexeme, s.readNumber.1.emit .number, ?_, rfl, hbehind, ?_⟩
    · rw [hfinish, hstep]
    · show _ :: s.readNumber.1.tokens.map Token.word = _
      rw [hn, read_tokens]
      rfl

/-- The words of a text with such a number, if there is no fault. -/
theorem scan_point {text : String} {front : List Char}
    (htext : text.toList = front ++ (cs ++ '.' :: (name ++ back)))
    (hfront : Takes front ws (cs ++ '.' :: (name ++ back))) (hcs : ∀ c ∈ cs, c.isDigit)
    (hne : cs ≠ []) (hname : IsWord name) (hback : EndsFraction back) (hbehind : Takes back vs [])
    (hfault : (scan text).fault = none) :
    ∃ value before last, (scan text).tokens = before ++ [last] ∧
      before.map Token.word = ws ++ (.number, value) :: vs ∧ last.kind = .eof := by
  obtain ⟨t, hfinish, hlexeme, hrest, -, hwords⟩ := hfront { rest := text.toList } rfl htext
  rw [scan, scanChars_eq, hfinish] at hfault ⊢
  obtain ⟨value, u, hfinish', hlexeme', hrest', hwords'⟩ :=
    finish_point hcs hne hname hback hlexeme hrest hfault
  obtain ⟨v, hfinish'', hlexeme'', hrest'', -, hwords''⟩ :=
    hbehind u hlexeme' (by rw [hrest', List.append_nil])
  rw [hfinish', hfinish'', finish_end hlexeme'' hrest'']
  refine ⟨value, v.tokens.reverse, _, List.reverse_cons, ?_, rfl⟩
  rw [List.map_reverse, hwords'', hwords', hwords]
  simp

end Scanner

open Scanner Piece

/-! ### Words that are missing -/

/-- **A tree does not agree with words that lack some of its own**, if no `&&` of a chain is among
those. -/
theorem not_agrees_of_missing {front us back : List String} {vs ws : List Mark}
    (hvs : vs.map Prod.fst = front ++ (us ++ back)) (hws : ws.map Prod.fst = front ++ back)
    (hne : us ≠ []) (hand : "&&" ∉ us) : ¬ Agrees vs ws := by
  intro h
  have hcomparison : ∀ kept, Operator.isComparison kept → kept ≠ "&&" := by
    rintro kept hkept rfl
    exact absurd hkept (by decide)
  induction h generalizing front us back with
  | nil => simp_all
  | @cons v w vs ws hadmits _ ih =>
    cases front with
    | cons kept front =>
      rw [List.map_cons, List.cons_append] at hvs hws
      exact ih (List.cons.inj hvs).2 (List.cons.inj hws).2 hne hand
    | nil =>
      -- the missing words move along the words behind them
      obtain ⟨kept, us, rfl⟩ := List.exists_cons_of_ne_nil hne
      rw [List.nil_append, List.map_cons] at hws
      rw [List.nil_append, List.cons_append, List.map_cons] at hvs
      obtain ⟨hv, hvs⟩ := List.cons.inj hvs
      have hback : back = kept :: ws.map Prod.fst := by rw [← hws, ← hv, hadmits.1]
      rw [hback, List.append_cons] at hvs
      have hand : "&&" ∉ us ++ [kept] := by
        intro hmem
        rcases List.mem_append.mp hmem with hmem | hmem
        · exact hand (.tail _ hmem)
        · exact hand (List.mem_singleton.mp hmem ▸ .head _)
      exact ih (hvs.trans (List.nil_append _).symm) (List.nil_append _).symm (by simp) hand
  | @chain w vs ws hchain =>
    cases front with
    | cons kept front =>
      rw [List.map_cons, List.cons_append] at hvs hws
      have hkept := (List.cons.inj hvs).1.trans (List.cons.inj hws).1.symm
      exact hcomparison _ hchain hkept.symm
    | nil =>
      obtain ⟨kept, us, rfl⟩ := List.exists_cons_of_ne_nil hne
      rw [List.nil_append, List.cons_append, List.map_cons] at hvs
      exact hand ((List.cons.inj hvs).1 ▸ .head _)

/-! ### Texts that end in a number -/

namespace Piece

/-- The decimal digits of a number. -/
def number (n : Nat) : Piece := ⟨toString (n : Int), [(.number, toString (n : Int))]⟩

/-- The text may stand in front of a dot, or it ends in a number. -/
def Trails (p : Piece) : Prop :=
  (∀ rest, MayFollow true rest → p.Taken rest) ∨
    ∃ front n, p = front ++ number n ∧ ∀ rest, front.Taken ((number n).text.toList ++ rest)

theorem Trails.prepend {p q : Piece} (h : q.Trails) (hstarts : Starts q.text.toList)
    (hp : ∀ rest, Starts rest → p.Taken rest) : (p ++ q).Trails := by
  rcases h with h | ⟨front, n, rfl, h⟩
  · exact .inl fun rest hrest => (hp _ (hstarts.append rest)).append (h rest hrest)
  · refine .inr ⟨p ++ front, n, (append_assoc ..).symm, fun rest => ?_⟩
    refine Taken.append (hp _ ?_) (h rest)
    have hall := hstarts.append rest
    rwa [text_append, toList_append, List.append_assoc] at hall

theorem Trails.bracket {p : Piece} (h : p.Trails) (hp : ∀ rest, MayFollow false rest → p.Taken rest)
    (due : Bool) : (bracket due p).Trails := by
  cases due with
  | false => exact h
  | true => exact .inl fun rest _ => takes_bracket true hp nofun

end Piece

/-- The text of a tree whose last piece is an operand. -/
theorem Slot.trails {t operand : Expr} {opening : Piece} {due : Bool}
    (h : Slot t opening due operand empty) (ht : t.WellFormed)
    (hoperand : (ofTree operand).Trails) : (ofTree t).Trails := by
  have hprintable := (h.wellFormed ht).printable
  rw [h.piece, append_empty]
  refine Trails.prepend (hoperand.bracket (fun rest hrest => ?_) due)
    (starts_bracket (starts_print hprintable.legible) due) fun rest hrest =>
      (h.taken_opening ht hrest).2
  exact takes_print hprintable rest hrest.mono

/-- **The text of a tree may stand in front of a dot, or it ends in a number.** -/
theorem trails_ofTree {t : Expr} (ht : t.WellFormed) : (ofTree t).Trails := by
  have hdot : ∀ {t : Expr}, t.WellFormed → t.needsBracketsBeforeDot = false →
      (ofTree t).Trails := by
    intro t ht hdue
    have htakes : t.takesDot = true := by
      rw [Expr.takesDot, hdue, ht.endsInMark]
      rfl
    exact .inl fun rest hrest => takes_print ht.printable rest (htakes ▸ hrest)
  refine Expr.Legible.induction (motive := fun t => t.WellFormed → (ofTree t).Trails) ?negation
    ?unary ?binary ?member ?string ?integer ?bool ?nil ?identifier t ht.printable.legible ht
  case negation =>
    intro note inner relation left right hrelation _ _ _ ihright ht
    exact (Slot.right (.negation note inner left right hrelation)).trails ht (ihright ht.2.2.2)
  case unary =>
    intro note operator operand _ hplain _ ih ht
    exact (Slot.prefixed note hplain).trails ht (ih ht.2)
  case binary =>
    intro note operator left right _ _ _ _ ihright ht
    exact (Slot.right (.binary note operator left right)).trails ht (ihright ht.2.2)
  case member => exact fun _ _ _ _ _ _ _ ht => hdot ht rfl
  case string => exact fun _ _ ht => hdot ht rfl
  case integer =>
    exact fun note n _ _ => .inr ⟨empty, n, (empty_append _).symm, fun rest => taken_empty _⟩
  case bool => exact fun _ _ ht => hdot ht rfl
  case nil => exact fun _ ht => hdot ht rfl
  case identifier => exact fun _ _ _ _ ht => hdot ht rfl

/-! ### Fields that are lost -/

/-- What is kept of the words of a piece. -/
def Piece.kept (p : Piece) : List String := (solidWords p.words).filterMap keptOf?

theorem Piece.kept_append (p q : Piece) : (p ++ q).kept = p.kept ++ q.kept := by
  rw [kept, words_append, Expr.solidWords_append, List.filterMap_append]
  rfl

theorem Piece.kept_bracket (due : Bool) (p : Piece) : (bracket due p).kept = p.kept := by
  show (solidWords (Expr.bracketWords due p.words)).filterMap keptOf? = _
  rw [Expr.solidWords_bracketWords, Expr.filterMap_bracketWords]
  rfl

theorem Piece.kept_field (name : String) :
    (field name).kept = "." :: (keptOf? (.identifier, name)).toList := by
  have hname : Expr.kindOfName name ≠ .whitespace := by
    rcases Expr.kindOfName_cases name with h | h <;> rw [h] <;> decide
  rw [kept, field, Expr.solidWords_cons (by decide), Expr.solidWords_cons hname,
    List.filterMap_cons, ← Expr.keptOf?_kindOfName, ← Expr.filterMap_singleton]
  rfl

/-- The text of a tree keeps what the tree does. -/
theorem kept_ofTree (t : Expr) : (ofTree t).kept = t.marks.map Prod.fst := by
  show (solidWords (t.words [space])).filterMap keptOf? = _
  rw [Expr.solidWords_words, Expr.filterMap_words]

@[simp]
theorem Expr.marks_bare (t : Expr) : t.bare.marks = t.marks := by
  induction t with
  | unary note operator operand ih => rw [bare, marks, marks, ih]
  | binary note operator left right ihleft ihright => rw [bare, marks, marks, ihleft, ihright]
  | member note object property method ihobject ihproperty =>
    have hconstant : object.bare.isConstant = object.isConstant := by cases object <;> rfl
    rw [bare, marks, marks, ihobject, ihproperty, hconstant]
  | call note callee ih => rw [bare, marks, marks, ih]
  | _ => rfl

theorem MayFollow.endsFraction {dotted : Bool} {rest : List Char} (h : MayFollow dotted rest) :
    EndsFraction rest := by
  intro c ds hrest
  rcases h c ds hrest with rfl | rfl | ⟨rfl, -⟩ <;> decide

/-- **A field behind a number is lost.**  The text is not read to a tree with all of its words. -/
theorem kept_ne_of_point {front more : Piece} {n : Nat} {name : String} {e : Expr}
    (hfront : ∀ rest, front.Taken ((number n).text.toList ++ rest)) (hname : IsWord name.toList)
    (hmore : more.Taken []) (hfollow : MayFollow true more.text.toList)
    (h : readTree (front ++ (number n ++ (field name ++ more))).text = .ok e) :
    e.marks.map Prod.fst ≠ (front ++ (number n ++ (field name ++ more))).kept := by
  intro hkept
  have hdigits : (number n).text.toList = Nat.toDigits 10 n := Numeral.toList_toString n
  have htext : (front ++ (number n ++ (field name ++ more))).text.toList =
      front.text.toList ++ (Nat.toDigits 10 n ++ '.' :: (name.toList ++ more.text.toList)) := by
    simp only [text_append, toList_append, hdigits, field]
    rfl
  obtain ⟨value, before, last, htokens, hwords, hlast⟩ := scan_point htext (hdigits ▸ hfront _)
    (fun c hc => Nat.isDigit_of_mem_toDigits (by omega) (by omega) hc) Nat.toDigits_ne_nil hname
    hfollow.endsFraction hmore (readTree_eq_ok_iff.mp h).1
  have hnumber : (TokenKind.number, value).1 ≠ .whitespace := by simp
  have hend : (solidWords [last.word]).filterMap keptOf? = [] := by
    rw [Token.word, hlast]
    rfl
  have hvs : e.marks.map Prod.fst =
      (front.kept ++ [""]) ++ ((field name).kept ++ more.kept) := by
    rw [hkept, kept_append, kept_append, kept_append, List.append_assoc]
    rfl
  -- the words of the text keep neither the dot nor the name behind it
  have hws : (marks false (solidWords ((scan (front ++ (number n ++
      (field name ++ more))).text).tokens.map Token.word))).map Prod.fst =
      (front.kept ++ [""]) ++ more.kept := by
    rw [map_fst_marks, htokens, List.map_append, hwords, List.map_singleton, Expr.solidWords_append,
      Expr.solidWords_append, Expr.solidWords_cons hnumber, List.filterMap_append,
      List.filterMap_append, hend, List.append_nil, List.append_assoc]
    rfl
  have hand : "&&" ∉ (field name).kept := by
    rw [kept_field]
    intro hmem
    have hsign : "&&" ≠ "." := by decide
    rcases List.mem_cons.mp hmem with hdot | hmem
    · exact hsign hdot
    · have hname : name ≠ "&&" := Expr.ne_of_isWord hname (by decide)
      have hsome : (if name = "not" then none else some name) = some "&&" :=
        Option.mem_toList.mp hmem
      split_ifs at hsome
      exact hname (Option.some.inj hsome)
  have hne : (field name).kept ≠ [] := by
    rw [kept_field]
    exact List.cons_ne_nil _ _
  exact not_agrees_of_missing hvs hws hne hand (agrees_of_readTree h)

end FilterLang
