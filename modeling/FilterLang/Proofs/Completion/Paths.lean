import FilterLang.Proofs.Completion.Items
import FilterLang.Proofs.Cursor
import FilterLang.Proofs.Grammar.Verdict
import FilterLang.Proofs.Scanner.Line
import FilterLang.Proofs.Scanner.Words

/-!
# Operators behind a path

Behind a path of a variable and its fields, with a space, operators are offered.  They are those that
suit the variable of the last name of the path, and that need not be what the path leads to.

* `IsName` — the words that are names, wherever they stand.
* `pathText`, `pathWords` — a path with a space behind it, and the words of the path.
* `scan_pathText` — the tokens of such a text.
* `completeTokens_pathText` — those in front of the space are complete.
* `top_of_path` — the strict reading gives a tree or stops behind it.
* `operators_of_path` — what is offered behind a path, and when that suits what it leads to.
-/

namespace FilterLang

open Scanner

/-! ### The text of a path -/

/-- A run of word characters that is a single name when it is scanned. -/
def IsName (text : String) : Prop :=
  (∀ c ∈ text.toList, Text.isWordChar c) ∧
    ∃ token last, (scan text).tokens = [token, last] ∧ token.kind = .identifier

/-- Fields, each behind its dot, and a space. -/
def fieldText : List String → String
  | [] => " "
  | field :: fields => "." ++ field ++ fieldText fields

/-- A variable with fields, and a space. -/
def pathText (name : String) (fields : List String) : String := name ++ fieldText fields

/-- The words of fields. -/
def fieldWords : List String → List Word
  | [] => []
  | field :: fields => (.operator, ".") :: (.identifier, field) :: fieldWords fields

/-- The words of a path. -/
def pathWords (name : String) (fields : List String) : List Word :=
  (.identifier, name) :: fieldWords fields

/-! ### Names -/

/-- A name does not start with a digit: that would become a number. -/
theorem IsName.isWord {text : String} (h : IsName text) : IsWord text.toList := by
  obtain ⟨hchars, token, last, htokens, hkind⟩ := h
  refine ⟨hchars, ?_⟩
  cases hcons : text.toList with
  | nil =>
    obtain rfl : text = "" := String.toList_eq_nil_iff.mp hcons
    have hlength : (scan "").tokens.length = 1 := by decide
    rw [htokens] at hlength
    cases hlength
  | cons c cs =>
    refine ⟨c, cs, rfl, fun hdigit => ?_⟩
    let start : Scanner := { rest := text.toList }
    have hrest : start.rest = c :: cs := hcons
    have hready : Ready .number start := ⟨.inl rfl, c, cs, hrest, hdigit⟩
    obtain ⟨t, number, hstep, hlexeme, hnumber, hkind'⟩ := step_number_spec start
    have hfinish := (finish_root rfl hrest (stepRoot_of_isDigit hdigit start)).trans
      (finish_step hready nofun)
    rw [hstep] at hfinish
    obtain ⟨more, hmore⟩ := exists_tokens_of_finish hlexeme hfinish
    rw [htokens, hnumber] at hmore
    obtain rfl : token = number := (List.cons.inj hmore).1
    rw [hkind] at hkind'
    cases hkind'

/-- A name is one token wherever no word character is behind it. -/
theorem IsName.takes {text : String} (h : IsName text) {rest : List Char} (hends : EndsWord rest) :
    Takes text.toList [(.identifier, text)] rest := by
  have hword := h.isWord
  obtain ⟨-, token, last, htokens, hkind⟩ := h
  have hnil : EndsWord [] := fun _ _ hcons => nomatch hcons
  obtain ⟨-, front, final, htokens', hwords, -⟩ := scan_of_takes (takes_word hword hnil)
  obtain rfl : [token] = front :=
    (List.append_inj' (show [token] ++ [last] = _ from htokens.symm.trans htokens') rfl).1
  have hkindOf : kindOfWord (String.ofList text.toList) = .identifier := by
    rw [← hkind]
    exact (congrArg Prod.fst (List.cons.inj hwords).1).symm
  have htakes := takes_word hword hends
  rwa [hkindOf, String.ofList_toList] at htakes

/-! ### Scanning -/

/-- No word goes on where a field begins. -/
theorem endsWord_fieldText (fields : List String) : EndsWord (fieldText fields).toList := by
  cases fields with
  | nil =>
    rintro c ds ⟨⟩
    decide
  | cons field fields =>
    rw [fieldText, String.toList_append, String.toList_append]
    rintro c ds ⟨⟩
    decide

theorem takes_fieldText {fields : List String} (h : ∀ field ∈ fields, IsName field) :
    Takes (fieldText fields).toList (fieldWords fields ++ [space]) [] := by
  induction fields with
  | nil => exact takes_space nofun
  | cons field fields ih =>
    obtain ⟨hfield, hfields⟩ := List.forall_mem_cons.mp h
    have hname := hfield.takes (endsWord_fieldText fields)
    rw [← List.append_nil (fieldText fields).toList] at hname
    have hrest := hname.append (ih hfields)
    have hdot : Takes ['.'] [(.operator, ".")]
        (field.toList ++ (fieldText fields).toList ++ []) := by
      obtain ⟨hchars, c, cs, hcons, hdigit⟩ := hfield.isWord
      refine takes_dot fun d ds hd => ?_
      rw [hcons] at hd
      obtain rfl : c = d := (List.cons.inj hd).1
      refine ⟨hdigit, ?_⟩
      rintro rfl
      exact absurd (hchars '.' (by rw [hcons]; exact .head _)) (by decide)
    have htakes := hdot.append hrest
    rw [fieldText, String.toList_append, String.toList_append, List.append_assoc]
    exact htakes

theorem takes_pathText {name : String} {fields : List String}
    (h : ∀ word ∈ name :: fields, IsName word) :
    Takes (pathText name fields).toList (pathWords name fields ++ [space]) [] := by
  obtain ⟨hname, hfields⟩ := List.forall_mem_cons.mp h
  have htakes := hname.takes (endsWord_fieldText fields)
  rw [← List.append_nil (fieldText fields).toList] at htakes
  rw [pathText, String.toList_append]
  exact htakes.append (takes_fieldText hfields)

/-- The words of a path and a space are as long as its text. -/
theorem length_pathText (name : String) (fields : List String) : (pathText name fields).length =
    ((pathWords name fields).map fun word => word.2.length).sum + 1 := by
  have hfields : (fieldText fields).length =
      ((fieldWords fields).map fun word => word.2.length).sum + 1 := by
    induction fields with
    | nil => rfl
    | cons field fields ih =>
      have hdot : ".".length = 1 := rfl
      rw [fieldText, String.length_append, String.length_append, ih, hdot]
      simp only [fieldWords, List.map_cons, List.sum_cons, hdot]
      omega
  rw [pathText, String.length_append, hfields, pathWords, List.map_cons, List.sum_cons]
  exact (Nat.add_assoc _ _ _).symm

theorem IsName.not_mem_feed {text : String} (h : IsName text) : '\n' ∉ text.toList :=
  fun hmem => absurd (h.1 _ hmem) (by decide)

/-- A path is written in one line. -/
theorem not_mem_feed_pathText {name : String} {fields : List String}
    (h : ∀ word ∈ name :: fields, IsName word) : '\n' ∉ (pathText name fields).toList := by
  obtain ⟨hname, hfields⟩ := List.forall_mem_cons.mp h
  have hbehind : '\n' ∉ (fieldText fields).toList := by
    clear h
    induction fields with
    | nil => decide
    | cons field fields ih =>
      obtain ⟨hfield, hfields⟩ := List.forall_mem_cons.mp hfields
      rw [fieldText, String.toList_append, String.toList_append, List.mem_append, List.mem_append,
        not_or, not_or]
      exact ⟨⟨by decide, hfield.not_mem_feed⟩, ih hfields⟩
  rw [pathText, String.toList_append, List.mem_append, not_or]
  exact ⟨hname.not_mem_feed, hbehind⟩

/-- The tokens of a path are names and operators. -/
theorem kind_of_pathWords {name : String} {fields : List String} {path : List Token}
    (h : path.map Token.word = pathWords name fields) :
    ∀ token ∈ path, token.kind = .identifier ∨ token.kind = .operator := by
  have hfields : ∀ word ∈ fieldWords fields, word.1 = .identifier ∨ word.1 = .operator := by
    clear h
    induction fields with
    | nil => exact nofun
    | cons field fields ih =>
      exact List.forall_mem_cons.mpr ⟨.inr rfl, List.forall_mem_cons.mpr ⟨.inl rfl, ih⟩⟩
  intro token htoken
  have hmem : token.word ∈ pathWords name fields := h ▸ List.mem_map_of_mem htoken
  rcases List.mem_cons.mp hmem with hword | hmem
  · exact .inl (congrArg Prod.fst hword)
  · exact hfields _ hmem

theorem isBlank_of_pathWords {name : String} {fields : List String} {path : List Token}
    (h : path.map Token.word = pathWords name fields) :
    ∀ token ∈ path, token.isBlank = false := by
  intro token htoken
  rcases kind_of_pathWords h token htoken with hkind | hkind <;> rw [Token.isBlank, hkind] <;> rfl

/-- **The tokens of a path, a blank in front of the last column, and the end.** -/
theorem scan_pathText {name : String} {fields : List String}
    (h : ∀ word ∈ name :: fields, IsName word) :
    ∃ path blank last, (scan (pathText name fields)).tokens = path ++ [blank, last] ∧
      path.map Token.word = pathWords name fields ∧ blank.kind = .whitespace ∧
      blank.endColumn = (pathText name fields).length ∧
      ∀ token ∈ path, token.endColumn < (pathText name fields).length := by
  obtain ⟨-, front, last, htokens, hwords, -⟩ := scan_of_takes (takes_pathText h)
  obtain ⟨front', last', htokens', -, -, hline⟩ := exists_inLine (not_mem_feed_pathText h)
  obtain ⟨rfl, -⟩ := List.append_inj' (htokens.symm.trans htokens') rfl
  obtain ⟨path, blanks, rfl, hpath, hblanks⟩ := List.map_eq_append_iff.mp hwords
  obtain ⟨blank, rfl, hblank⟩ := List.map_eq_singleton_iff.mp hblanks
  rw [List.reverse_append, List.reverse_singleton, List.singleton_append] at hline
  obtain ⟨hend, hwidth, hbefore⟩ := hline
  have hkind : blank.kind = .whitespace := congrArg Prod.fst hblank
  have hvalue : blank.value = " " := congrArg Prod.snd hblank
  rw [hvalue] at hwidth
  have hone : blank.width = 1 := hwidth (by rw [hkind]; nofun)
  -- the words of the path fill the columns in front of the blank
  have hplain : ∀ token ∈ path.reverse, token.kind ≠ .string := by
    intro token htoken hstring
    have hpathKind := kind_of_pathWords hpath token (List.mem_reverse.mp htoken)
    rw [hstring] at hpathKind
    exact hpathKind.elim nofun nofun
  have hsum := hbefore.sum_le hplain
  have hlength : (pathText name fields).length =
      (path.reverse.map fun token => token.value.length).sum + 1 := by
    rw [length_pathText, ← hpath, List.map_map, List.map_reverse, List.sum_reverse]
    rfl
  rw [Token.endColumn, hone] at hend
  refine ⟨path, blank, last, by rw [htokens, List.append_assoc]; rfl, hpath, hkind, ?_, ?_⟩
  · rw [Token.endColumn, hone]
    omega
  · intro token htoken
    have := hbefore.endColumn_le token (List.mem_reverse.mpr htoken)
    omega

/-- **Just the tokens of the path are complete.** -/
theorem completeTokens_pathText {name : String} {fields : List String}
    (h : ∀ word ∈ name :: fields, IsName word) :
    (Completion.completeTokens (pathText name fields).length
      (scan (pathText name fields)).tokens).map Token.word = pathWords name fields := by
  obtain ⟨path, blank, last, htokens, hpath, hkind, hblank, hends⟩ := scan_pathText h
  generalize (pathText name fields).length = column at hblank hends
  have hcomplete : ∀ token ∈ path, Cursor.isComplete column token = true := by
    intro token htoken
    have := hends token htoken
    rw [Cursor.isComplete]
    split_ifs <;> simp <;> omega
  have hopen : Cursor.isComplete column blank = false := by
    have hclosed : Cursor.isClosed blank = false := by
      simp [Cursor.isClosed, Token.is, hkind]
    rw [Cursor.isComplete, hclosed, hblank]
    simp
  have huntil : Cursor.tokensUntil column (path ++ [blank, last]) = path := by
    rw [Cursor.tokensUntil, List.takeWhile_append_of_pos hcomplete,
      List.takeWhile_cons_of_neg (by rw [hopen]; exact Bool.false_ne_true), List.append_nil]
  have hfilter : (path.filter fun token => token.kind != .whitespace) = path :=
    List.filter_eq_self.mpr fun token htoken =>
      congrArg not (isBlank_of_pathWords hpath token htoken)
  rw [Completion.completeTokens, htokens, huntil, hfilter, hpath]

/-! ### Reading -/

section Reading

open Grammar Completion

variable {fields : List String} {tokens : List Token} {column : Nat}

/-- The fields behind a value are read up to the caret. -/
theorem reads_fieldWords (h : tokens.map Token.word = fieldWords fields) (column : Nat)
    (value : Expr) :
    ∃ e, Reads (.fields value) (tokens ++ [caret column]) e [caret column] := by
  induction fields generalizing tokens value with
  | nil =>
    obtain rfl := List.map_eq_nil_iff.mp h
    exact ⟨value, .noField (by simp [Token.is, caret, Token.ofText])⟩
  | cons field fields ih =>
    obtain ⟨dot, behind, rfl, hdot, hbehind⟩ := List.map_eq_cons_iff.mp h
    obtain ⟨property, rest, rfl, hproperty, hrest⟩ := List.map_eq_cons_iff.mp hbehind
    obtain ⟨e, he⟩ := ih hrest
      (.member (.at property.location) value
        (.identifier (.at property.location) property.value) false)
    exact ⟨e, .field (Token.is_iff_word.mpr hdot) (.inl (congrArg Prod.fst hproperty)) he⟩

/-- A dot does not join two operands. -/
theorem refuses_dot {dot : Token} (h : dot.word = (.operator, ".")) (rest : List Token) :
    Refuses 0 (dot :: rest) := by
  have hvalue : dot.value = "." := congrArg Prod.snd h
  refine .plain (congrArg Prod.fst h) (by rw [hvalue]; decide) ?_
  rw [Ahead.ofToken?, hvalue]
  rfl

theorem refuses_caret (column : Nat) : Refuses 0 [caret column] := .kind nofun

/-- A single operand is the whole text. -/
theorem parseStrict_of_operand {e : Expr}
    (hsolid : solid (tokens ++ [caret column]) = tokens ++ [caret column])
    (h : Reads .operand (tokens ++ [caret column]) e [caret column]) :
    parseStrict (tokens ++ [caret column]) = .ok e := by
  have hread := Reads.expression h (.stop (refuses_caret column))
  rw [← hsolid] at hread
  exact parseStrict_of_reads (terminates_of_last List.getLast?_concat rfl) hread (.inr rfl)

/-- A dot behind a constant is where reading stops, and nothing is open there. -/
theorem top_behind_constant {head dot : Token} {value : Expr}
    (hsolid : solid (head :: dot :: tokens ++ [caret column]) = head :: dot :: tokens ++ [caret column])
    (hhead : head.kind = .identifier) (hconstant : constant? head = some value)
    (hdot : dot.word = (.operator, ".")) {stop : Interruption}
    (hstop : parseStrict (head :: dot :: tokens ++ [caret column]) = .error stop) :
    stop.top? = none := by
  have hhalts : Halts (head :: dot :: tokens ++ [caret column]) []
      (dot :: (tokens ++ [caret column])) := by
    refine .behind (.expression (.constant hhead hconstant) (.stop (refuses_dot hdot _))) ?_
    have hoperator : dot.kind = .operator := congrArg Prod.fst hdot
    simp [Token.EndsText, hoperator]
  rw [← hsolid] at hhalts
  obtain ⟨found, hfound, -, hframes⟩ := parseStrict_of_halts List.getLast?_concat rfl hhalts
  rw [hfound] at hstop
  cases hstop
  rw [Interruption.top?, hframes]
  rfl

/-- **A path is read to its end, or else nothing is open where reading stops.**  That is in front of
the first dot, if the variable is called like a constant. -/
theorem top_of_path {name : String} {path : List Token}
    (h : path.map Token.word = pathWords name fields) {stop : Interruption}
    (hstop : parseStrict (path ++ [caret column]) = .error stop) : stop.top? = none := by
  have hsolid : solid (path ++ [caret column]) = path ++ [caret column] := by
    refine Solid.solid_eq fun token htoken => ?_
    rcases List.mem_append.mp htoken with htoken | htoken
    · exact isBlank_of_pathWords h token htoken
    · rw [List.mem_singleton.mp htoken]
      rfl
  have hread : ∀ {e}, ¬ Reads .operand (path ++ [caret column]) e [caret column] := by
    intro e he
    rw [parseStrict_of_operand hsolid he] at hstop
    cases hstop
  obtain ⟨head, tokens, rfl, hhead, htokens⟩ := List.map_eq_cons_iff.mp h
  have hkind : head.kind = .identifier := congrArg Prod.fst hhead
  cases hconstant : constant? head with
  | none =>
    obtain ⟨e, he⟩ := reads_fieldWords htokens column (.identifier (.at head.location) head.value)
    exact absurd (.name hkind hconstant he) hread
  | some value =>
    cases fields with
    | nil =>
      obtain rfl := List.map_eq_nil_iff.mp htokens
      exact absurd (.constant hkind hconstant) hread
    | cons field fields =>
      obtain ⟨dot, behind, rfl, hdot, -⟩ := List.map_eq_cons_iff.mp htokens
      exact top_behind_constant hsolid hkind hconstant hdot hstop

end Reading

/-! ### The offer -/

namespace Completion

variable {schema : Schema} {column : Nat} {tokens : List Token}

/-- The operators of a schema that suit an operand, as entries of items. -/
def suitable (schema : Schema) (operand : Option TypeEntry) : NameMap Entry :=
  (schema.operators.filter fun op => Suits operand op).map .operator

theorem entries_suitable (schema : Schema) (operand : Option TypeEntry) :
    (suitable schema operand).entries =
      (schema.operators.entries.filter fun op => decide (Suits operand op.2)).map fun op =>
        (op.1, Entry.operator op.2) := by
  rw [suitable, NameMap.entries_map, NameMap.entries_filter]

theorem mem_suitable_iff {operand : Option TypeEntry} {symbol : String} {op : OperatorEntry} :
    (symbol, Entry.operator op) ∈ (suitable schema operand).entries ↔
      (symbol, op) ∈ schema.operators.entries ∧ Suits operand op := by
  simp [entries_suitable]

/-- Two operands are suited by the same operators just where the same operators are listed. -/
theorem perm_suitable_iff {operand operand' : Option TypeEntry} :
    (suitable schema operand).entries.Perm (suitable schema operand').entries ↔
      ∀ op ∈ schema.operators.entries, Suits operand op.2 ↔ Suits operand' op.2 := by
  refine ⟨fun hperm op hop => ?_, fun hsame => ?_⟩
  · have hmem := hperm.mem_iff (a := (op.1, Entry.operator op.2))
    rw [mem_suitable_iff, mem_suitable_iff] at hmem
    exact ⟨fun h => (hmem.mp ⟨hop, h⟩).2, fun h => (hmem.mpr ⟨hop, h⟩).2⟩
  · have hfilter : (schema.operators.entries.filter fun op => decide (Suits operand op.2)) =
        schema.operators.entries.filter fun op => decide (Suits operand' op.2) :=
      List.filter_congr fun op hop => decide_eq_decide.mpr (hsame op hop)
    rw [entries_suitable, entries_suitable, hfilter]

/-- Without a query all operators that suit the operand are listed, whatever the matcher does. -/
theorem perm_operatorItems (matcher : Matcher) (schema : Schema) (operand : Option TypeEntry) :
    ((operatorItems matcher "" schema (admits operand)).map Item.pair).Perm
      (suitable schema operand).entries := by
  have hranked : (rankEntries matcher "" (suitable schema operand)).map Item.pair =
      (suitable schema operand).entries := map_pair_rankEntries_of_isEmpty rfl _
  rw [admits_eq, ← hranked]
  exact (perm_rankEntries schema _).map Item.pair

/-- Where nothing is open and the last word is no bracket, operators are offered. -/
theorem offer?_of_top (matcher : Matcher) (schema : Schema) (query : String) {previous : Token}
    (hlast : (completeTokens column tokens).getLast? = some previous)
    (hkind : previous.kind ≠ .bracket)
    (htop : ∀ stop, parseStrict (completeTokens column tokens ++ [caret column]) = .error stop →
      stop.top? = none) :
    offer? matcher schema query column tokens =
      some (operatorsAfter matcher schema query previous) := by
  rw [offer?, hlast]
  cases hparse : parseStrict (completeTokens column tokens ++ [caret column]) with
  | ok tree => rfl
  | error stop =>
    dsimp only
    rw [htop stop hparse]
    simp [hkind]

/-- The last word of a path. -/
theorem getLast?_pathWords (name : String) (fields : List String) :
    (pathWords name fields).getLast? = some (.identifier, fields.getLastD name) := by
  induction fields generalizing name with
  | nil => rfl
  | cons field fields ih =>
    rw [pathWords, fieldWords, List.getLast?_cons_cons, List.getLast?_cons_cons, List.getLastD_cons]
    exact ih field

/-- Behind the space of a path no word has been begun. -/
theorem partialWord_pathText (name : String) (fields : List String) :
    (Cursor.partialWord (pathText name fields) (pathText name fields).length).1 = "" := by
  have hblank : ∃ front, (pathText name fields).toList = front ++ [' '] := by
    rw [pathText, String.toList_append]
    have hfields : ∃ front, (fieldText fields).toList = front ++ [' '] := by
      induction fields with
      | nil => exact ⟨[], rfl⟩
      | cons field fields ih =>
        obtain ⟨front, hfront⟩ := ih
        rw [fieldText, String.toList_append, hfront, ← List.append_assoc]
        exact ⟨_, rfl⟩
    obtain ⟨front, hfront⟩ := hfields
    exact ⟨name.toList ++ front, by rw [hfront, List.append_assoc]⟩
  obtain ⟨front, hfront⟩ := hblank
  rw [Cursor.partialWord]
  dsimp only
  rw [← String.length_toList, List.take_length, hfront, Cursor.lastWord_blank rfl]

/-- **Operators behind a path.**  At the end of a path and a space operators are offered: all those
that suit the variable of the last name, or any operator if that is no variable.  For a variable alone
these are the operators that suit it.  For a path of fields they are the operators that suit what the
path leads to just where it and that variable are suited by the same operators of the schema. -/
theorem operators_of_path (matcher : Matcher) {name : String} {fields : List String}
    {entry : TypeEntry} (hnames : ∀ word ∈ name :: fields, IsName word)
    (hentry : schema.lookup? (name :: fields) = some entry) :
    ∃ completion, at? matcher schema (pathText name fields) (pathText name fields).length
        (scan (pathText name fields)).tokens = some completion ∧
      completion.title = .operators ∧
      (completion.items.map Item.pair).Perm
        (suitable schema (schema.variableEntry? (fields.getLastD name))).entries ∧
      (fields = [] →
        (completion.items.map Item.pair).Perm (suitable schema (some entry)).entries) ∧
      ((completion.items.map Item.pair).Perm (suitable schema (some entry)).entries ↔
        ∀ op ∈ schema.operators.entries, Suits (some entry) op.2 ↔
          Suits (schema.variableEntry? (fields.getLastD name)) op.2) := by
  have hcomplete := completeTokens_pathText hnames
  obtain ⟨previous, hlast, hword⟩ : ∃ previous,
      (completeTokens (pathText name fields).length
        (scan (pathText name fields)).tokens).getLast? = some previous ∧
      previous.word = (.identifier, fields.getLastD name) := by
    have hwords := getLast?_pathWords name fields
    rw [← hcomplete, List.getLast?_map] at hwords
    exact Option.map_eq_some_iff.mp hwords
  have hkind : previous.kind = .identifier := congrArg Prod.fst hword
  have hvalue : previous.value = fields.getLastD name := congrArg Prod.snd hword
  have hoffer := offer?_of_top matcher schema "" hlast
    (by rw [hkind]; nofun) fun stop hstop => top_of_path hcomplete hstop
  rw [operatorsAfter, if_pos hkind, hvalue] at hoffer
  have hperm := perm_operatorItems matcher schema (schema.variableEntry? (fields.getLastD name))
  obtain ⟨anchor, hat⟩ : ∃ anchor, at? matcher schema (pathText name fields)
      (pathText name fields).length (scan (pathText name fields)).tokens = some ⟨.operators,
        operatorItems matcher "" schema (admits (schema.variableEntry? (fields.getLastD name))),
        anchor⟩ := by
    rw [at?, partialWord_pathText, withQuery?, hoffer]
    exact ⟨_, rfl⟩
  refine ⟨_, hat, rfl, hperm, ?_, ?_⟩
  · rintro rfl
    have hvariable : schema.variableEntry? name = some entry := by
      obtain ⟨found, hfound, hpath⟩ := Option.bind_eq_some_iff.mp hentry
      cases hpath
      exact hfound
    rw [← hvariable]
    exact hperm
  · rw [← perm_suitable_iff]
    exact ⟨fun h => h.symm.trans hperm, fun h => hperm.trans h.symm⟩

theorem isName_letters : ∀ word ∈ ["m", "r"], IsName word := by
  intro word hword
  rcases List.mem_pair.mp hword with rfl | rfl
  · exact ⟨List.all_eq_true.mp rfl, _, _, rfl, rfl⟩
  · exact ⟨List.all_eq_true.mp rfl, _, _, rfl, rfl⟩

/-- Behind `m.r `, where the field is a string, all operators are offered, and all suit it. -/
theorem operators_of_path_string :
    let schema : Schema := Schema.withVariable {} "m"
      { kind := .struct, fields := some (.ofList [("r", .ofKind .string)]) }
    (∀ word ∈ ["m", "r"], IsName word) ∧
      schema.lookup? ["m", "r"] = some (.ofKind .string) ∧
      ∃ completion, at? .aligning schema "m.r " 4 (scan "m.r ").tokens = some completion ∧
        completion.title = .operators ∧
        (completion.items.map Item.pair).Perm (suitable schema (some (.ofKind .string))).entries := by
  intro schema
  have hentry : schema.lookup? ["m", "r"] = some (.ofKind .string) := rfl
  obtain ⟨completion, hat, htitle, -, -, hsuited⟩ :=
    operators_of_path .aligning isName_letters hentry
  exact ⟨isName_letters, hentry, completion, hat, htitle, hsuited.mpr (by decide)⟩

/-- **Operators that do not suit what a path leads to.**  Behind `m.r `, where the field is an integer,
the operator `contains` is offered, which is for strings. -/
theorem operators_of_path_integer :
    let schema : Schema := Schema.withVariable {} "m"
      { kind := .struct, fields := some (.ofList [("r", .ofKind .int)]) }
    (∀ word ∈ ["m", "r"], IsName word) ∧
      schema.lookup? ["m", "r"] = some (.ofKind .int) ∧
      ∃ completion, at? .aligning schema "m.r " 4 (scan "m.r ").tokens = some completion ∧
        completion.title = .operators ∧
        ∃ item ∈ completion.items, item.name = "contains" ∧
          item.entry = .operator (.binaryOn .string) ∧
          ¬ Suits (some (.ofKind .int)) (.binaryOn .string) := by
  intro schema
  have hat : at? .aligning schema "m.r " 4 (scan "m.r ").tokens =
      some ⟨.operators, operatorItems .aligning "" schema (admits none), 3⟩ := rfl
  have hmem : ("contains", Entry.operator (.binaryOn .string)) ∈
      (operatorItems .aligning "" schema (admits none)).map Item.pair :=
    (perm_operatorItems .aligning schema none).symm.subset (mem_suitable_iff.mpr ⟨by decide, nofun⟩)
  obtain ⟨item, hitem, hpair⟩ := List.mem_map.mp hmem
  exact ⟨isName_letters, rfl, _, hat, rfl, item, hitem, congrArg Prod.fst hpair,
    congrArg Prod.snd hpair, by decide⟩

end Completion

end FilterLang
