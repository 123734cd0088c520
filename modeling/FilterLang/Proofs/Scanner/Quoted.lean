import FilterLang.Proofs.Scanner.Kinds
import FilterLang.Proofs.Scanner.Prefix
import FilterLang.Proofs.Text.Escapes

/-!
# Quoted texts as tokens

* `readQuoted_eq_of_cons` — all that the scanner does at a quote.
* `scan_literal` — a literal made of pieces is one token with the meaning of the pieces.
* `strings_step`, `sited_finish` — a step makes a string token at a quote or a backquote alone, and so
  all string tokens stand where their texts are opened.
* `Token.Spans` — the characters of a text that a token is made of.
* `feed_mem_string_iff` — a string token spans a line feed only behind a backslash, and never in a
  text without a fault; `string_spans_feed` is one that does.
-/

namespace FilterLang

open Text

variable {s : Scanner} {phase : Scanner.Phase} {c quote : Char} {cs : List Char}

/-! ### What is done at a quote -/

namespace Scanner

/-- The fault of a quoted text that stands at a place. -/
def faultOfQuoted (quoted : Quoted) (start : Location) : Option (Located ScanFault) :=
  (quoted.fault.map fun location => ⟨.invalidEscape, location⟩).or
    (if quoted.closed then none else some ⟨.unterminatedLiteral, start⟩)

theorem noteQuoted_eq (quoted : Quoted) (s : Scanner) :
    s.noteQuoted quoted = { s with fault := s.fault.or (faultOfQuoted quoted s.start) } := by
  obtain ⟨value, length, closed, fault⟩ := quoted
  cases fault <;> cases closed <;> simp [noteQuoted, faultOfQuoted, note, noteAt]

/-- The token of a quoted text that stands at a place. -/
def tokenOfQuoted (quoted : Quoted) (start : Location) : Token :=
  { kind := .string, value := String.ofList quoted.value, location := start,
    width := quoted.length + 1 }

/-- **At a quote** the whole text becomes a token, and its fault is noted. -/
theorem readQuoted_eq_of_cons (hlexeme : s.lexeme = []) (hrest : s.rest = c :: cs) (quote : Char) :
    let quoted := Quoted.read quote (s.here.after c) cs
    let there := (s.here.after c).advance (cs.take quoted.length)
    s.readQuoted quote =
      { rest := cs.drop quoted.length, start := there, here := there
        tokens := tokenOfQuoted quoted s.start :: s.tokens
        fault := s.fault.or (faultOfQuoted quoted s.start) } := by
  obtain ⟨rest, lexeme, start, here, tokens, fault⟩ := s
  subst hlexeme hrest
  have hlength := Quoted.length_readFrom_le quote (here.after c) 0 cs
  rw [readQuoted_eq]
  simp only [noteQuoted_eq]
  simp [read, Scanner.emitValue, Scanner.skip, tokenOfQuoted, Quoted.read, hlength]

theorem stepRoot_of_isQuote (hquote : IsQuote quote) (s : Scanner) :
    s.stepRoot quote = (.root, s.readQuoted quote) := by
  rcases hquote with rfl | rfl <;> rfl

/-! ### Literals -/

/-- A text between two quotes, made of pieces. -/
def literal (pieces : List (Piece quote)) : List Char := quote :: (spelling pieces ++ [quote])

/-- **A literal is one token**, whatever is behind it. -/
theorem finish_literal (hquote : IsQuote quote) {pieces : List (Piece quote)}
    (h : Separated pieces) {rest : List Char} (hlexeme : s.lexeme = [])
    (hrest : s.rest = literal pieces ++ rest) :
    finish .root s = finish .root
      { rest, start := s.here.advance (literal pieces), here := s.here.advance (literal pieces)
        tokens := { kind := .string, value := String.ofList (meaning pieces), location := s.start,
                    width := (literal pieces).length } :: s.tokens
        fault := s.fault.or
          ((faultOf (s.here.after quote) pieces).map fun location => ⟨.invalidEscape, location⟩) } := by
  have hcons : s.rest = quote :: (spelling pieces ++ quote :: rest) := by
    rw [hrest, literal, List.cons_append, List.append_assoc, List.singleton_append]
  have hread : Quoted.read quote (s.here.after quote) (spelling pieces ++ quote :: rest) =
      ⟨meaning pieces, (spelling pieces).length + 1, true, faultOf (s.here.after quote) pieces⟩ :=
    readFrom_pieces hquote h _ rest
  have hstep := readQuoted_eq_of_cons hlexeme hcons quote
  have hbody : spelling pieces ++ quote :: rest = (spelling pieces ++ [quote]) ++ rest := by simp
  have hlength : (spelling pieces ++ [quote]).length = (spelling pieces).length + 1 := by simp
  rw [hread] at hstep
  dsimp only at hstep
  rw [hbody, List.take_left' hlength, List.drop_left' hlength] at hstep
  rw [finish_root hlexeme hcons (stepRoot_of_isQuote hquote s), hstep]
  simp [tokenOfQuoted, faultOfQuoted, literal]

end Scanner

open Scanner (literal)

/-- **String escapes decode exactly.**  A literal made of pieces is one string token that spans it and
has the meaning of the pieces.  The fault is a bad escape if some piece is void, and otherwise there
is none.  No word of 32 bits wraps while the digits of an escape are added up: it holds what they
denote, from the first digit on. -/
theorem scan_literal (hquote : IsQuote quote) {pieces : List (Piece quote)}
    (h : Separated pieces) :
    (scan (String.ofList (literal pieces))).tokens =
        [{ kind := .string, value := String.ofList (meaning pieces), location := .origin,
           width := (literal pieces).length }, Token.endOf (literal pieces)] ∧
      (scan (String.ofList (literal pieces))).fault.map Located.value =
        (if pieces.any Piece.isVoid then some .invalidEscape else none) ∧
      ∀ piece ∈ pieces, ∀ code ∈ piece.code?, ∀ digits value, digits <+: code.digits →
        Numeral.Denotes code.base digits value → (codeWord code.base digits).toNat = value := by
  have hrest : ({ rest := literal pieces } : Scanner).rest = literal pieces ++ [] := by simp
  have hfinish := Scanner.finish_literal hquote h rfl hrest
  rw [scan, String.toList_ofList, Scanner.scanChars_eq, hfinish, Scanner.finish_end rfl rfl]
  refine ⟨rfl, ?_, fun _ _ _ hcode _ _ hdigits hvalue => toNat_codeWord hcode hdigits hvalue⟩
  rw [← isSome_faultOf (Location.origin.after quote) pieces]
  cases faultOf (Location.origin.after quote) pieces <;> rfl

/-- Pieces of every kind: an octal escape of one digit in front of a letter, one of three in front of
a digit, and a surrogate, which stands for nothing. -/
theorem scan_literal_surrogate :
    let pieces : List (Piece '"') :=
      [.plain 'é' (by decide), .named 'n' '\n' (by decide),
        .octal ⟨8, ['7'], 7, by decide, by decide⟩ (by decide), .plain 'x' (by decide),
        .octal ⟨8, ['1', '0', '1'], 65, by decide, by decide⟩ (by decide), .plain '1' (by decide),
        .escapedQuote, .hex 'u' ⟨16, "D800".toList, 0xD800, by decide, by decide⟩ (by decide),
        .hex 'U' ⟨16, "0001f600".toList, 0x1F600, by decide, by decide⟩ (by decide)]
    let source := "\"é\\n\\7x\\1011\\\"\\uD800\\U0001f600\""
    IsQuote '"' ∧ Separated pieces ∧ String.ofList (literal pieces) = source ∧
      (scan source).tokens =
        [{ kind := .string, value := "é\n\x07xA1\"😀", location := .origin, width := 31 },
          Token.endOf source.toList] ∧
      (scan source).fault.map Located.value = some .invalidEscape := by
  intro pieces source
  have hquote : IsQuote '"' := .inr rfl
  have hseparated : Separated pieces := by decide
  have hsource : String.ofList (literal pieces) = source := by decide
  have hchars : literal pieces = source.toList := by rw [← hsource, String.toList_ofList]
  have hvalue : String.ofList (meaning pieces) = "é\n\x07xA1\"😀" := by decide
  have hlength : source.toList.length = 31 := by decide
  obtain ⟨htokens, hfault, -⟩ := scan_literal hquote hseparated
  rw [hsource, hvalue, hchars, hlength] at htokens
  rw [hsource] at hfault
  exact ⟨hquote, hseparated, hsource, htokens, hfault⟩

namespace Scanner

/-! ### Where string tokens come from -/

/-- The string tokens that have been found. -/
def strings (s : Scanner) : List Token := s.tokens.filter (·.kind == .string)

@[simp] theorem strings_read (n : Nat) : (s.read n).strings = s.strings := rfl

@[simp] theorem strings_readWhile (p : Char → Bool) : (s.readWhile p).strings = s.strings := rfl

@[simp] theorem strings_readOne (p : Char → Bool) : (s.readOne p).strings = s.strings := by
  obtain ⟨n, hn⟩ := s.readOne_eq_read p
  rw [hn, strings_read]

@[simp] theorem strings_skip : s.skip.strings = s.strings := rfl

@[simp] theorem strings_note (fault : ScanFault) : (s.note fault).strings = s.strings := rfl

theorem strings_emit {kind : TokenKind} (h : kind ≠ .string) :
    (s.emit kind).strings = s.strings := by
  have hkind : ¬ (kind == .string) := by simpa using h
  exact List.filter_cons_of_neg hkind

/-- The token of a quoted text is as wide as the text, and a fault in the text is noted. -/
def Opened (faulty : Prop) (here : Location) (cs : List Char) (token : Token) : Prop :=
  ∃ lead body, cs = lead :: body ∧ (IsQuote lead →
    token.width = (Quoted.read lead (here.after lead) body).length + 1 ∧
      ((Quoted.read lead (here.after lead) body).fault.isSome → faulty))

/-- Only a quote, or a backquote, starts a string token. -/
theorem strings_stepRoot (hlexeme : s.lexeme = []) (hrest : s.rest = c :: cs) :
    (s.stepRoot c).2.strings = s.strings ∨
      ∃ token, (s.stepRoot c).2.strings = token :: s.strings ∧ token.location = s.start ∧
        Opened ((s.stepRoot c).2.fault ≠ none) s.here s.rest token := by
  have hmove := s.stepRoot_move c
  generalize s.stepRoot c = next at hmove ⊢
  cases hmove with
  | quoted h =>
    have hread := readQuoted_eq_of_cons hlexeme hrest c
    refine .inr ⟨tokenOfQuoted (Quoted.read c (s.here.after c) cs) s.start, ?_, rfl, c, cs, hrest,
      fun _ => ⟨rfl, fun hfault => ?_⟩⟩
    · rw [hread]
      rfl
    · rw [hread]
      simp only [faultOfQuoted, ne_eq, Option.or_eq_none_iff, Option.map_eq_none_iff]
      rintro ⟨-, hnone, -⟩
      rw [hnone] at hfault
      cases hfault
  | raw h =>
    have hno : ¬ IsQuote c := by
      rw [h]
      exact not_or.mpr ⟨by decide, by decide⟩
    unfold readRaw
    dsimp only
    split_ifs
    · exact .inr ⟨_, rfl, rfl, c, cs, hrest, fun hc => absurd hc hno⟩
    · exact .inr ⟨_, rfl, rfl, c, cs, hrest, fun hc => absurd hc hno⟩
  | _ => exact .inl (by simp [strings_emit])

/-- **The step lemma.**  String tokens are found at the head of the text that is left, in the root
phase alone. -/
theorem strings_step (hr : Ready phase s) :
    (s.step phase).2.strings = s.strings ∨
      ∃ token, (s.step phase).2.strings = token :: s.strings ∧ phase = .root ∧
        token.location = s.start ∧ Opened ((s.step phase).2.fault ≠ none) s.here s.rest token := by
  by_cases hroot : phase = .root
  · subst hroot
    cases hrest : s.rest with
    | nil =>
      simp only [step, hrest]
      exact .inl (strings_emit (by simp))
    | cons c cs =>
      simp only [step, hrest]
      rcases strings_stepRoot hr hrest with h | ⟨token, h, hplace, hopened⟩
      · exact .inl h
      · exact .inr ⟨token, h, trivial, hplace, hrest ▸ hopened⟩
  · refine .inl (filter_step ?_ s)
    cases phase with
    | root => exact absurd rfl hroot
    | _ => decide

/-- Each string token stands where its text is opened. -/
def Sited (source : List Char) (s : Scanner) : Prop :=
  ∀ token ∈ s.strings, ∃ front back, source = front ++ back ∧
    token.location = Location.origin.advance front ∧
    Opened (s.fault ≠ none) token.location back token

/-- **The run lemma.**  All string tokens of a text stand where their texts are opened. -/
theorem sited_finish (source : List Char) : Sited source (finish .root { rest := source }) := by
  have hready : Ready .root { rest := source } := rfl
  let motive (phase : Phase) (s : Scanner) : Prop := Kept (Tiled source) phase s ∧ Sited source s
  have hinit : motive .root { rest := source } := ⟨⟨[], cut_init source⟩, nofun⟩
  refine (finish_induct (motive := motive) (fun phase s hr hp ⟨htiled, hsited⟩ => ?_) hready hinit).2.2
  refine ⟨(stable_tiled source).step hr hp htiled, ?_⟩
  have hkept : ∀ token ∈ s.strings, ∃ front back, source = front ++ back ∧
      token.location = Location.origin.advance front ∧
      Opened ((s.step phase).2.fault ≠ none) token.location back token := by
    intro token htoken
    obtain ⟨front, back, hsource, hplace, lead, body, hback, hopened⟩ := hsited token htoken
    exact ⟨front, back, hsource, hplace, lead, body, hback, fun hquote =>
      (hopened hquote).imp_right fun h hfault => fault_step hr hp (h hfault)⟩
  rcases strings_step hr with h | ⟨token, h, rfl, hplace, hopened⟩
  · rwa [Sited, h]
  · rw [Sited, h]
    refine List.forall_mem_cons.mpr ⟨?_, hkept⟩
    obtain ⟨segments, hcut⟩ := htiled
    have hlexeme : s.lexeme = [] := hr
    have htext := hcut.text
    have hhere := hcut.here
    rw [hlexeme, List.append_nil] at htext
    rw [hlexeme, Location.advance_nil] at hhere
    exact ⟨spans segments, s.rest, htext.symm, hplace.trans hcut.start, hplace ▸ hhere ▸ hopened⟩

end Scanner

/-! ### The line feeds of a token -/

/-- The token spans these characters of the text: those from its place on, as many as it is wide. -/
def Token.Spans (source : List Char) (token : Token) (span : List Char) : Prop :=
  ∃ front back, source = front ++ span ++ back ∧
    token.location = Location.origin.advance front ∧ token.width = span.length

/-- Two ways to the same place in a text are the same. -/
theorem eq_of_advance_eq {here : Location} {cs ds es fs : List Char} (h : cs ++ es = ds ++ fs)
    (hplace : here.advance cs = here.advance ds) : cs = ds := by
  have hno : ∀ {cs ds : List Char}, here.advance cs = here.advance (cs ++ ds) → ds = [] := by
    intro cs ds h
    by_contra hne
    rw [Location.advance_append] at h
    have hbefore := Location.before_advance (here.advance cs) hne
    rw [← h] at hbefore
    exact Location.Before.irrefl _ hbefore
  rcases List.append_eq_append_iff.mp h with ⟨as, rfl, -⟩ | ⟨as, rfl, -⟩
  · rw [hno hplace, List.append_nil]
  · rw [hno hplace.symm, List.append_nil]

/-- **A line feed within a quoted string token stands behind a backslash.**  A string token whose span
starts with a quote spans a line feed exactly where it spans a backslash with a line feed right behind
it, and a text with such a token is faulty. -/
theorem feed_mem_string_iff {source : String} {token : Token} {span : List Char} {quote : Char}
    (htoken : token ∈ (scan source).tokens) (hkind : token.kind = .string)
    (hspan : token.Spans source.toList span) (hhead : span.head? = some quote)
    (hquote : quote = '\'' ∨ quote = '"') :
    ('\n' ∈ span ↔ ['\\', '\n'] <:+: span) ∧ ('\n' ∈ span → (scan source).fault ≠ none) := by
  have hstring : token ∈ (Scanner.finish .root { rest := source.toList }).strings := by
    rw [scan, Scanner.scanChars_eq, List.mem_reverse] at htoken
    exact List.mem_filter.mpr ⟨htoken, beq_iff_eq.mpr hkind⟩
  obtain ⟨front, back, hsource, hplace, lead, body, rfl, hopened⟩ :=
    Scanner.sited_finish source.toList token hstring
  obtain ⟨front', back', hsource', hplace', hwidth⟩ := hspan
  have hsplit : front' ++ (span ++ back') = front ++ lead :: body := by
    rw [← hsource, hsource', List.append_assoc]
  obtain rfl := eq_of_advance_eq hsplit (hplace'.symm.trans hplace)
  obtain ⟨tail, rfl⟩ : ∃ tail, span = quote :: tail := by
    cases span with
    | nil => cases hhead
    | cons c tail => exact ⟨tail, by rw [Option.some.inj hhead]⟩
  rw [List.cons_append] at hsplit
  obtain ⟨rfl, rfl⟩ := List.cons_eq_cons.mp (List.append_cancel_left hsplit)
  -- what the token spans behind its quote is just what has been read there
  obtain ⟨hlength, hfault⟩ := hopened hquote
  have htail : tail = (tail ++ back').take
      (Quoted.read quote (token.location.after quote) (tail ++ back')).length := by
    rw [hwidth, List.length_cons] at hlength
    rw [← Nat.succ.inj hlength, List.take_left]
  have hchain := isChain_feeds hquote (token.location.after quote) 0 (tail ++ back') quote
    (.singleton quote) hfault
  rw [Quoted.read] at htail
  rw [← htail] at hchain
  have hfeed : '\n' ∈ quote :: tail → '\n' ∈ tail := by
    intro hmem
    rcases List.mem_cons.mp hmem with h | h
    · rcases hquote with rfl | rfl <;> exact absurd h (by decide)
    · exact h
  refine ⟨⟨fun hmem => (of_isChain_feeds hchain (hfeed hmem)).1, fun hinfix => ?_⟩, fun hmem => ?_⟩
  · exact hinfix.subset (.tail _ (.head _))
  · rw [scan, Scanner.scanChars_eq]
    exact (of_isChain_feeds hchain (hfeed hmem)).2

/-- A literal that is closed on the next line: its line feed stands behind a backslash. -/
theorem feed_mem_string_closed :
    let source := "s == \"a\\\nb\""
    let span := "\"a\\\nb\"".toList
    let token : Token :=
      { kind := .string, value := "ab", location := ⟨1, 5⟩, width := 6 }
    token ∈ (scan source).tokens ∧ token.Spans source.toList span ∧ span.head? = some '"' ∧
      ('\n' ∈ span ↔ ['\\', '\n'] <:+: span) ∧ (scan source).fault ≠ none := by
  intro source span token
  have htoken : token ∈ (scan source).tokens := by decide +kernel
  have hspan : token.Spans source.toList span := ⟨"s == ".toList, [], by decide, by decide, by decide⟩
  have hhead : span.head? = some '"' := rfl
  have hiff := feed_mem_string_iff htoken rfl hspan hhead (.inr rfl)
  exact ⟨htoken, hspan, hhead, hiff.1, hiff.2 (by decide)⟩

/-- **A string token may reach past its line.**  The literal is not closed, and goes on behind the
line feed. -/
theorem string_spans_feed :
    let source := "\"\\\nb"
    ∃ token ∈ (scan source).tokens, token.kind = .string ∧
      token.Spans source.toList source.toList ∧ source.toList.head? = some '"' ∧
      '\n' ∈ source.toList ∧
      (scan source).fault = some ⟨.invalidEscape, ⟨1, 2⟩⟩ := by
  refine ⟨{ kind := .string, value := "b", location := .origin, width := 4 }, ?_, rfl,
    ⟨[], [], by decide, rfl, rfl⟩, rfl, by decide, ?_⟩
  · decide +kernel
  · decide +kernel

end FilterLang
