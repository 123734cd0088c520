import FilterLang.Proofs.Scanner.Abreast

/-!
# The columns of a line

In a line that is nothing but tokens these stand side by side, so that every column behind the first
one lies in just one of them or at its end.  What is at the cursor, beside it and in front of it is told
by this token and the next one.

* `Fills` — tokens side by side from one column to another.
* `Uncommented` — a text without comments, and `exists_fills`: its tokens fill their line.
* `Heads` — the first token at a column or behind it.
* `Around` — the token that holds a column, with the tokens around it.
* `Around.bounds_eq`, `Around.tokensUntil_eq`, `Around.tokenAt?_eq` — what the three searches of the
  cursor find there, and `Cursor.searches_of_heads` for the first column.
* `Cursor.columns_of_line` — one picture for all of them.
-/

namespace FilterLang

/-! ### Tokens side by side -/

/-- The tokens stand side by side from one column to another, and none of them is empty. -/
inductive Fills : Nat → List Token → Nat → Prop where
  | nil {column : Nat} : Fills column [] column
  | cons {token : Token} {tokens : List Token} {start stop : Nat}
      (hstart : token.location.column = start) (hwidth : 0 < token.width)
      (h : Fills token.endColumn tokens stop) : Fills start (token :: tokens) stop

theorem Token.column_lt_endColumn {token : Token} (h : 0 < token.width) :
    token.location.column < token.endColumn :=
  Nat.lt_add_of_pos_right h

namespace Fills

variable {tokens : List Token} {start stop column : Nat}

theorem le (h : Fills start tokens stop) : start ≤ stop := by
  induction h with
  | nil => exact Nat.le_refl _
  | cons hstart hwidth _ ih =>
    have hlt := Token.column_lt_endColumn hwidth
    omega

theorem bounds_of_mem (h : Fills start tokens stop) :
    ∀ t ∈ tokens, start ≤ t.location.column ∧ t.endColumn ≤ stop := by
  induction h with
  | nil => exact nofun
  | cons hstart hwidth h ih =>
    have hlt := Token.column_lt_endColumn hwidth
    refine List.forall_mem_cons.mpr ⟨⟨Nat.le_of_eq hstart.symm, h.le⟩, fun t ht => ?_⟩
    obtain ⟨hcolumn, hend⟩ := ih t ht
    exact ⟨by omega, hend⟩

/-- **A column behind the start** is held by one of the tokens. -/
theorem exists_holding (h : Fills start tokens stop) (hstart : start < column)
    (hstop : column ≤ stop) :
    ∃ front token back, tokens = front ++ token :: back ∧
      Fills start front token.location.column ∧ token.location.column < column ∧
      column ≤ token.endColumn ∧ Fills token.endColumn back stop := by
  induction h with
  | nil => omega
  | @cons token tokens start stop htoken hwidth h ih =>
    by_cases hend : column ≤ token.endColumn
    · exact ⟨[], token, tokens, rfl, htoken ▸ .nil, htoken ▸ hstart, hend, h⟩
    · obtain ⟨front, other, back, rfl, hfront, hother⟩ := ih (by omega) hstop
      exact ⟨token :: front, other, back, rfl, .cons htoken hwidth hfront, hother⟩

end Fills

/-- The tokens of pieces in a line, if all the pieces are tokens. -/
theorem fills_of_placed {here : Location} {segments : List Segment} (hplaced : Placed here segments)
    (hwell : ∀ segment ∈ segments, segment.WellFormed)
    (htokens : ∀ segment ∈ segments, segment.token?.isSome) (hline : '\n' ∉ spans segments) :
    Fills here.column (segments.filterMap Segment.token?)
      (here.column + (spans segments).length) := by
  induction segments generalizing here with
  | nil => exact .nil
  | cons segment segments ih =>
    obtain ⟨htoken, hbehind⟩ := List.forall_mem_cons.mp htokens
    cases segment with
    | comment | stray => cases htoken
    | token token span =>
      obtain ⟨hstands, hplaced⟩ := hplaced
      obtain ⟨⟨hne, -, hwidth, -⟩, hwell⟩ := List.forall_mem_cons.mp hwell
      have hspans : spans (.token token span :: segments) = span ++ spans segments := rfl
      rw [hspans, List.mem_append, not_or] at hline
      have hstart : token.location = here := hstands
      have hend : (here.advance span).column = token.endColumn := by
        rw [here.column_advance hline.1, Token.endColumn, hstart, hwidth]
      have hstop : here.column + (spans (.token token span :: segments)).length =
          (here.advance span).column + (spans segments).length := by
        rw [hspans, List.length_append, here.column_advance hline.1, Nat.add_assoc]
      rw [hstop]
      exact .cons (congrArg Location.column hstart) (hwidth ▸ List.length_pos_iff.mpr hne)
        (hend ▸ ih hplaced hwell hbehind hline.2)

/-- A text without comments: no piece that it is cut into is one. -/
def Uncommented (source : String) : Prop :=
  ∃ segments, Tiling source.toList (scan source) segments ∧ ∀ span, .comment span ∉ segments

/-- **The tokens of a line fill it**, if there are no comments and no faults, and the end token is
behind them. -/
theorem exists_fills {source : String} (hline : '\n' ∉ source.toList)
    (hsound : (scan source).fault = none) (hplain : Uncommented source) :
    ∃ front last, (scan source).tokens = front ++ [last] ∧ Fills 0 front source.length ∧
      last.kind = .eof ∧ last.location.column = source.length := by
  obtain ⟨segments, htiling, hcomment⟩ := hplain
  have htokens : ∀ segment ∈ segments, segment.token?.isSome := by
    intro segment hsegment
    cases segment with
    | token => rfl
    | comment span => exact absurd hsegment (hcomment span)
    | stray c => exact (htiling.sound hsound _ hsegment).elim
  have hfills := fills_of_placed htiling.placed htiling.wellFormed htokens (htiling.text ▸ hline)
  rw [htiling.text, String.length_toList, Location.origin, Nat.zero_add] at hfills
  refine ⟨_, Token.endOf source.toList, htiling.tokens, hfills, rfl, ?_⟩
  rw [Token.endOf, Location.column_advance _ hline, String.length_toList]
  exact Nat.zero_add _

/-! ### The place of a column -/

/-- A token is the first one at a column or behind it.  Only the end token may be empty. -/
structure Heads (column : Nat) (token : Token) (back : List Token) : Prop where
  column_eq : token.location.column = column
  wide : token.kind ≠ .eof → 0 < token.width
  behind : ∀ t ∈ back, column < t.location.column

/-- In front of an end token there is always another one or itself. -/
theorem Fills.exists_heads {tokens : List Token} {start stop : Nat} (h : Fills start tokens stop)
    {last : Token} (hkind : last.kind = .eof) (hlast : last.location.column = stop) :
    ∃ token back, tokens ++ [last] = token :: back ∧ Heads start token back := by
  cases h with
  | nil => exact ⟨last, [], rfl, hlast, fun hne => absurd hkind hne, nofun⟩
  | @cons token tokens _ _ hstart hwidth h =>
    have hlt := Token.column_lt_endColumn hwidth
    refine ⟨token, tokens ++ [last], rfl, hstart, fun _ => hwidth, fun t ht => ?_⟩
    rcases List.mem_append.mp ht with ht | ht
    · have hmem := (h.bounds_of_mem t ht).1
      omega
    · have hle := h.le
      rw [List.mem_singleton.mp ht]
      omega

/-- A token holds a column: the column lies in it or at its end.  The next token starts where this one
ends. -/
structure Around (column : Nat) (front : List Token) (token next : Token) (back : List Token) :
    Prop where
  before : ∀ t ∈ front, t.endColumn ≤ token.location.column
  start_lt : token.location.column < column
  le_end : column ≤ token.endColumn
  next : Heads token.endColumn next back

/-- **Every column of a line but the first** is held by a token. -/
theorem Fills.exists_around {tokens : List Token} {stop column : Nat} (h : Fills 0 tokens stop)
    {last : Token} (hkind : last.kind = .eof) (hlast : last.location.column = stop)
    (hcolumn : 0 < column) (hstop : column ≤ stop) :
    ∃ front token next back, tokens ++ [last] = front ++ token :: next :: back ∧
      Around column front token next back := by
  obtain ⟨front, token, behind, rfl, hfront, hstart, hend, hbehind⟩ := h.exists_holding hcolumn hstop
  obtain ⟨next, back, hback, hheads⟩ := hbehind.exists_heads hkind hlast
  refine ⟨front, token, next, back, ?_, fun t ht => (hfront.bounds_of_mem t ht).2, hstart, hend,
    hheads⟩
  rw [List.append_assoc, List.cons_append, hback]

namespace Cursor

variable {column : Nat} {front back : List Token} {token next : Token}

/-- What is found in a list of which just a middle part satisfies a condition. -/
theorem filter_zipIdx {p : Token → Bool} (front found back : List Token)
    (hfront : ∀ t ∈ front, p t = false) (hfound : ∀ t ∈ found, p t)
    (hback : ∀ t ∈ back, p t = false) :
    ((front ++ found ++ back).zipIdx.filter fun t => p t.1) = found.zipIdx front.length := by
  have hnone : ∀ (tokens : List Token) (k : Nat), (∀ t ∈ tokens, p t = false) →
      (tokens.zipIdx k).filter (fun t => p t.1) = [] := by
    intro tokens k htokens
    refine List.filter_eq_nil_iff.mpr fun t ht => ?_
    rw [htokens t.1 (List.fst_mem_of_mem_zipIdx ht)]
    exact Bool.false_ne_true
  have hall : (found.zipIdx front.length).filter (fun t => p t.1) = found.zipIdx front.length :=
    List.filter_eq_self.mpr fun t ht => hfound t.1 (List.fst_mem_of_mem_zipIdx ht)
  rw [List.zipIdx_append, List.zipIdx_append, List.filter_append, List.filter_append,
    hnone front 0 hfront, hnone back _ hback, List.nil_append, List.append_nil, Nat.zero_add, hall]

/-- The neighbours of a column, once the tokens in front of it are known. -/
theorem bounds_of_takeWhile {i : Nat} {tokens before : List Token}
    (htake : tokens.takeWhile (fun t => t.location.column != column) = before)
    (hfound : (before.zipIdx.filter fun t => reaches column t.1) = [(token, i)]) :
    bounds column tokens =
      (some i, if before.length < tokens.length then some before.length else none) := by
  simp only [bounds, htake]
  rw [← List.head?_filter, List.filter_reverse, hfound]
  rfl

/-- Where just one token touches a column, it is the token at the cursor, be it a word or not. -/
theorem tokenAt?_of_touched {i : Nat} {tokens : List Token}
    (h : (tokens.zipIdx.filter fun t => touches column t.1) = [(token, i)]) :
    tokenAt? column tokens = some (token, i) := by
  simp only [tokenAt?, h]
  cases hword : isWord token <;> simp [hword]

/-! ### The first token at a column -/

theorem isComplete_of_heads (h : Heads column token back) : isComplete column token = false := by
  rw [isComplete, Token.endColumn, h.column_eq]
  split
  · next hclosed =>
    have hkind : token.kind ≠ .eof := by
      intro heof
      simp [isClosed, Token.is, heof] at hclosed
    have hwidth := h.wide hkind
    simp
    omega
  · simp

theorem touches_of_heads (h : Heads column token back) : touches column token := by
  simp [touches, Token.endColumn, h.column_eq]

theorem not_touches_of_heads (h : Heads column token back) :
    ∀ t ∈ back, touches column t = false := by
  intro t ht
  have hbehind := h.behind t ht
  simp [touches]
  omega

/-- **At the first column** there is the first token, and nothing in front of it. -/
theorem searches_of_heads (h : Heads column token back) :
    bounds column (token :: back) = (none, some 0) ∧ tokensUntil column (token :: back) = [] ∧
      tokenAt? column (token :: back) = some (token, 0) := by
  have hnone : (token :: back).takeWhile (fun t => t.location.column != column) = [] :=
    List.takeWhile_cons_of_neg (by simp [h.column_eq])
  have htouched : ((token :: back).zipIdx.filter fun t => touches column t.1) = [(token, 0)] :=
    filter_zipIdx [] [token] back nofun
      (List.forall_mem_singleton.mpr (touches_of_heads h)) (not_touches_of_heads h)
  refine ⟨?_, List.takeWhile_cons_of_neg (by simp [isComplete_of_heads h]),
    tokenAt?_of_touched htouched⟩
  simp [bounds, hnone]

end Cursor

/-! ### The token that holds a column -/

namespace Around

open Cursor

variable {column : Nat} {front back : List Token} {token next : Token}

/-- What is behind the token starts where this one ends, or farther behind. -/
theorem end_le (h : Around column front token next back) :
    ∀ t ∈ next :: back, token.endColumn ≤ t.location.column :=
  List.forall_mem_cons.mpr
    ⟨Nat.le_of_eq h.next.column_eq.symm, fun t ht => Nat.le_of_lt (h.next.behind t ht)⟩

theorem reaches_token (h : Around column front token next back) : reaches column token := by
  simp [reaches, h.start_lt, h.le_end]

theorem not_reaches_front (h : Around column front token next back) :
    ∀ t ∈ front, reaches column t = false := by
  intro t ht
  have hbefore := h.before t ht
  have hstart := h.start_lt
  simp [reaches]
  omega

theorem not_reaches_behind (h : Around column front token next back) :
    ∀ t ∈ next :: back, reaches column t = false := by
  intro t ht
  have hend := h.le_end
  have hbehind := h.end_le t ht
  simp [reaches]
  omega

theorem filter_reaches (h : Around column front token next back) :
    ((front ++ token :: next :: back).zipIdx.filter fun t => reaches column t.1) =
      [(token, front.length)] := by
  rw [List.append_cons]
  exact filter_zipIdx front [token] (next :: back) h.not_reaches_front
    (List.forall_mem_singleton.mpr h.reaches_token) h.not_reaches_behind

/-- No other token holds the column. -/
theorem reaches_iff_eq (h : Around column front token next back) {j : Nat} {other : Token}
    (hother : (front ++ token :: next :: back)[j]? = some other) :
    reaches column other ↔ j = front.length := by
  constructor
  · intro hreaches
    have hmem : (other, j) ∈ (front ++ token :: next :: back).zipIdx.filter fun t =>
        reaches column t.1 :=
      List.mem_filter.mpr ⟨List.mk_mem_zipIdx_iff_getElem?.mpr hother, hreaches⟩
    rw [h.filter_reaches] at hmem
    exact congrArg Prod.snd (List.mem_singleton.mp hmem)
  · rintro rfl
    rw [List.getElem?_append_right (Nat.le_refl _), Nat.sub_self] at hother
    cases hother
    exact h.reaches_token

/-- **The token in front of the cursor** is the one that holds its column, and the one behind it starts
there. -/
theorem bounds_eq (h : Around column front token next back) :
    bounds column (front ++ token :: next :: back) =
      (some front.length, if token.endColumn = column then some (front.length + 1) else none) := by
  have hstart := h.start_lt
  have hend := h.le_end
  have hbefore : ∀ t ∈ front ++ [token], (t.location.column != column) = true := by
    intro t ht
    rw [bne_iff_ne]
    rcases List.mem_append.mp ht with ht | ht
    · have hle := h.before t ht
      rw [Token.endColumn] at hle
      omega
    · rw [List.mem_singleton.mp ht]
      omega
  by_cases hat : token.endColumn = column
  · have htake : (front ++ token :: next :: back).takeWhile (fun t => t.location.column != column) =
        front ++ [token] := by
      rw [List.append_cons, List.takeWhile_append_of_pos hbefore,
        List.takeWhile_cons_of_neg (by simp [h.next.column_eq, hat]), List.append_nil]
    have hfound := filter_zipIdx front [token] [] h.not_reaches_front
      (List.forall_mem_singleton.mpr h.reaches_token) nofun
    rw [List.append_nil] at hfound
    rw [bounds_of_takeWhile htake hfound, if_pos hat, if_pos (by simp), List.length_append]
    rfl
  · have htake : (front ++ token :: next :: back).takeWhile (fun t => t.location.column != column) =
        front ++ token :: next :: back := by
      rw [List.takeWhile_eq_self_iff, List.append_cons]
      refine List.forall_mem_append.mpr ⟨hbefore, fun t ht => ?_⟩
      have hbehind := h.end_le t ht
      rw [bne_iff_ne]
      omega
    rw [bounds_of_takeWhile htake h.filter_reaches, if_neg hat, if_neg (Nat.lt_irrefl _)]

theorem isComplete_front (h : Around column front token next back) :
    ∀ t ∈ front, isComplete column t := by
  intro t ht
  have hbefore := h.before t ht
  have hstart := h.start_lt
  rw [isComplete]
  split <;> simp <;> omega

/-- The token that holds the column is complete where it ends there and is closed. -/
theorem isComplete_token (h : Around column front token next back) :
    isComplete column token ↔ token.endColumn = column ∧ isClosed token := by
  have hend := h.le_end
  rw [isComplete]
  split
  · next hclosed =>
    simp [hclosed]
    omega
  · next hopen =>
    simp [hopen, hend]

/-- **The complete tokens** are those in front of the one that holds the column, and this one if it is
complete as soon as it is typed. -/
theorem tokensUntil_eq (h : Around column front token next back) :
    tokensUntil column (front ++ token :: next :: back) =
      if token.endColumn = column ∧ isClosed token then front ++ [token] else front := by
  rw [tokensUntil, List.takeWhile_append_of_pos h.isComplete_front]
  by_cases hcomplete : token.endColumn = column ∧ isClosed token
  · have hnext : isComplete column next = false := isComplete_of_heads (hcomplete.1 ▸ h.next)
    rw [if_pos hcomplete, List.takeWhile_cons_of_pos (h.isComplete_token.mpr hcomplete),
      List.takeWhile_cons_of_neg (by simp [hnext])]
  · rw [if_neg hcomplete,
      List.takeWhile_cons_of_neg fun htoken => hcomplete (h.isComplete_token.mp htoken),
      List.append_nil]

theorem touches_token (h : Around column front token next back) : touches column token := by
  simp [touches, Nat.le_of_lt h.start_lt, h.le_end]

theorem not_touches_front (h : Around column front token next back) :
    ∀ t ∈ front, touches column t = false := by
  intro t ht
  have hbefore := h.before t ht
  have hstart := h.start_lt
  simp [touches]
  omega

/-- **The token at the cursor** is the next one if it starts there and is a word, and the one that holds
the column otherwise. -/
theorem tokenAt?_eq (h : Around column front token next back) :
    tokenAt? column (front ++ token :: next :: back) =
      some (if token.endColumn = column ∧ isWord next then (next, front.length + 1)
        else (token, front.length)) := by
  by_cases hat : token.endColumn = column
  · have hheads : Heads column next back := hat ▸ h.next
    have hfound : ∀ t ∈ [token, next], touches column t :=
      List.forall_mem_cons.mpr
        ⟨h.touches_token, List.forall_mem_singleton.mpr (touches_of_heads hheads)⟩
    have htouched := filter_zipIdx front [token, next] back h.not_touches_front hfound
      (not_touches_of_heads hheads)
    rw [List.append_assoc] at htouched
    have hpair : [token, next].zipIdx front.length =
        [(token, front.length), (next, front.length + 1)] := rfl
    simp only [tokenAt?, List.cons_append, List.nil_append] at htouched ⊢
    rw [htouched, hpair]
    cases hnext : isWord next with
    | true => simp [hat, hnext]
    | false => cases htoken : isWord token <;> simp [hnext, htoken]
  · have hbehind : ∀ t ∈ next :: back, touches column t = false := by
      intro t ht
      have hend := h.le_end
      have hlt := h.end_le t ht
      simp [touches]
      omega
    have htouched := filter_zipIdx front [token] (next :: back) h.not_touches_front
      (List.forall_mem_singleton.mpr h.touches_token) hbehind
    rw [← List.append_cons] at htouched
    rw [tokenAt?_of_touched htouched]
    simp [hat]

end Around

/-! ### One picture -/

namespace Cursor

theorem isClosed_iff {token : Token} :
    isClosed token ↔ token.kind = .bracket ∨ token.is .operator "." := by
  rw [isClosed, Bool.or_eq_true, beq_iff_eq]

theorem isWord_iff {token : Token} :
    isWord token ↔ token.kind ≠ .eof ∧ token.kind ≠ .whitespace ∧ token.kind ≠ .bracket := by
  simp only [isWord, Bool.and_eq_true, bne_iff_ne, and_assoc]

theorem reaches_iff {column : Nat} {token : Token} :
    reaches column token ↔ token.location.column < column ∧ column ≤ token.endColumn := by
  rw [reaches, Bool.and_eq_true, decide_eq_true_iff, decide_eq_true_iff]

/-- **One picture of a line.**  In a line without comments that scans soundly a column that is not the
first first one is held by just one token: it lies in this token or at its end.

* This is the token in front of the cursor, and the next one is behind the cursor if this one ends there.
* The tokens in front of it are complete, and so is this one if it ends there and is a bracket or a dot.
* It is the token at the cursor, unless it ends there and the next one is a word.

At the first column there is the first token, and nothing in front of it. -/
theorem columns_of_line {source : String} (hline : '\n' ∉ source.toList)
    (hsound : (scan source).fault = none) (hplain : Uncommented source) :
    (∀ column, 1 ≤ column → column ≤ source.length →
      ∃ i token next, (scan source).tokens[i]? = some token ∧
        (scan source).tokens[i + 1]? = some next ∧
        (∀ (j : Nat) (other : Token), (scan source).tokens[j]? = some other →
          (other.location.column < column ∧ column ≤ other.endColumn ↔ j = i)) ∧
        bounds column (scan source).tokens =
          (some i, if token.endColumn = column then some (i + 1) else none) ∧
        tokensUntil column (scan source).tokens =
          (scan source).tokens.take
            (if token.endColumn = column ∧ (token.kind = .bracket ∨ token.is .operator ".") then i + 1
              else i) ∧
        tokenAt? column (scan source).tokens =
          some (if token.endColumn = column ∧
              next.kind ≠ .eof ∧ next.kind ≠ .whitespace ∧ next.kind ≠ .bracket then (next, i + 1)
            else (token, i))) ∧
      ∃ first, (scan source).tokens[0]? = some first ∧
        bounds 0 (scan source).tokens = (none, some 0) ∧
        tokensUntil 0 (scan source).tokens = [] ∧
        tokenAt? 0 (scan source).tokens = some (first, 0) := by
  obtain ⟨tokens, last, htokens, hfills, hkind, hlast⟩ := exists_fills hline hsound hplain
  rw [htokens]
  refine ⟨fun column hfirst hlength => ?_, ?_⟩
  · obtain ⟨front, token, next, back, htokens, haround⟩ :=
      hfills.exists_around hkind hlast hfirst hlength
    rw [htokens]
    refine ⟨front.length, token, next, by simp, by simp, fun j other hother => ?_,
      haround.bounds_eq, ?_, ?_⟩
    · rw [← reaches_iff]
      exact haround.reaches_iff_eq hother
    · simp only [haround.tokensUntil_eq, isClosed_iff]
      split
      · rw [List.append_cons front token (next :: back)]
        exact (List.take_left' List.length_append).symm
      · rw [List.take_left]
    · simp only [haround.tokenAt?_eq, isWord_iff]
  · obtain ⟨first, back, htokens, hheads⟩ := hfills.exists_heads hkind hlast
    rw [htokens]
    exact ⟨first, rfl, searches_of_heads hheads⟩

/-- Behind the bracket of an index the key begins. -/
theorem columns_of_index :
    let source := "m[\"k\"]"
    let opening : Token := .ofText .bracket "[" ⟨1, 1⟩
    let key : Token := { kind := .string, value := "k", location := ⟨1, 2⟩, width := 3 }
    '\n' ∉ source.toList ∧ (scan source).fault = none ∧ Uncommented source ∧
      (scan source).tokens[1]? = some opening ∧ (scan source).tokens[2]? = some key ∧
      bounds 2 (scan source).tokens = (some 1, some 2) ∧
      tokensUntil 2 (scan source).tokens = (scan source).tokens.take 2 ∧
      tokenAt? 2 (scan source).tokens = some (key, 2) := by
  intro source opening key
  let segments : List Segment :=
    [.token (.ofText .identifier "m" .origin) ['m'], .token opening ['['],
      .token key ['"', 'k', '"'], .token (.ofText .bracket "]" ⟨1, 5⟩) [']']]
  have htext : spans segments = source.toList := by decide
  have htokens : (scan source).tokens =
      segments.filterMap Segment.token? ++ [Token.endOf source.toList] := by decide +kernel
  have hshape : ∀ segment ∈ segments,
      segment.WellFormed ∧ segment.Sound ∧ ∀ span, segment ≠ .comment span := by
    simp [segments, opening, key, Segment.WellFormed, Segment.Sound, Token.ofText]
    decide
  have hplaced : Placed .origin segments := ⟨rfl, rfl, rfl, rfl, trivial⟩
  have hwell : ∀ segment ∈ segments, segment.WellFormed := fun _ hmem => (hshape _ hmem).1
  have hplain : Uncommented source := by
    refine ⟨segments, ⟨htext, htokens, hplaced, hwell, ?_, fun _ _ hmem => (hshape _ hmem).2.1⟩,
      fun span hmem => (hshape _ hmem).2.2 span rfl⟩
    rw [htokens]
    exact (Scanner.pairwise_before hplaced hwell (htext ▸ rfl)).1
  have hline : '\n' ∉ source.toList := by decide
  have hsound : (scan source).fault = none := by decide +kernel
  obtain ⟨i, token, next, htoken, hnext, hholds, hbounds, huntil, hat⟩ :=
    (columns_of_line hline hsound hplain).1 2 (by decide) (by decide)
  have hopening : (scan source).tokens[1]? = some opening := by rw [htokens]; rfl
  have hkey : (scan source).tokens[2]? = some key := by rw [htokens]; rfl
  obtain rfl : 1 = i := (hholds 1 opening hopening).mp (by decide)
  cases htoken.symm.trans hopening
  cases hnext.symm.trans hkey
  exact ⟨hline, hsound, hplain, hopening, hkey, hbounds, huntil, hat⟩

end Cursor

end FilterLang
