import FilterLang.Analysis
import FilterLang.Proofs.Grammar.Places
import FilterLang.Proofs.Scanner.Faults
import FilterLang.Proofs.Typing

/-!
# Where messages are shown

The faults of the parser and of the checker stand at tokens, and their message is copied to the tokens
in their column.  A fault of the scanner need not stand at a token, and then it may not be seen.

* `places_annotate`, `location_mem_places_of_check` — checking moves no node, and a violation is
  blamed on a place in the tree.
* `message_ne_parse`, `message_ne_check` — a message tells whether it is the scanner's.
* `Token.receive` — both ways to put a message on a token, and `Put`, which says what comes of it.
* `Reaches` — the tokens that a message is meant for, and `Shown`, which says what two messages make
  of a token's own one.
* `shown_of_mem` — which message a token ends up with.
* `analysis_anchored` — every node and every fault behind the scanner stands at a token, and the
  message that is shown can be found there.
* `scanFault_shown_iff` — which faults of the scanner can be seen.
-/

namespace FilterLang

/-! ### Checked trees -/

theorem Expr.places_withNature (nature : Option Nature) (e : Expr) :
    (e.withNature nature).places = e.places := by
  cases e with
  | unary => simp only [withNature, withNote, note, places_unary]
  | binary => simp only [withNature, withNote, note, places_binary]
  | member => simp only [withNature, withNote, note, places_member]
  | call => simp only [withNature, withNote, note, places_call]
  | _ => rfl

section Checking

variable {schema : Schema} {expected : Option Kind} {tree : Expr} {fault : Located CheckFault}

/-- Checking moves no node. -/
theorem places_annotate (schema : Schema) (e : Expr) : (e.annotate schema).places = e.places := by
  induction e with
  | unary note operator operand ih => rw [Expr.annotate, Expr.places_unary, ih, Expr.places_unary]
  | binary note operator left right ihleft ihright =>
    rw [Expr.annotate, Expr.places_binary, Expr.places_withNature, ihleft, ihright,
      Expr.places_binary]
  | member note object property method ih =>
    rw [Expr.annotate, Expr.places_member, ih, Expr.places_member]
  | call note callee => rw [Expr.annotate, Expr.places_call, Expr.places_call]
  | _ => rfl

/-- The places of an evaluated node are places of the whole tree. -/
theorem Expr.places_subset {e node : Expr} (h : node ∈ e.evaluated) : node.places ⊆ e.places := by
  induction e with
  | unary note operator operand ih =>
    rw [evaluated, List.mem_append, List.mem_singleton] at h
    rcases h with h | rfl
    · rw [places_unary]
      exact List.subset_append_of_subset_left _ (ih h)
    · exact List.Subset.refl _
  | binary note operator left right ihleft ihright =>
    rw [evaluated, List.mem_append, List.mem_append, List.mem_singleton] at h
    rcases h with (h | h) | rfl
    · rw [places_binary, List.append_assoc]
      exact List.subset_append_of_subset_left _ (ihleft h)
    · rw [places_binary]
      exact List.subset_append_of_subset_left _ (List.subset_append_of_subset_right _ (ihright h))
    · exact List.Subset.refl _
  | member note object property method ih =>
    rw [evaluated, List.mem_append, List.mem_singleton] at h
    rcases h with h | rfl
    · rw [places_member, List.append_assoc]
      exact List.subset_append_of_subset_left _ (ih h)
    · exact List.Subset.refl _
  | _ => exact List.mem_singleton.mp h ▸ List.Subset.refl _

/-- What is said of a node is said of its own place, or of the place of its property. -/
theorem Violates.location_mem_places {e : Expr} (h : Violates schema e fault) :
    fault.location ∈ e.places := by
  have hproperty : ∀ (note : Note) (object property : Expr) (method : Bool),
      property.location ∈ (Expr.member note object property method).places := by
    intro note object property method
    rw [Expr.places_member]
    exact List.mem_append_left _ (List.mem_append_right _ property.location_mem_places)
  cases h with
  | noFields | fieldNotFound => exact hproperty _ _ _ _
  | _ => exact Expr.location_mem_places _

/-- A violation is blamed on a place in the tree. -/
theorem location_mem_places_of_check (h : (check schema expected tree).fault = some fault) :
    fault.location ∈ tree.places := by
  rcases check_cases schema expected tree with ⟨hnone, -⟩ | ⟨found, hsome, hfirst⟩
  · rw [h] at hnone
    cases hnone
  · rw [h] at hsome
    cases hsome
    cases hfirst with
    | node hnodes _ hnode =>
      exact Expr.places_subset (by rw [hnodes]; simp) hnode.location_mem_places
    | root => exact tree.location_mem_places

end Checking

/-! ### The messages of the stages -/

/-- The first nine characters of a message, which tell its stage. -/
def opening (message : String) : String := String.ofList (message.toList.take 9)

theorem opening_append (front rest : String) (h : 9 ≤ front.toList.length) :
    opening (front ++ rest) = opening front := by
  rw [opening, String.toList_append, List.take_append_of_le_length h]
  rfl

/-- How the messages of the scanner begin. -/
theorem opening_scan (fault : ScanFault) : opening fault.message =
    match fault with
    | .unrecognizedCharacter _ => "unrecogni"
    | .badNumberSyntax _ => "bad numbe"
    | .unterminatedLiteral => "literal n"
    | .invalidEscape => "invalid c"
    | .unclosedComment => "unclosed " := by
  cases fault with
  | unrecognizedCharacter c => exact opening_append "unrecognized character: " _ (by simp)
  | badNumberSyntax word => exact opening_append "bad number syntax: " _ (by simp)
  | unterminatedLiteral | invalidEscape | unclosedComment => rfl

theorem opening_parse (fault : ParseFault) : opening fault.message =
    match fault with
    | .unexpectedToken _ | .unexpectedEnd => "unexpecte"
    | .expectedName => "expected "
    | .invalidInteger _ => "invalid i" := by
  cases fault with
  | unexpectedToken shown => exact opening_append "unexpected token " _ (by simp)
  | invalidInteger text => exact opening_append "invalid integer literal: " _ (by simp)
  | unexpectedEnd | expectedName => rfl

theorem opening_check (fault : CheckFault) : opening fault.message =
    match fault with
    | .variableNotFound => "Variable "
    | .fieldNotFound => "Field not"
    | .noFields => "Target ha"
    | .notStruct => "Type of n"
    | .invalidType => "Invalid t"
    | .unsupportedOperator _ => "Unsupport"
    | .notSupported => "Not suppo"
    | .expectedType _ => "Expected " := by
  cases fault with
  | unsupportedOperator operator => exact opening_append "Unsupported operator " _ (by simp)
  | expectedType kind => exact opening_append "Expected type " _ (by simp)
  | _ => rfl

theorem message_ne_parse (fault : ScanFault) (other : ParseFault) :
    fault.message ≠ other.message := by
  intro h
  have h : opening fault.message = opening other.message := congrArg opening h
  rw [opening_scan, opening_parse] at h
  cases fault <;> cases other <;> simp at h

theorem message_ne_check (fault : ScanFault) (other : CheckFault) :
    fault.message ≠ other.message := by
  intro h
  have h : opening fault.message = opening other.message := congrArg opening h
  rw [opening_scan, opening_check] at h
  cases fault <;> cases other <;> simp at h

/-! ### Messages on tokens -/

section Marks

variable {structural lexical : Option Diagnostic} {reaches : Diagnostic → Prop}
  {own before after : Option String} {d : Diagnostic} {tokens : List Token} {token : Token}

/-- A message is put where it reaches, and nothing changes elsewhere. -/
def Put (reaches : Diagnostic → Prop) (message : Option Diagnostic) (before after : Option String) :
    Prop :=
  (∃ d ∈ message, reaches d ∧ after = some d.value) ∨
    (∀ d ∈ message, ¬ reaches d) ∧ after = before

/-- What two messages make of a token's own one: the message of the scanner comes first, then the
other one, and then the own one. -/
inductive Shown (reaches : Diagnostic → Prop) (structural lexical : Option Diagnostic)
    (own : Option String) : Option String → Prop where
  | lexical {d : Diagnostic} (hd : d ∈ lexical) (hreaches : reaches d) :
      Shown reaches structural lexical own (some d.value)
  | structural {d : Diagnostic} (hd : d ∈ structural) (hreaches : reaches d)
      (hlexical : ∀ d ∈ lexical, ¬ reaches d) : Shown reaches structural lexical own (some d.value)
  | own (hstructural : ∀ d ∈ structural, ¬ reaches d) (hlexical : ∀ d ∈ lexical, ¬ reaches d) :
      Shown reaches structural lexical own own

theorem shown_of_put (hstructural : Put reaches structural own before)
    (hlexical : Put reaches lexical before after) :
    Shown reaches structural lexical own after := by
  rcases hlexical with ⟨d, hd, hreaches, rfl⟩ | ⟨hlexical, rfl⟩
  · exact .lexical hd hreaches
  rcases hstructural with ⟨d, hd, hreaches, rfl⟩ | ⟨hstructural, rfl⟩
  · exact .structural hd hreaches hlexical
  · exact .own hstructural hlexical

/-- Takes a message that reaches the token. -/
def Token.receive (reaches : Diagnostic → Prop) [DecidablePred reaches]
    (message : Option Diagnostic) (token : Token) : Token :=
  match message with
  | some d => if reaches d then { token with error := some d.value } else token
  | none => token

theorem mark_eq_receive (message : Option Diagnostic) (token : Token) : token.mark message =
    token.receive (fun d => d.location.column = token.location.column) message := by
  cases message <;> rfl

theorem markFrom_eq_receive (message : Option Diagnostic) (token : Token) :
    token.markFrom message =
      token.receive (fun d => token.location.column ≤ d.location.column) message := by
  cases message <;> rfl

theorem put_receive (reaches : Diagnostic → Prop) [DecidablePred reaches]
    (message : Option Diagnostic) (token : Token) :
    Put reaches message token.error (token.receive reaches message).error := by
  cases message with
  | none => exact .inr ⟨nofun, rfl⟩
  | some d =>
    rw [Token.receive]
    by_cases hreaches : reaches d
    · exact .inl ⟨d, rfl, hreaches, by rw [if_pos hreaches]⟩
    · refine .inr ⟨?_, by rw [if_neg hreaches]⟩
      rintro _ ⟨⟩
      exact hreaches

/-- What does not look at messages does not see one that is taken. -/
theorem apply_receive {α : Type} {f : Token → α}
    (hf : ∀ (token : Token) (error : Option String), f { token with error } = f token)
    (reaches : Diagnostic → Prop) [DecidablePred reaches] (message : Option Diagnostic)
    (token : Token) : f (token.receive reaches message) = f token := by
  cases message with
  | none => rfl
  | some d =>
    rw [Token.receive]
    split_ifs
    · exact hf _ _
    · rfl

@[simp]
theorem location_mark (message : Option Diagnostic) (token : Token) :
    (token.mark message).location = token.location := by
  rw [mark_eq_receive]
  exact apply_receive (fun _ _ => rfl) _ message token

@[simp]
theorem location_markFrom (message : Option Diagnostic) (token : Token) :
    (token.markFrom message).location = token.location := by
  rw [markFrom_eq_receive]
  exact apply_receive (fun _ _ => rfl) _ message token

theorem put_mark (message : Option Diagnostic) (token : Token) :
    Put (fun d => d.location.column = token.location.column) message token.error
      (token.mark message).error :=
  mark_eq_receive message token ▸ put_receive _ message token

theorem put_markFrom (message : Option Diagnostic) (token : Token) :
    Put (fun d => token.location.column ≤ d.location.column) message token.error
      (token.markFrom message).error :=
  markFrom_eq_receive message token ▸ put_receive _ message token

theorem shown_mark (structural lexical : Option Diagnostic) (token : Token) :
    Shown (fun d => d.location.column = token.location.column) structural lexical token.error
      ((token.mark structural).mark lexical).error := by
  have hlexical := put_mark lexical (token.mark structural)
  rw [location_mark] at hlexical
  exact shown_of_put (put_mark structural token) hlexical

/-- What reaches the last token from behind is all that counts there. -/
theorem shown_markFrom (structural lexical : Option Diagnostic) (token : Token) :
    Shown (fun d => token.location.column ≤ d.location.column) structural lexical token.error
      ((((token.mark structural).mark lexical).markFrom structural).markFrom lexical).error := by
  have hmark := shown_mark structural lexical token
  have hlocation : ((token.mark structural).mark lexical).location = token.location := by simp
  generalize (token.mark structural).mark lexical = marked at hmark hlocation ⊢
  have hstructural := put_markFrom structural marked
  have hlexical := put_markFrom lexical (marked.markFrom structural)
  rw [location_markFrom, hlocation] at hlexical
  rw [hlocation] at hstructural
  have hfrom := shown_of_put hstructural hlexical
  generalize ((marked.markFrom structural).markFrom lexical).error = error at hfrom ⊢
  generalize marked.error = first at hmark hfrom
  cases hfrom with
  | lexical hd hreaches => exact .lexical hd hreaches
  | structural hd hreaches hnone => exact .structural hd hreaches hnone
  | own hnone hnone' =>
    cases hmark with
    | lexical hd hreaches => exact absurd (Nat.le_of_eq hreaches.symm) (hnone' _ hd)
    | structural hd hreaches _ => exact absurd (Nat.le_of_eq hreaches.symm) (hnone _ hd)
    | own => exact .own hnone hnone'

/-- Only the last token takes what lies behind it. -/
theorem markTokens_concat (structural lexical : Option Diagnostic) (front : List Token)
    (last : Token) : markTokens structural lexical (front ++ [last]) =
      (front.map fun token => (token.mark structural).mark lexical) ++
        [(((last.mark structural).mark lexical).markFrom structural).markFrom lexical] := by
  induction front with
  | nil => rfl
  | cons token front ih =>
    cases front with
    | nil => rfl
    | cons next front => exact congrArg _ ih

/-- Marking changes nothing but messages. -/
theorem map_markTokens {α : Type} {f : Token → α}
    (hf : ∀ (token : Token) (error : Option String), f { token with error } = f token)
    (structural lexical : Option Diagnostic) (tokens : List Token) :
    (markTokens structural lexical tokens).map f = tokens.map f := by
  have hmark : ∀ message token, f (Token.mark message token) = f token := by
    intro message token
    rw [mark_eq_receive]
    exact apply_receive hf _ message token
  have hmarkFrom : ∀ message token, f (Token.markFrom message token) = f token := by
    intro message token
    rw [markFrom_eq_receive]
    exact apply_receive hf _ message token
  rcases List.eq_nil_or_concat' tokens with rfl | ⟨front, last, rfl⟩
  · rfl
  · rw [markTokens_concat, List.map_append, List.map_append, List.map_map]
    simp [Function.comp_def, hmark, hmarkFrom]

theorem exists_mem_markTokens (h : token ∈ tokens) :
    ∃ marked ∈ markTokens structural lexical tokens,
      marked.kind = token.kind ∧ marked.location = token.location := by
  have hmem : (token.kind, token.location) ∈ tokens.map fun t => (t.kind, t.location) :=
    List.mem_map_of_mem h
  rw [← map_markTokens (fun _ _ => rfl) structural lexical] at hmem
  obtain ⟨marked, hmarked, heq⟩ := List.mem_map.mp hmem
  exact ⟨marked, hmarked, congrArg Prod.fst heq, congrArg Prod.snd heq⟩

theorem occupied_markTokens {here : Location} (h : Occupied tokens here) :
    Occupied (markTokens structural lexical tokens) here := by
  obtain ⟨token, htoken, rfl⟩ := h
  obtain ⟨marked, hmarked, -, hlocation⟩ := exists_mem_markTokens htoken
  exact ⟨marked, hmarked, hlocation⟩

/-- A message reaches the tokens in its column, and the last token also from behind. -/
def Reaches (tokens : List Token) (token : Token) (d : Diagnostic) : Prop :=
  d.location.column = token.location.column ∨
    tokens.getLast? = some token ∧ token.location.column ≤ d.location.column

/-- **Which message a token ends up with.** -/
theorem shown_of_mem (h : token ∈ markTokens structural lexical tokens) :
    ∃ source ∈ tokens, Shown (Reaches (markTokens structural lexical tokens) token) structural
      lexical source.error token.error := by
  rcases List.eq_nil_or_concat' tokens with rfl | ⟨front, last, rfl⟩
  · cases h
  rw [markTokens_concat, List.mem_append, List.mem_singleton, List.mem_map] at h
  rw [markTokens_concat]
  generalize hmarked :
    (((last.mark structural).mark lexical).markFrom structural).markFrom lexical = marked at h ⊢
  -- a token that is the last one is so even if it stands in front as well
  by_cases hlast : token = marked
  · subst hlast
    have hreaches : Reaches (front.map (fun token => (token.mark structural).mark lexical) ++ [token])
        token = fun d => last.location.column ≤ d.location.column := by
      have hlocation : token.location = last.location := by simp [← hmarked]
      funext d
      rw [Reaches, List.getLast?_concat, hlocation, eq_iff_iff]
      exact ⟨fun h => h.elim (fun h => Nat.le_of_eq h.symm) And.right, fun h => .inr ⟨rfl, h⟩⟩
    rw [hreaches, ← hmarked]
    exact ⟨last, by simp, shown_markFrom structural lexical last⟩
  · obtain ⟨source, hsource, rfl⟩ := h.resolve_right hlast
    have hreaches : Reaches (front.map (fun token => (token.mark structural).mark lexical) ++ [marked])
        ((source.mark structural).mark lexical) =
          fun d => d.location.column = source.location.column := by
      funext d
      rw [Reaches, List.getLast?_concat, location_mark, location_mark, eq_iff_iff]
      exact or_iff_left fun h => hlast (Option.some.inj h.1).symm
    rw [hreaches]
    exact ⟨source, List.mem_append_left _ hsource, shown_mark structural lexical source⟩

end Marks

/-! ### Analyses -/

/-- The end token of a text is not blank. -/
theorem solid_scan_ne_nil (source : String) : solid (scan source).tokens ≠ [] := by
  obtain ⟨front, last, htokens, hlast⟩ := Scanner.scan_ends source
  have hmem : last ∈ solid (scan source).tokens := by
    rw [htokens]
    simp [solid, Token.isBlank, hlast]
  exact List.ne_nil_of_mem hmem

section Analyses

variable {schema : Schema} {expected : Option Kind} {source : String}

/-- A place at a scanned token is one at a token of the analysis. -/
theorem occupied_analyze {here : Location} (h : Occupied (scan source).tokens here) :
    Occupied (analyze schema expected source).tokens here :=
  occupied_markTokens h

theorem tree_analyze {tree : Expr} (h : tree ∈ (analyze schema expected source).tree) :
    ∃ read ∈ (parse (scan source).tokens).tree, tree = read.annotate schema := by
  rw [analyze] at h
  simp only [Option.mem_def, Option.map_eq_some_iff] at h
  obtain ⟨_, ⟨read, hread, rfl⟩, rfl⟩ := h
  exact ⟨read, hread, rfl⟩

theorem checkFault_analyze {fault : Located CheckFault}
    (h : fault ∈ (analyze schema expected source).checkFault) :
    ∃ read ∈ (parse (scan source).tokens).tree, (check schema expected read).fault = some fault := by
  rw [analyze] at h
  simp only [Option.mem_def, Option.bind_eq_some_iff, Option.map_eq_some_iff] at h
  obtain ⟨_, ⟨read, hread, rfl⟩, hfault⟩ := h
  exact ⟨read, hread, hfault⟩

/-- Every place in the tree that is read. -/
theorem occupied_read {read : Expr} (h : read ∈ (parse (scan source).tokens).tree) {here : Location}
    (hhere : here ∈ read.places) : Occupied (analyze schema expected source).tokens here :=
  occupied_analyze ((anchored_parse (solid_scan_ne_nil source)).1 read h here hhere)

theorem occupied_node {tree node : Expr} (h : tree ∈ (analyze schema expected source).tree)
    (hnode : node ∈ tree.nodes) : Occupied (analyze schema expected source).tokens node.location := by
  obtain ⟨read, hread, rfl⟩ := tree_analyze h
  refine occupied_read hread ?_
  rw [← places_annotate schema]
  exact List.mem_map_of_mem hnode

theorem occupied_parseFault {fault : Located ParseFault}
    (h : fault ∈ (analyze schema expected source).parseFault) :
    Occupied (analyze schema expected source).tokens fault.location :=
  occupied_analyze ((anchored_parse (solid_scan_ne_nil source)).2 fault h)

theorem occupied_checkFault {fault : Located CheckFault}
    (h : fault ∈ (analyze schema expected source).checkFault) :
    Occupied (analyze schema expected source).tokens fault.location := by
  obtain ⟨read, hread, hfault⟩ := checkFault_analyze h
  exact occupied_read hread (location_mem_places_of_check hfault)

/-- The message of the parser or of the checker is the one to show, and stands at a token. -/
theorem structuralDiagnostic_cases (h : (analyze schema expected source).parseFault.isSome ∨
      (analyze schema expected source).checkFault.isSome) :
    ∃ d, (analyze schema expected source).structuralDiagnostic? = some d ∧
      Occupied (analyze schema expected source).tokens d.location := by
  rw [Analysis.structuralDiagnostic?]
  cases hparse : (analyze schema expected source).parseFault with
  | some fault => exact ⟨_, rfl, occupied_parseFault hparse⟩
  | none =>
    rw [hparse] at h
    obtain ⟨fault, hcheck⟩ := Option.isSome_iff_exists.mp (h.resolve_left nofun)
    exact ⟨fault.map CheckFault.message, by rw [hcheck]; rfl, occupied_checkFault hcheck⟩

end Analyses

/-- **What an analysis tells of stands at its tokens.**  Every node of the tree and the faults of the
parser and of the checker stand at tokens.  So if there is such a fault, the message to show is about
a place of tokens, and each of them carries it, or else the message of the scanner: that replaces it
on the tokens in its own column, and on the last token also from behind. -/
theorem analysis_anchored (schema : Schema) (expected : Option Kind) (source : String) :
    (∀ tree ∈ (analyze schema expected source).tree, ∀ node ∈ tree.nodes,
      Occupied (analyze schema expected source).tokens node.location) ∧
    (∀ fault ∈ (analyze schema expected source).parseFault,
      Occupied (analyze schema expected source).tokens fault.location) ∧
    (∀ fault ∈ (analyze schema expected source).checkFault,
      Occupied (analyze schema expected source).tokens fault.location) ∧
    ((analyze schema expected source).parseFault.isSome ∨
        (analyze schema expected source).checkFault.isSome →
      ∃ d, (analyze schema expected source).diagnostic? = some d ∧
        Occupied (analyze schema expected source).tokens d.location ∧
        ∀ token ∈ (analyze schema expected source).tokens, token.location = d.location →
          token.error = some d.value ∨
            ∃ fault ∈ (analyze schema expected source).scanFault,
              token.error = some fault.value.message ∧
              Reaches (analyze schema expected source).tokens token
                (fault.map ScanFault.message)) := by
  refine ⟨fun _ htree _ => occupied_node htree, fun _ => occupied_parseFault,
    fun _ => occupied_checkFault, fun h => ?_⟩
  obtain ⟨d, hd, hplace⟩ := structuralDiagnostic_cases h
  refine ⟨d, by rw [Analysis.diagnostic?, hd]; rfl, hplace, fun token htoken hlocation => ?_⟩
  have htokens : (analyze schema expected source).tokens =
      markTokens (some d) (analyze schema expected source).lexicalDiagnostic?
        (scan source).tokens := by
    rw [← hd]
    rfl
  have hreaches : Reaches (analyze schema expected source).tokens token d :=
    .inl (congrArg Location.column hlocation.symm)
  rw [htokens] at htoken hreaches ⊢
  obtain ⟨_, _, hshown⟩ := shown_of_mem htoken
  generalize herror : token.error = error at hshown ⊢
  cases hshown with
  | lexical hd' hreaches' =>
    obtain ⟨fault, hfault, rfl⟩ := Option.map_eq_some_iff.mp hd'
    exact .inr ⟨fault, hfault, rfl, hreaches'⟩
  | structural hd' _ _ =>
    cases hd'
    exact .inl rfl
  | own hnone _ => exact absurd hreaches (hnone d rfl)

-- the parser has no use for the number, which the scanner has found to be none
example : (analyze {} none "1 2a").diagnostic? = some ⟨"unexpected token 2a (number)", ⟨1, 2⟩⟩ ∧
    (analyze {} none "1 2a").tokens.map Token.error =
      [none, none, some "bad number syntax: 2a", none] := by
  decide +kernel

/-! ### Faults of the scanner -/

section ScanFaults

variable {schema : Schema} {expected : Option Kind} {source : String} {fault : Located ScanFault}
  {token : Token}

/-- The message of the parser or of the checker is not one of the scanner. -/
theorem value_ne_of_structural {a : Analysis} {d : Diagnostic} (hd : d ∈ a.structuralDiagnostic?)
    (fault : ScanFault) : d.value ≠ fault.message := by
  rcases Option.or_eq_some_iff.mp hd with hd | ⟨-, hd⟩
  · obtain ⟨other, -, rfl⟩ := Option.map_eq_some_iff.mp hd
    exact (message_ne_parse fault other.value).symm
  · obtain ⟨other, -, rfl⟩ := Option.map_eq_some_iff.mp hd
    exact (message_ne_check fault other.value).symm

theorem lexicalDiagnostic_analyze (h : (analyze schema expected source).scanFault = some fault) :
    (analyze schema expected source).lexicalDiagnostic? = some (fault.map ScanFault.message) := by
  rw [Analysis.lexicalDiagnostic?, h]
  rfl

/-- The message of the scanner is on the tokens that it reaches, and on no others. -/
theorem error_eq_scanFault_iff (h : (analyze schema expected source).scanFault = some fault)
    (htoken : token ∈ (analyze schema expected source).tokens) :
    token.error = some fault.value.message ↔
      Reaches (analyze schema expected source).tokens token (fault.map ScanFault.message) := by
  have hlexical := lexicalDiagnostic_analyze h
  obtain ⟨original, horiginal, hshown⟩ := shown_of_mem htoken
  have hunmarked : original.error = none := Scanner.unmarked_scan source original horiginal
  change Shown (Reaches (analyze schema expected source).tokens token)
    (analyze schema expected source).structuralDiagnostic?
    (analyze schema expected source).lexicalDiagnostic? original.error token.error at hshown
  rw [hlexical, hunmarked] at hshown
  generalize token.error = error at hshown ⊢
  cases hshown with
  | lexical hd hreaches =>
    cases hd
    exact ⟨fun _ => hreaches, fun _ => rfl⟩
  | structural hd _ hnone =>
    refine ⟨fun herror => ?_, fun hreaches => absurd hreaches (hnone _ rfl)⟩
    exact absurd (Option.some.inj herror) (value_ne_of_structural hd fault.value)
  | own _ hnone => exact ⟨nofun, fun hreaches => absurd hreaches (hnone _ rfl)⟩

end ScanFaults

/-- **Which faults of the scanner can be seen.**  The message is on some token just where it reaches
one: where a token starts in its column, or the last token in or before it.  A stray character, a
comment and an escape give no token of their own, so nothing need be there.  But a fault that spoils a
token is always seen on the spoiled one. -/
theorem scanFault_shown_iff (schema : Schema) (expected : Option Kind) (source : String)
    (fault : Located ScanFault) (h : (analyze schema expected source).scanFault = some fault) :
    ((∃ token ∈ (analyze schema expected source).tokens,
        token.error = some fault.value.message) ↔
      (∃ token ∈ (analyze schema expected source).tokens,
        fault.location.column = token.location.column) ∨
      ∃ last ∈ (analyze schema expected source).tokens.getLast?,
        last.location.column ≤ fault.location.column) ∧
    ∀ kind ∈ fault.value.spoiled?, ∃ token ∈ (analyze schema expected source).tokens,
      token.kind = kind ∧ token.location = fault.location ∧
        token.error = some fault.value.message := by
  refine ⟨⟨?_, ?_⟩, fun kind hkind => ?_⟩
  · rintro ⟨token, htoken, herror⟩
    rcases (error_eq_scanFault_iff h htoken).mp herror with hcolumn | ⟨hlast, hcolumn⟩
    · exact .inl ⟨token, htoken, hcolumn⟩
    · exact .inr ⟨token, hlast, hcolumn⟩
  · rintro (⟨token, htoken, hcolumn⟩ | ⟨last, hlast, hcolumn⟩)
    · exact ⟨token, htoken, (error_eq_scanFault_iff h htoken).mpr (.inl hcolumn)⟩
    · have hmem := List.mem_of_getLast? hlast
      exact ⟨last, hmem, (error_eq_scanFault_iff h hmem).mpr (.inr ⟨hlast, hcolumn⟩)⟩
  · obtain ⟨original, horiginal, rfl, hplace⟩ := Scanner.spoilsOneOf_scan h kind hkind
    obtain ⟨token, htoken, htokenkind, hlocation⟩ := exists_mem_markTokens horiginal
    refine ⟨token, htoken, htokenkind, hlocation.trans hplace, ?_⟩
    refine (error_eq_scanFault_iff h htoken).mpr (.inl ?_)
    exact congrArg Location.column (hlocation.trans hplace).symm

/-- In `1 == 12ab` the number `12a` is marked, which stands in column 5. -/
theorem scanFault_shown_number :
    ∃ fault, (analyze {} none "1 == 12ab").scanFault = some fault ∧
      fault = ⟨.badNumberSyntax "12a", ⟨1, 5⟩⟩ ∧
      (∃ token ∈ (analyze {} none "1 == 12ab").tokens,
        token.error = some fault.value.message) ∧
      ∃ token ∈ (analyze {} none "1 == 12ab").tokens,
        token.kind = .number ∧ token.location = ⟨1, 5⟩ ∧ token.error = some fault.value.message := by
  have h : (analyze {} none "1 == 12ab").scanFault = some ⟨.badNumberSyntax "12a", ⟨1, 5⟩⟩ := by
    decide +kernel
  obtain ⟨hshown, hspoiled⟩ := scanFault_shown_iff {} none "1 == 12ab" _ h
  have hcolumn : ∃ token ∈ (analyze {} none "1 == 12ab").tokens, 5 = token.location.column := by
    decide +kernel
  exact ⟨_, h, rfl, hshown.mpr (.inl hcolumn), hspoiled .number rfl⟩

/-- **A fault of the scanner that no token shows.**  In `1 @` the stray character stands behind the
blank and in front of the end token. -/
theorem scanFault_not_shown :
    ∃ fault, (analyze {} none "1 @").scanFault = some fault ∧
      ∀ token ∈ (analyze {} none "1 @").tokens, token.error ≠ some fault.value.message :=
  ⟨⟨.unrecognizedCharacter '@', ⟨1, 2⟩⟩, by decide +kernel, by decide +kernel⟩

end FilterLang
