import FilterLang.Proofs.Completion.Items

/-!
# Rankings are sorted

Where the hit of a candidate depends on nothing but the query and the candidate, the order in which
the candidates are given does not matter: hits that neither stands in front of the other are the same
hit of the same candidate.

* `before_iff`, `before_trans`, `before_total` — the order of hits, and `eq_of_before`, where it tells
  two of them apart.
* `ranking` — the hits of a list in their order.
* `Precedes` — the order as the ranked candidates show it, and `Ranks` — a ranking of candidates.
* `rankWith_sorts` — ranking sorts the candidates that match.
-/

namespace FilterLang.Fuzzy

/-! ### The order of hits -/

theorem before_iff {x y : String × Hit} :
    before x y ↔ y.2.score < x.2.score ∨ x.2.score = y.2.score ∧ x.1 ≤ y.1 := by
  simp [before]

theorem before_trans (x y z : String × Hit) (hxy : before x y) (hyz : before y z) : before x z := by
  rw [before_iff] at *
  rcases hxy with hxy | ⟨hxy, hnames⟩
  · left
    omega
  · rcases hyz with hyz | ⟨hyz, hnames'⟩
    · left
      omega
    · exact .inr ⟨hxy.trans hyz, String.le_trans hnames hnames'⟩

theorem before_total (x y : String × Hit) : before x y || before y x := by
  rw [Bool.or_eq_true, before_iff, before_iff]
  rcases Int.lt_trichotomy x.2.score y.2.score with h | h | h
  · exact .inr (.inl h)
  · exact (String.le_total x.1 y.1).imp (fun hle => .inr ⟨h, hle⟩) fun hle => .inr ⟨h.symm, hle⟩
  · exact .inl (.inl h)

section Hits

variable {find : String → String → Option Hit} {query : String} {candidates : List String}
  {x y : String × Hit}

/-- Two hits that may each stand in front of the other have the same name, and so they are the same. -/
theorem eq_of_before (hx : find query x.1 = some x.2) (hy : find query y.1 = some y.2)
    (hxy : before x y) (hyx : before y x) : x = y := by
  rw [before_iff] at hxy hyx
  have hname : x.1 = y.1 := by
    rcases hxy with hxy | ⟨hscore, hxy⟩
    · rcases hyx with hyx | ⟨hscore, -⟩ <;> omega
    · rcases hyx with hyx | ⟨-, hyx⟩
      · omega
      · exact String.le_antisymm hxy hyx
  rw [hname, hy] at hx
  exact Prod.ext hname (Option.some.inj hx).symm

/-! ### Rankings -/

/-- The hits of a list of candidates, the best first. -/
def ranking (find : String → String → Option Hit) (query : String) (candidates : List String) :
    List (String × Hit) :=
  ((Matcher.ofFunction find).hits query candidates).mergeSort before

theorem rankWith_eq (hquery : query ≠ "") (candidates : List String) :
    rankWith (.ofFunction find) query candidates =
      (ranking find query candidates).map fun hit => .marked hit.1 hit.2 := by
  rw [rankWith, if_neg fun hempty => hquery (String.isEmpty_iff.mp hempty)]
  rfl

theorem pairwise_ranking (find : String → String → Option Hit) (query : String)
    (candidates : List String) : (ranking find query candidates).Pairwise (before · ·) :=
  List.pairwise_mergeSort before_trans before_total _

/-- The names of a ranking are the candidates that match, each as often as it is given. -/
theorem perm_ranking (find : String → String → Option Hit) (query : String)
    (candidates : List String) : ((ranking find query candidates).map Prod.fst).Perm
      (candidates.filter fun name => (find query name).isSome) := by
  rw [← (Matcher.decides_ofFunction find).map_hits candidates]
  exact (List.mergeSort_perm _ _).map Prod.fst

/-- Every hit of a ranking is the candidate's own one. -/
theorem find_of_mem_ranking (h : x ∈ ranking find query candidates) :
    find query x.1 = some x.2 := by
  rw [ranking, List.mem_mergeSort, Matcher.hits_ofFunction, List.mem_filterMap] at h
  obtain ⟨name, -, hfind⟩ := h
  obtain ⟨hit, hhit, rfl⟩ := Option.map_eq_some_iff.mp hfind
  exact hhit

/-- **The order of the candidates does not matter.** -/
theorem ranking_eq_of_perm {others : List String} (h : others.Perm candidates) :
    ranking find query others = ranking find query candidates := by
  refine List.Perm.eq_of_pairwise (fun x y hx hy hxy hyx => ?_) (pairwise_ranking find query others)
    (pairwise_ranking find query candidates) ?_
  · exact eq_of_before (find_of_mem_ranking hx) (find_of_mem_ranking hy) hxy hyx
  · have hhits : ((Matcher.ofFunction find).hits query others).Perm
        ((Matcher.ofFunction find).hits query candidates) := by
      rw [Matcher.hits_ofFunction, Matcher.hits_ofFunction]
      exact h.filterMap _
    exact (List.mergeSort_perm _ _).trans (hhits.trans (List.mergeSort_perm _ _).symm)

end Hits

/-! ### Ranked candidates -/

/-- Of two ranked candidates the first has the greater score, or an equal one and a name that does not
come later by code point. -/
def Precedes (find : String → String → Option Hit) (query : String) (x y : Ranked) : Prop :=
  ∃ hit ∈ find query x.name, ∃ hit' ∈ find query y.name,
    hit'.score < hit.score ∨ hit.score = hit'.score ∧ x.name ≤ y.name

/-- The candidates that match, each as often as it is given and highlighted by its own hit, in their
order. -/
structure Ranks (find : String → String → Option Hit) (query : String) (candidates : List String)
    (ranked : List Ranked) : Prop where
  perm : (ranked.map Ranked.name).Perm
    (candidates.filter fun name => (find query name).isSome)
  ordered : ranked.Pairwise (Precedes find query)
  highlighted : ∀ r ∈ ranked, ∃ hit ∈ find query r.name,
    r.html = highlight r.name hit.indices highlightOpening highlightClosing

theorem ranks_rankWith (find : String → String → Option Hit) {query : String} (hquery : query ≠ "")
    (candidates : List String) :
    Ranks find query candidates (rankWith (.ofFunction find) query candidates) := by
  rw [rankWith_eq hquery]
  refine ⟨?_, ?_, ?_⟩
  · rw [List.map_map]
    exact perm_ranking find query candidates
  · rw [List.pairwise_map]
    refine (pairwise_ranking find query candidates).imp_of_mem fun hx hy hxy => ?_
    exact ⟨_, find_of_mem_ranking hx, _, find_of_mem_ranking hy, before_iff.mp hxy⟩
  · intro r hr
    obtain ⟨x, hx, rfl⟩ := List.mem_map.mp hr
    exact ⟨x.2, find_of_mem_ranking hx, rfl⟩

/-- **Ranking sorts the candidates that match.**  This is so for every way to match that depends on
query and candidate alone: it yields a ranking, and the same one for every order of the candidates.
Without a query the candidates stay as they are. -/
theorem rankWith_sorts (find : String → String → Option Hit) (candidates : List String) :
    (∀ query, query ≠ "" →
      Ranks find query candidates (rankWith (.ofFunction find) query candidates) ∧
      ∀ others, others.Perm candidates →
        rankWith (.ofFunction find) query others = rankWith (.ofFunction find) query candidates) ∧
    rankWith (.ofFunction find) "" candidates = candidates.map fun name => ⟨name, name⟩ := by
  refine ⟨fun query hquery => ⟨ranks_rankWith find hquery candidates, fun others hothers => ?_⟩, rfl⟩
  rw [rankWith_eq hquery, rankWith_eq hquery, ranking_eq_of_perm hothers]

/-- Of two names with equal scores the smaller one comes first, wherever it is given, and a name that is
given twice is ranked twice. -/
theorem rankWith_sorts_ties :
    "f" ≠ "" ∧ ["fb", "of", "xy", "fa", "fb"].Perm ["fa", "fb", "fb", "of", "xy"] ∧
      rankWith (.ofFunction find?) "f" ["fb", "of", "xy", "fa", "fb"] =
        [⟨"fa", "<em>f</em>a"⟩, ⟨"fb", "<em>f</em>b"⟩, ⟨"fb", "<em>f</em>b"⟩,
          ⟨"of", "o<em>f</em>"⟩] := by
  have hquery : "f" ≠ "" := by decide
  have hperm : ["fb", "of", "xy", "fa", "fb"].Perm ["fa", "fb", "fb", "of", "xy"] := by decide
  have hsorted : ((Matcher.ofFunction find?).hits "f" ["fa", "fb", "fb", "of", "xy"]).Pairwise
      (before · ·) := by
    decide +kernel
  refine ⟨hquery, hperm, ?_⟩
  rw [((rankWith_sorts find? _).1 "f" hquery).2 _ hperm, rankWith_eq hquery, ranking,
    List.mergeSort_of_pairwise hsorted]
  decide +kernel

end FilterLang.Fuzzy
