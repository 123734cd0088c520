import FilterLang.Completion
import FilterLang.Library.Alignment
import FilterLang.Proofs.Scanner.Prefix

/-!
# Completions look back only

What is offered at a cursor depends on the text in front of it and not on the text behind.

* `map_withQuery?` — the title and the items of a completion are those of the offer.
* `offer?_congr` — an offer is made of the tokens that are complete at the cursor.
* `at?_append` — the completion at the end of a text, and with more text behind it.
-/

namespace FilterLang.Completion

variable {matcher : Matcher} {schema : Schema} {query : String} {column : Nat}

/-- What is offered at a cursor, without the column where it is to be inserted. -/
def offered (completion : Completion) : Title × List Item := (completion.title, completion.items)

theorem map_withQuery? (tokens : List Token) :
    (withQuery? matcher schema query column tokens).map offered =
      offer? matcher schema query column tokens := by
  rw [withQuery?, Option.map_map]
  exact Option.map_id'

theorem offer?_congr {tokens tokens' : List Token}
    (h : Cursor.tokensUntil column tokens = Cursor.tokensUntil column tokens') :
    offer? matcher schema query column tokens = offer? matcher schema query column tokens' := by
  rw [offer?, offer?, completeTokens, completeTokens, h]

/-- The word that ends in front of more text. -/
theorem partialWord_append (p q : String) :
    Cursor.partialWord (p ++ q) p.length = Cursor.partialWord p p.length := by
  have htake : (p ++ q).toList.take p.length = p.toList.take p.length := by
    rw [String.toList_append, ← String.length_toList, List.take_left, List.take_length]
  rw [Cursor.partialWord, Cursor.partialWord, htake]

/-- **Completions depend only on the text in front of the cursor.**  In a line, the text `q` behind
the cursor changes neither whether there is a completion nor its title and its items, unless the
cursor stands between two dots or between a dot and a digit. -/
theorem at?_append (matcher : Matcher) (schema : Schema) {p q : String} (hp : '\n' ∉ p.toList)
    (hq : '\n' ∉ q.toList)
    (hdot : ¬ (p.toList.getLast? = some '.' ∧ ∃ d ∈ q.toList.head?, d = '.' ∨ d.isDigit)) :
    (at? matcher schema (p ++ q) p.length (scan (p ++ q)).tokens).map offered =
      (at? matcher schema p p.length (scan p).tokens).map offered := by
  have htokens : Cursor.tokensUntil p.length (scan (p ++ q)).tokens =
      Cursor.tokensUntil p.length (scan p).tokens := by
    have h := Scanner.tokensUntil_append hp hq fun hlast d hd =>
      not_or.mp fun hd' => hdot ⟨hlast, d, hd, hd'⟩
    rwa [← String.toList_append, String.length_toList] at h
  rw [at?, at?, map_withQuery?, map_withQuery?, partialWord_append]
  exact offer?_congr htokens

/-- Behind the cursor an operator becomes another one and a string is opened. -/
theorem at?_append_relation :
    '\n' ∉ "age >".toList ∧ '\n' ∉ "= 18 or 'x".toList ∧
      (at? .aligning {} ("age >" ++ "= 18 or 'x") 5 (scan ("age >" ++ "= 18 or 'x")).tokens).map
          offered =
        (at? .aligning {} "age >" 5 (scan "age >").tokens).map offered :=
  ⟨by decide, by decide, at?_append .aligning {} (by decide) (by decide) (by decide)⟩

end FilterLang.Completion
