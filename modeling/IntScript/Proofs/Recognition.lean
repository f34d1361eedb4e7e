import IntScript.Proofs.Grammar.Ranking
import IntScript.Proofs.Grammar.Skipping
import IntScript.Proofs.Peg.Nesting

/-!
# Recognition always ends

On any text, well-formed or not, the expressions of the grammar are matched with fuel in proportion
to what is left of the text.

* `InGrammar` : the rules, what their bodies are put together from, and the layout;
* `InGrammar.tame`, `InGrammar.depth_le` : the ranking covers all of them;
* `recogniser_ends` : runs end, repetitions take characters, and the nesting is bounded, at one
  place by a constant.
-/

namespace IntScript

/-- The expressions that are matched: the rules, the expressions that their bodies are put together
from, and those that the layout is. -/
def InGrammar (x : Peg Rule) : Prop :=
  (∃ r, x = .rule r ∨ x ∈ (Rule.body r).parts) ∨ x ∈ Layout.skipped.parts

namespace InGrammar

variable {x : Peg Rule}

theorem tame (hx : InGrammar x) : x.tame Rule.eats Rule.rank 100 = true := by
  rcases hx with ⟨r, rfl | hx⟩ | hx
  · rfl
  · exact Peg.tame_of_mem_parts (ranking.tame_body r) hx
  · exact Peg.tame_of_mem_parts (by decide) hx

/-- At one place no more than forty expressions are nested in each other. -/
theorem depth_le (hx : InGrammar x) : x.depth Rule.eats Rule.rank ≤ 40 := by
  rcases hx with ⟨r, rfl | hx⟩ | hx
  · cases r <;> decide
  · revert x
    cases r <;> decide
  · revert x
    decide

end InGrammar

/-- Fuel in proportion to what is left of the text suffices for any expression of the grammar. -/
theorem exists_run_eq {x : Peg Rule} (hx : InGrammar x) (m : Mode) (c : Cursor)
    (f : Furthest Rule) :
    ∃ v, v ≠ .exhausted ∧ ∀ fuel ≥ matchFuel c.rest.length, grammar.run fuel m x c f = v := by
  have hdepth := hx.depth_le
  have hfound : ∀ fuel ≥ matchFuel c.rest.length, (grammar.run fuel m x c f).found? ≠ none := by
    intro fuel hfuel
    refine ranking.found_run hx.tame ?_
    change x.depth Rule.eats Rule.rank + 100 * c.rest.length ≤ fuel
    rw [matchFuel] at hfuel
    omega
  refine ⟨_, fun he => ?_, fun fuel hfuel =>
    Grammar.run_unique (hfound fuel hfuel) (hfound _ (Nat.le_refl _))⟩
  exact hfound _ (Nat.le_refl _) (by rw [he]; rfl)

/-- **Recognition always ends**, at any place of any text and for any expression of the grammar.

Every fuel from `matchFuel` on gives the same verdict. The steps of the repetitions take characters,
those of the layout too, which the expression for it takes to its end. Attempts nested in each other
are no more than that fuel, and no more than forty at one place. So the recogniser does not run out
of its fuel. -/
theorem recogniser_ends (text : List Char) (n : Nat) (c : Cursor)
    (hc : c = (Cursor.start text).advance n) :
    (∀ x, InGrammar x → ∀ m f, ∃ v, v ≠ .exhausted ∧
      ∀ fuel ≥ matchFuel (text.length - n), grammar.run fuel m x c f = v) ∧
    (∀ x, InGrammar (.many x) → ∀ a d e, grammar.Reaches a x d e →
      d.offset < e.offset ∧ e.rest.length < d.rest.length) ∧
    grammar.Parses true Layout.skipped c (some (grammar.afterLayout false c, [])) ∧
    (∀ x, InGrammar x → ∀ a qs, (⟨a, x, c⟩ :: qs).IsChain grammar.Nests →
      qs.length + 1 ≤ matchFuel (text.length - n) ∧
      ((∀ q ∈ qs, q.place.offset = c.offset) → qs.length + 1 ≤ 40)) ∧
    recognise text ≠ .exhausted := by
  have hlength : c.rest.length = text.length - n := by
    rw [hc]
    exact List.length_drop
  rw [← hlength]
  refine ⟨fun x hx m f => exists_run_eq hx m c f, fun x hx a d e h => ?_,
    Layout.parses_skipped c, fun x hx a qs hqs => ?_, ?_⟩
  · exact ranking.step_of_mem_parts hx.tame List.mem_cons_self h
  · obtain ⟨hweight, hdepth⟩ := ranking.length_of_isChain (p := ⟨a, x, c⟩) hx.tame hqs
    have hx := hx.depth_le
    refine ⟨?_, fun ho => Nat.le_trans (hdepth ho) hx⟩
    change qs.length < x.depth Rule.eats Rule.rank + 100 * c.rest.length at hweight
    rw [matchFuel]
    omega
  · obtain ⟨v, hv, hrun⟩ := exists_run_eq (.inl ⟨.program, .inl rfl⟩) .initial (.start text) .initial
    rw [recognise, hrun (matchFuel text.length) (Nat.le_refl _)]
    exact hv

/-- Six levels of operators are nested at one place, and a bracket is followed by all of them again,
though the text is none of the language. -/
theorem recogniser_ends_unclosed :
    let c : Cursor := ⟨1, ['(']⟩
    let levels (c : Cursor) : List (Attempt Rule) :=
      [.disjunction, .conjunction, .equality, .relation, .sum, .product].map (⟨false, .rule ·, c⟩)
    (levels c ++ levels ⟨2, []⟩).IsChain grammar.Nests ∧
      (levels c ++ levels ⟨2, []⟩).length ≤ matchFuel (2 - 1) ∧ (levels c).length ≤ 40 ∧
      grammar.Reaches true Layout.blank (.start [' ', '(']) c ∧ (0 < 1 ∧ 1 < 2) ∧
      (∃ v, v ≠ .exhausted ∧ ∀ fuel ≥ matchFuel (2 - 1),
        grammar.run fuel .initial (.rule .disjunction) c .initial = v) ∧
      recognise [' ', '('] ≠ .exhausted := by
  intro c levels
  have hlevels (c : Cursor) : (levels c).IsChain grammar.Nests :=
    .cons_cons (Grammar.nests_of_body rfl) (.cons_cons (Grammar.nests_of_body rfl)
      (.cons_cons (Grammar.nests_of_body rfl) (.cons_cons (Grammar.nests_of_body rfl)
        (.cons_cons (Grammar.nests_of_body rfl) (.singleton _)))))
  have hnone (r : Rule) (h : (grammar.run 50 .initial (.rule r) c .initial).found? = some none) :
      grammar.Parses false (.rule r) c none := Grammar.parses_of_run (m := .initial) h
  have hopen : grammar.Nests ⟨false, .rule .product, c⟩ ⟨false, .rule .disjunction, ⟨2, []⟩⟩ :=
    .trans (Grammar.nests_of_body rfl) (.head (.altRight (hnone .call rfl))
      (.head (.altRight (hnone .literal rfl)) (.head (.altRight (hnone .identifier rfl))
        (.head (.seqRight ⟨[], .text rfl⟩) (.single .seqLeft)))))
  have hall : (levels c ++ levels ⟨2, []⟩).IsChain grammar.Nests :=
    List.isChain_append.2 ⟨hlevels c, hlevels _, by rintro _ ⟨⟩ _ ⟨⟩; exact hopen⟩
  have hblank : grammar.Reaches true Layout.blank (.start [' ', '(']) c :=
    ⟨[], .altLeft (.text rfl)⟩
  have hrule : InGrammar (.rule .disjunction) := .inl ⟨_, .inl rfl⟩
  obtain ⟨hrun, hstep, -, hchain, hend⟩ := recogniser_ends [' ', '('] 1 c rfl
  exact ⟨hall, (hchain _ hrule _ _ hall).1, (hchain _ hrule _ _ (hlevels c)).2 (by simp), hblank,
    hstep _ (.inr (by simp [Layout.skipped, Peg.parts])) _ _ _ hblank, hrun _ hrule _ _, hend⟩

end IntScript
