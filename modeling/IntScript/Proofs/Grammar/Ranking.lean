import IntScript.Parse
import IntScript.Proofs.Peg.Fuel

/-!
# The recogniser comes to an end

* `ranking` : how deep the rules of the grammar are nested at one place;
* `exists_found_recognise` : the recogniser ends on every text, with what the grammar says.
-/

namespace IntScript

/-- Whether every match of the rule takes a character. -/
def Rule.eats : Rule → Bool
  | .endOfInput | .program | .block | .params | .args => false
  | _ => true

/-- How many expressions can be nested in the rule before a character is taken. -/
def Rule.rank : Rule → Nat
  | .endOfInput | .orOp | .andOp => 1
  | .program => 39
  | .block => 36
  | .function | .variable | .ret => 5
  | .params => 13
  | .loop | .conditional | .eqOp | .addOp | .funWord | .varWord | .returnWord => 2
  | .assignment | .callee => 12
  | .disjunction => 28
  | .conjunction => 26
  | .equality => 24
  | .relation => 22
  | .sum => 20
  | .product => 18
  | .call => 15
  | .args => 31
  | .mulOp | .literal => 3
  | .relOp => 4
  | .identifier => 10
  | .keyword => 7

/-- No rule calls itself at one place, and no repetition goes on without taking a character. -/
def ranking : grammar.Ranking where
  eats := Rule.eats
  rank := Rule.rank
  width := 100
  body_eats r := by cases r <;> decide
  depth_body r := by cases r <;> decide
  tame_body r := by cases r <;> decide

/-- The recogniser ends on every text, with what the rule for programs finds there. -/
theorem exists_found_recognise (text : List Char) :
    ∃ o, (recognise text).found? = some o ∧
      grammar.Parses false (.rule .program) (.start text) o := by
  have h : (recognise text).found? ≠ none := by
    refine ranking.found_run rfl ?_
    change Rule.program.rank + 1 + 100 * text.length ≤ 100 * (text.length + 1)
    rw [Rule.rank]
    omega
  obtain ⟨o, ho⟩ := Option.ne_none_iff_exists'.1 h
  exact ⟨o, ho, Grammar.parses_of_run (m := .initial) ho⟩

end IntScript
