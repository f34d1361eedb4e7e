import IntScript.Proofs.Acceptance
import IntScript.Proofs.Rendering

/-!
# Rendered programs parse back

* `Block.lexemes_render` : the text of a block is cut into its lexemes;
* `parse_render` : a block comes back from its text, if its names can be written as names.
-/

namespace IntScript

/-- The text of a block is cut into its lexemes. -/
theorem Block.lexemes_render {b : Block} (h : Block.WellNamed b) :
    IntScript.lexemes (Block.render b).toList = Block.lexemes b := by
  have ht := Block.lexemes_text b h 0 []
  rwa [List.append_nil, lexemes_nil, List.append_nil, ← String.toList_ofList (l := Block.text b 0)]
    at ht

/-- **Round trip**: the text of a block is parsed as that block. -/
theorem parse_render {b : Block} (h : Block.WellNamed b) : parse (Block.render b) = .ok b := by
  refine parseText_of_reads ?_
  rw [Block.lexemes_render h]
  exact Block.reads_lexemes b h

/-- A name, then a bracketed literal, then a bracketed operation: none goes on with the next. -/
theorem parse_render_adjacent :
    let b : Block := [.expr (.ident "funny"), .expr (.lit Int64.minValue),
      .var "_x" none, .expr (.bin .sub (.call "f" []) (.lit (-1))), .ifElse (.ident "a") [] []]
    Block.WellNamed b ∧ parse (Block.render b) = .ok b := by
  intro b
  have h : Block.WellNamed b := by
    simp only [b, Block.WellNamed, Stmt.WellNamed, Expr.WellNamed, Expr.ListWellNamed, and_true,
      true_and]
    decide
  exact ⟨h, parse_render h⟩

end IntScript
