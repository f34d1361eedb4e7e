/-!
# Lines and columns

* `Place` : a line and a column, both counted from one;
* `Place.ofOffset` : the place of a character of a text.

Only a line feed begins a new line; every other character takes one column.
-/

namespace IntScript

/-- A line and a column of a text. -/
structure Place where
  line : Nat
  column : Nat
deriving DecidableEq, Repr

/-- The place that `offset` characters of the text lie before. -/
def Place.ofOffset (text : List Char) (offset : Nat) : Place :=
  let before := text.take offset
  ⟨before.count '\n' + 1, (before.reverse.takeWhile (· ≠ '\n')).length + 1⟩

end IntScript
