/-!
# Places in a text

* `Cursor` : a place, given by the number of characters before it and the characters after it;
* `Cursor.advance`, `Cursor.pass?`, `Cursor.passIf?` : the places behind some characters;
* `Cursor.upTo` : the characters between two places;
* `Node R` : a matched stretch of text with the rule that matched it and its parts.
-/

namespace IntScript

/-- A place in a text. -/
structure Cursor where
  /-- The number of characters before the place. -/
  offset : Nat
  /-- The characters after the place. -/
  rest : List Char

namespace Cursor

/-- The beginning of a text. -/
def start (text : List Char) : Cursor := ⟨0, text⟩

/-- The place `n` characters further on. -/
def advance (c : Cursor) (n : Nat) : Cursor := ⟨c.offset + n, c.rest.drop n⟩

/-- The place behind `s`, where the text goes on with `s`. -/
def pass? (c : Cursor) (s : List Char) : Option Cursor :=
  if s.isPrefixOf c.rest then some (c.advance s.length) else none

/-- The place behind one character of a class, where the text goes on with such a one. -/
def passIf? (c : Cursor) (p : Char → Bool) : Option Cursor :=
  match c.rest with
  | [] => none
  | x :: _ => if p x then some (c.advance 1) else none

/-- The characters between two places of one text. -/
def upTo (c d : Cursor) : List Char := c.rest.take (d.offset - c.offset)

end Cursor

/-- A stretch of text, the rule that matched it, and the parts that it consists of. -/
inductive Node (R : Type) where
  | mk (rule : R) (first last : Cursor) (parts : List (Node R))

namespace Node

variable {R : Type}

/-- The rule that matched. -/
def rule : Node R → R
  | .mk r _ _ _ => r

/-- The matched characters. -/
def text : Node R → List Char
  | .mk _ c d _ => c.upTo d

/-- The parts in the order of the text. -/
def parts : Node R → List (Node R)
  | .mk _ _ _ ps => ps

end Node

end IntScript
