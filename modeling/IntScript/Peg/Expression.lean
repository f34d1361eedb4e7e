/-!
# Parsing expressions

A grammar over the rules `R` gives each rule a parsing expression. Choices are ordered, repetition
takes all it can get, and between the parts of a sequence and of a repetition the layout of the
text is skipped, unless an atomic rule is being matched.

* `Peg R` : parsing expressions;
* `Peg.string`, `Peg.chain`, `Peg.choice`, `Peg.chainl`, `Peg.commaList` : derived forms;
* `Grammar R` : the expression of each rule, which rules are atomic, and what is layout.
-/

namespace IntScript

/-- A parsing expression over the rules `R`. -/
inductive Peg (R : Type) where
  /-- These characters, one after the other. -/
  | text (s : List Char)
  /-- One character of a class. -/
  | char (p : Char → Bool)
  /-- The beginning of the text. -/
  | start
  /-- The end of the text. -/
  | stop
  /-- What the rule `r` stands for. -/
  | rule (r : R)
  | seq (a b : Peg R)
  /-- The first alternative, or else the second. -/
  | alt (a b : Peg R)
  | opt (a : Peg R)
  | many (a : Peg R)
  /-- Looks ahead for `a` and takes nothing. -/
  | peek (a : Peg R)
  /-- Looks ahead for the absence of `a` and takes nothing. -/
  | deny (a : Peg R)

namespace Peg

variable {R : Type}

/-- The characters of a string. -/
def string (s : String) : Peg R := .text s.toList

/-- All of the expressions, one after the other. -/
def chain : List (Peg R) → Peg R
  | [] => .text []
  | [a] => a
  | a :: b :: rest => .seq a (chain (b :: rest))

/-- The first of the expressions that matches. -/
def choice : List (Peg R) → Peg R
  | [] => .deny (.text [])
  | [a] => a
  | a :: b :: rest => .alt a (choice (b :: rest))

/-- Operands with operators between them. -/
def chainl (operand operator : R) : Peg R :=
  .seq (.rule operand) (.many (.seq (.rule operator) (.rule operand)))

/-- Any number of `a`, commas between them. -/
def commaList (a : Peg R) : Peg R := .opt (.seq a (.many (.seq (.string ",") a)))

end Peg

/-- A grammar over the rules `R`. -/
structure Grammar (R : Type) where
  /-- What a rule stands for. -/
  body : R → Peg R
  /-- Inside an atomic rule no layout is skipped, and it has no parts. -/
  atomic : R → Bool
  /-- The number of characters of layout at the beginning of a text. -/
  layout : List Char → Nat

end IntScript
