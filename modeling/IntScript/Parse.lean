import IntScript.FromNode
import IntScript.Peg.Match

/-!
# Reading programs

* `recognise` : matches a whole text with the rule for programs;
* `syntaxError` : the error that the furthest failure of a text amounts to;
* `parseText`, `parse` : the block of a text, or why it is none.

A text outside the grammar gives a syntax error whatever literals it contains.
-/

namespace IntScript

/-- Nested expressions and steps of a repetition that a text of `length` characters can ask for. -/
def matchFuel (length : Nat) : Nat := 100 * (length + 1)

/-- Matches a text with the rule for programs. -/
def recognise (text : List Char) : Verdict Rule :=
  grammar.run (matchFuel text.length) Mode.initial (.rule .program) (.start text) Furthest.initial

/-- The error that says where and why matching `text` failed. -/
def syntaxError (text : List Char) (f : Furthest Rule) : SyntaxError where
  offset := f.offset
  place := Place.ofOffset text f.offset
  expected := Rule.all.filter (· ∈ f.expected)
  unexpected := Rule.all.filter (· ∈ f.unexpected)

/-- The block that a text is, or why it is none. -/
def parseText (text : List Char) : Except ParseError Block :=
  match recognise text with
  | .matched _ [.mk _ _ _ (.mk _ _ _ statements :: _)] _ => Block.ofNodes statements
  | .failed f => .error (.badSyntax (syntaxError text f))
  | _ => .error .badGrammar

/-- The block that a text is, or why it is none. -/
def parse (text : String) : Except ParseError Block := parseText text.toList

end IntScript
