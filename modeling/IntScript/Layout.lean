/-!
# Layout

Blanks, tabs, line breaks and comments separate what a program consists of and mean nothing else.
A comment begins with two slashes and ends before the next line break or with the text.

* `isLineBreak`, `isBlank` : the characters that can end a comment, and the blank ones;
* `Layout.length` : how many characters of layout a text begins with.
-/

namespace IntScript

/-- The characters that end a line. -/
def isLineBreak (c : Char) : Bool := c = '\n' || c = '\r'

/-- The blank characters. -/
def isBlank (c : Char) : Bool := c = ' ' || c = '\t' || isLineBreak c

namespace Layout

/-- Adds to `n` the number of characters of layout at the beginning of a text; `inComment` says
whether the text goes on with a comment. -/
def lengthFrom (inComment : Bool) (n : Nat) : List Char → Nat
  | [] => n
  | c :: rest =>
    if inComment then lengthFrom (!isLineBreak c) (n + 1) rest
    else if isBlank c then lengthFrom false (n + 1) rest
    else if c = '/' ∧ rest.head? = some '/' then lengthFrom true (n + 1) rest
    else n

/-- The number of characters of layout at the beginning of a text. -/
def length (text : List Char) : Nat := lengthFrom false 0 text

end Layout

end IntScript
