/-!
# Names

* `isNameStart`, `isNameChar` : the characters of a word;
* `isWord` : a letter or underscore, then letters, digits and underscores, all ASCII;
* `keywords` : the words with a meaning of their own;
* `IsName` : the words that can name a variable or a function.
-/

namespace IntScript

/-- A word begins with an ASCII letter or an underscore. -/
def isNameStart (c : Char) : Bool := c.isAlpha || c = '_'

/-- A word goes on with ASCII letters, ASCII digits and underscores. -/
def isNameChar (c : Char) : Bool := c.isAlphanum || c = '_'

theorem isNameChar_of_isNameStart {c : Char} (h : isNameStart c = true) : isNameChar c = true := by
  simp only [isNameStart, isNameChar, Char.isAlphanum, Bool.or_eq_true] at h ⊢
  exact h.imp_left Or.inl

/-- Whether the text is one whole word. -/
def isWord : List Char → Bool
  | [] => false
  | c :: cs => isNameStart c && cs.all isNameChar

/-- The words that are no names. -/
def keywords : List String := ["fun", "var", "while", "if", "else", "return"]

/-- The string can be written where a name is expected. -/
def IsName (s : String) : Prop := isWord s.toList = true ∧ s ∉ keywords

instance (s : String) : Decidable (IsName s) := inferInstanceAs (Decidable (_ ∧ _))

end IntScript
