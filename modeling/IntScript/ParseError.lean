import IntScript.Grammar
import IntScript.Place

/-!
# Why a text is no program

* `SyntaxError` : where the grammar is left, and what was expected there;
* `ParseError` : a syntax error, or a literal that does not fit into 64 bits;
* `ParseError.syntaxErrors` : the syntax errors among an error;
* `SyntaxError.detail`, `SyntaxError.message`, `ParseError.message` : their wording.
-/

namespace IntScript

/-- The furthest place to which a text follows the grammar, and the rules tried there. -/
structure SyntaxError where
  /-- The number of characters before the place. -/
  offset : Nat
  place : Place
  /-- The rules that could have gone on, in the order of `Rule.all`. -/
  expected : List Rule
  /-- The rules that must not stand there. -/
  unexpected : List Rule
deriving DecidableEq

/-- Why a text is no program. -/
inductive ParseError where
  | badSyntax (e : SyntaxError)
  /-- A literal, as it is written, that does not fit into 64 bits. -/
  | invalidLiteral (text : List Char)
  /-- A match that is none of the grammar's. -/
  | badGrammar
deriving DecidableEq

/-- The end of a list of words, as in `b, or c`. -/
def enumerateEnd : List String → String
  | [] => ""
  | [a] => "or " ++ a
  | a :: rest => a ++ ", " ++ enumerateEnd rest

/-- Words in a list, as in `a`, `a or b`, and `a, b, or c`. -/
def enumerate : List String → String
  | [] => ""
  | [a] => a
  | [a, b] => a ++ " or " ++ b
  | a :: rest => a ++ ", " ++ enumerateEnd rest

/-- What was expected and what was not. -/
def SyntaxError.detail (e : SyntaxError) : String :=
  let expected := enumerate (e.expected.map Rule.label)
  let unexpected := enumerate (e.unexpected.map Rule.label)
  match e.unexpected, e.expected with
  | _ :: _, _ :: _ => "unexpected " ++ unexpected ++ "; expected " ++ expected
  | _ :: _, [] => "unexpected " ++ unexpected
  | [], _ :: _ => "expected " ++ expected
  | [], [] => "unknown parsing error"

/-- The line and the detail of a syntax error. -/
def SyntaxError.message (e : SyntaxError) : String :=
  "Syntax error at line " ++ toString e.place.line ++ ". Message: " ++ e.detail

/-- The wording of an error. -/
def ParseError.message : ParseError → String
  | .badSyntax e => e.message
  | .invalidLiteral text =>
    "Integer literal " ++ String.ofList text ++ " does not fit into 64 bits"
  | .badGrammar => "Critical Error in Language Grammar"

end IntScript
