import IntScript.Decimal
import IntScript.Tree

/-!
# Programs as text

Every operation is bracketed, a negative literal too; the statements of a braced body stand on
lines of their own, four blanks further in than the line of its opening brace.

* `Expr.text`, `Stmt.text`, `Block.text` : the characters of a tree, statements and blocks at a
  given nesting depth;
* `Expr.render`, `Stmt.render`, `Block.render` : the same as strings, at depth zero.

A statement ends without a line break, a block ends with the line break of its last statement.
-/

namespace IntScript

mutual

/-- The characters of an expression. -/
def Expr.text : Expr → List Char
  | .ident x => x.toList
  | .lit v =>
    if v < 0 then '(' :: Decimal.ofInt v.toInt ++ [')'] else Decimal.ofInt v.toInt
  | .bin op l r => '(' :: l.text ++ ' ' :: op.symbol.toList ++ ' ' :: r.text ++ [')']
  | .call f args => f.toList ++ '(' :: Expr.listText args ++ [')']

/-- Arguments, a comma and a blank between them. -/
def Expr.listText : List Expr → List Char
  | [] => []
  | [e] => e.text
  | e :: e' :: es => e.text ++ ',' :: ' ' :: Expr.listText (e' :: es)

end

/-- Parameters, a comma and a blank between them. -/
def paramsText : List String → List Char
  | [] => []
  | [p] => p.toList
  | p :: p' :: ps => p.toList ++ ',' :: ' ' :: paramsText (p' :: ps)

/-- Four blanks for each level of nesting. -/
def indent (depth : Nat) : List Char := List.replicate (4 * depth) ' '

/-- A body between braces; `body` is its text one level further in. -/
def braced (depth : Nat) (body : List Char) : List Char :=
  '{' :: '\n' :: body ++ indent depth ++ ['}']

mutual

/-- The characters of a statement whose first line is already indented to `depth`. -/
def Stmt.text : Stmt → Nat → List Char
  | .function f ps body, depth =>
    "fun ".toList ++ f.toList ++ '(' :: paramsText ps ++ ')' :: ' ' ::
      braced depth (Block.text body (depth + 1))
  | .var x (some e), _ => "var ".toList ++ x.toList ++ " = ".toList ++ e.text
  | .var x none, _ => "var ".toList ++ x.toList
  | .assign x e, _ => x.toList ++ " = ".toList ++ e.text
  | .loop c body, depth =>
    "while (".toList ++ c.text ++ ')' :: ' ' :: braced depth (Block.text body (depth + 1))
  | .ifThen c a, depth =>
    "if (".toList ++ c.text ++ ')' :: ' ' :: braced depth (Block.text a (depth + 1))
  | .ifElse c a b, depth =>
    "if (".toList ++ c.text ++ ')' :: ' ' :: braced depth (Block.text a (depth + 1)) ++
      " else ".toList ++ braced depth (Block.text b (depth + 1))
  | .ret e, _ => "return ".toList ++ e.text
  | .expr e, _ => e.text

/-- The characters of a block: each statement on its own line, indented to `depth`. -/
def Block.text : List Stmt → Nat → List Char
  | [], _ => []
  | s :: rest, depth => indent depth ++ s.text depth ++ '\n' :: Block.text rest depth

end

/-- The expression as a string. -/
def Expr.render (e : Expr) : String := String.ofList e.text

/-- The statement as a string, at depth zero and without a line break at its end. -/
def Stmt.render (s : Stmt) : String := String.ofList (s.text 0)

/-- The block as a string, at depth zero. -/
def Block.render (b : Block) : String := String.ofList (Block.text b 0)

/-- A block's text is that of its statements, one after the other. -/
theorem Block.text_append (a b : List Stmt) (depth : Nat) :
    Block.text (a ++ b) depth = Block.text a depth ++ Block.text b depth := by
  induction a with
  | nil => rfl
  | cons s a ih => simp [Block.text, ih]

end IntScript
