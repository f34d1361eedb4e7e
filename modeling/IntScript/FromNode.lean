import IntScript.Decimal
import IntScript.ParseError
import IntScript.Peg.Cursor
import IntScript.Tree

/-!
# From matched text to trees

* `Expr.ofNode`, `Stmt.ofNode`, `Block.ofNodes` : the tree of what a rule has matched.

Chains of operators of one level are folded to the left. A literal that does not fit is the only
error that a match of the grammar can lead to; of several, the first in the text is reported.
-/

namespace IntScript

/-- The matched characters as a name. -/
def Node.name (n : Node Rule) : String := String.ofList n.text

/-- The value of a literal. -/
def literalValue (text : List Char) : Except ParseError Int64 :=
  match Decimal.toInt64? text with
  | some v => .ok v
  | none => .error (.invalidLiteral text)

/-- The operator that was matched. -/
def Op.ofNode (n : Node Rule) : Except ParseError Op :=
  match Op.ofSymbol? n.name with
  | some op => .ok op
  | none => .error .badGrammar

/-- The rules whose matches are chains of operators of one level. -/
def Rule.isLevel : Rule → Bool
  | .disjunction | .conjunction | .equality | .relation | .sum | .product => true
  | _ => false

mutual

/-- The expression that was matched. -/
def Expr.ofNode : Node Rule → Except ParseError Expr
  | .mk .identifier c d _ => .ok (.ident (String.ofList (c.upTo d)))
  | .mk .literal c d _ => do .ok (.lit (← literalValue (c.upTo d)))
  | .mk .call _ _ [callee, .mk _ _ _ args] => do .ok (.call callee.name (← Expr.ofNodes args))
  | .mk level _ _ (first :: rest) =>
    if level.isLevel then do Expr.ofChain (← Expr.ofNode first) rest else .error .badGrammar
  | _ => .error .badGrammar

/-- The expressions that were matched, in their order. -/
def Expr.ofNodes : List (Node Rule) → Except ParseError (List Expr)
  | [] => .ok []
  | n :: ns => do .ok ((← Expr.ofNode n) :: (← Expr.ofNodes ns))

/-- Goes on from a left operand with operators and their right operands. -/
def Expr.ofChain (left : Expr) : List (Node Rule) → Except ParseError Expr
  | [] => .ok left
  | [_] => .error .badGrammar
  | op :: right :: rest => do
    Expr.ofChain (.bin (← Op.ofNode op) left (← Expr.ofNode right)) rest

end

mutual

/-- The statement that was matched. -/
def Stmt.ofNode : Node Rule → Except ParseError Stmt
  | .mk .function _ _ [name, params, .mk _ _ _ body] => do
    .ok (.function name.name (params.parts.map Node.name) (← Block.ofNodes body))
  | .mk .variable _ _ [name] => .ok (.var name.name none)
  | .mk .variable _ _ [name, init] => do .ok (.var name.name (some (← Expr.ofNode init)))
  | .mk .assignment _ _ [name, value] => do .ok (.assign name.name (← Expr.ofNode value))
  | .mk .loop _ _ [cond, .mk _ _ _ body] => do
    .ok (.loop (← Expr.ofNode cond) (← Block.ofNodes body))
  | .mk .conditional _ _ [cond, .mk _ _ _ thenBody] => do
    .ok (.ifThen (← Expr.ofNode cond) (← Block.ofNodes thenBody))
  | .mk .conditional _ _ [cond, .mk _ _ _ thenBody, .mk _ _ _ elseBody] => do
    .ok (.ifElse (← Expr.ofNode cond) (← Block.ofNodes thenBody) (← Block.ofNodes elseBody))
  | .mk .ret _ _ [value] => do .ok (.ret (← Expr.ofNode value))
  | n => do .ok (.expr (← Expr.ofNode n))

/-- The statements that were matched, in their order. -/
def Block.ofNodes : List (Node Rule) → Except ParseError Block
  | [] => .ok []
  | n :: ns => do .ok ((← Stmt.ofNode n) :: (← Block.ofNodes ns))

end

end IntScript
