import IntScript.Layout
import IntScript.Name
import IntScript.Op
import IntScript.Peg.Expression

/-!
# The grammar

* `Rule` : the rules, `Rule.all` in the order in which messages list them, `Rule.label` as messages
  name them;
* `Rule.body` : what each of them stands for;
* `grammar` : the grammar of programs.

Statements follow each other without separators. The operators come in six levels, each of which
associates to the left. The name of a called function touches the bracket behind it, and the sign
of a literal its digits.
-/

namespace IntScript

/-- A rule of the grammar. -/
inductive Rule where
  | endOfInput
  | program
  | block
  | function
  | params
  | variable
  | loop
  | conditional
  | ret
  | assignment
  | disjunction
  | conjunction
  | equality
  | relation
  | sum
  | product
  | call
  | callee
  | args
  | orOp
  | andOp
  | eqOp
  | relOp
  | addOp
  | mulOp
  | literal
  | identifier
  | keyword
  | funWord
  | varWord
  | returnWord
deriving DecidableEq, Repr

namespace Rule

/-- Every rule, once, in the order in which messages list them. -/
def all : List Rule :=
  [.endOfInput, .program, .block, .function, .params, .variable, .loop, .conditional, .ret,
    .assignment, .disjunction, .conjunction, .equality, .relation, .sum, .product, .call, .callee,
    .args, .orOp, .andOp, .eqOp, .relOp, .addOp, .mulOp, .literal, .identifier, .keyword, .funWord,
    .varWord, .returnWord]

theorem mem_all (r : Rule) : r ∈ all := by cases r <;> decide

/-- How messages name the rule. -/
def label : Rule → String
  | .endOfInput => "EOI"
  | .program => "program"
  | .block => "block"
  | .function => "function"
  | .params => "parameter_names"
  | .variable => "variable"
  | .loop => "while_loop"
  | .conditional => "if_cond"
  | .ret => "return_expr"
  | .assignment => "assignment"
  | .disjunction => "disjunction"
  | .conjunction => "conjunction"
  | .equality => "equality"
  | .relation => "relation"
  | .sum => "additive"
  | .product => "multiplicative"
  | .call => "function_call"
  | .callee => "callee"
  | .args => "arguments"
  | .orOp => "or_op"
  | .andOp => "and_op"
  | .eqOp => "eq_op"
  | .relOp => "rel_op"
  | .addOp => "add_op"
  | .mulOp => "mul_op"
  | .literal => "literal"
  | .identifier => "identifier"
  | .keyword => "keyword"
  | .funWord => "kw_fun"
  | .varWord => "kw_var"
  | .returnWord => "kw_return"

/-- Layout counts inside a rule unless it is a single word, literal, or name with its bracket. -/
def atomic : Rule → Bool
  | .callee | .literal | .identifier | .keyword | .funWord | .varWord | .returnWord => true
  | _ => false

end Rule

open Peg

/-! ## Parts that are no rules of their own -/

/-- An expression is a chain of the loosest operators. -/
def expression : Peg Rule := .rule .disjunction

/-- A bracketed expression. -/
def bracketed : Peg Rule := chain [string "(", expression, string ")"]

/-- A body between braces. -/
def bracedBlock : Peg Rule := chain [.text ['{'], .rule .block, .text ['}']]

/-- An operand of the tightest operators. -/
def operand : Peg Rule := choice [.rule .call, .rule .literal, .rule .identifier, bracketed]

/-- A statement. -/
def statement : Peg Rule :=
  choice [.rule .function, .rule .variable, .rule .loop, .rule .conditional, .rule .ret,
    .rule .assignment, expression]

/-- One of the operators, the first that fits. -/
def operators (ops : List Op) : Peg Rule := choice (ops.map fun op => string op.symbol)

/-- A keyword that no further name character follows. -/
def wholeWord (s : String) : Peg Rule := chain [string s, .deny (.char isNameChar)]

/-! ## Rules -/

/-- What each rule stands for. -/
def Rule.body : Rule → Peg Rule
  | .endOfInput => .stop
  | .program => chain [.start, .rule .block, .rule .endOfInput]
  | .block => .many statement
  | .function =>
    chain [.peek (.rule .funWord), string "fun", .rule .identifier, string "(", .rule .params,
      string ")", bracedBlock]
  | .params => commaList (.rule .identifier)
  | .variable =>
    chain [.peek (.rule .varWord), string "var", .rule .identifier,
      .opt (chain [string "=", expression])]
  | .loop => chain [string "while", bracketed, bracedBlock]
  | .conditional =>
    chain [string "if", bracketed, bracedBlock,
      .opt (chain [string "else", bracedBlock])]
  | .ret => chain [.peek (.rule .returnWord), string "return", expression]
  | .assignment => chain [.rule .identifier, string "=", .deny (string "="), expression]
  | .disjunction => chainl .conjunction .orOp
  | .conjunction => chainl .equality .andOp
  | .equality => chainl .relation .eqOp
  | .relation => chainl .sum .relOp
  | .sum => chainl .product .addOp
  | .product => .seq operand (.many (.seq (.rule .mulOp) operand))
  | .call =>
    chain [.peek (.rule .callee), .rule .identifier, string "(", .rule .args, string ")"]
  | .callee => chain [.rule .identifier, string "("]
  | .args => commaList expression
  | .orOp => operators [.or]
  | .andOp => operators [.and]
  | .eqOp => operators [.eq, .ne]
  | .relOp => operators [.le, .ge, .lt, .gt]
  | .addOp => operators [.add, .sub]
  | .mulOp => operators [.mul, .div, .mod]
  | .literal => chain [.opt (string "-"), .char Char.isDigit, .many (.char Char.isDigit)]
  | .identifier => chain [.deny (.rule .keyword), .char isNameStart, .many (.char isNameChar)]
  | .keyword => chain [choice (keywords.map string), .deny (.char isNameChar)]
  | .funWord => wholeWord "fun"
  | .varWord => wholeWord "var"
  | .returnWord => wholeWord "return"

/-- The grammar of programs. -/
def grammar : Grammar Rule := ⟨Rule.body, Rule.atomic, Layout.length⟩

end IntScript
