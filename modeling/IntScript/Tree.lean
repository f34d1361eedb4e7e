import IntScript.Op

/-!
# Programs as trees

* `Expr` : names, literals, binary operations and calls;
* `Stmt` : the statements, `Block` : statements in the order of execution;
* `Expr.same`, `Stmt.same` : equality of trees as a test (`Expr.same_iff`, `Stmt.same_iff`), from
  which equality is decidable.

Names are arbitrary strings here: which of them can be written down is a matter of the grammar.
-/

namespace IntScript

/-- An expression. -/
inductive Expr where
  /-- The value of a variable. -/
  | ident (name : String)
  | lit (value : Int64)
  | bin (op : Op) (left right : Expr)
  | call (callee : String) (args : List Expr)

/-- A statement. -/
inductive Stmt where
  /-- Declares a function. -/
  | function (name : String) (params : List String) (body : List Stmt)
  /-- Binds a variable; without an initialiser, to zero. -/
  | var (name : String) (init : Option Expr)
  /-- Changes a variable that is bound. -/
  | assign (name : String) (value : Expr)
  /-- Runs the body as long as the condition holds. -/
  | loop (cond : Expr) (body : List Stmt)
  | ifThen (cond : Expr) (thenBody : List Stmt)
  | ifElse (cond : Expr) (thenBody elseBody : List Stmt)
  /-- Sets the terminal value of the activation. -/
  | ret (value : Expr)
  /-- Evaluates an expression for its effects. -/
  | expr (value : Expr)

/-- Statements, executed front to back. -/
abbrev Block := List Stmt

/-! ## Equality -/

mutual

/-- Whether two expressions are equal. -/
def Expr.same : Expr → Expr → Bool
  | .ident x, .ident y => x = y
  | .lit v, .lit w => v = w
  | .bin o a b, .bin p c d => o = p && a.same c && b.same d
  | .call f as, .call g bs => f = g && Expr.sameList as bs
  | _, _ => false

/-- Whether two argument lists are equal. -/
def Expr.sameList : List Expr → List Expr → Bool
  | [], [] => true
  | a :: as, b :: bs => a.same b && Expr.sameList as bs
  | _, _ => false

end

mutual

theorem Expr.same_iff : ∀ a b : Expr, a.same b = true ↔ a = b
  | .ident _, b => by cases b <;> simp [Expr.same]
  | .lit _, b => by cases b <;> simp [Expr.same]
  | .bin _ l r, b => by
    cases b <;> simp [Expr.same, Expr.same_iff l, Expr.same_iff r, and_assoc]
  | .call _ as, b => by cases b <;> simp [Expr.same, Expr.sameList_iff as]

theorem Expr.sameList_iff : ∀ as bs : List Expr, Expr.sameList as bs = true ↔ as = bs
  | [], bs => by cases bs <;> simp [Expr.sameList]
  | a :: as, bs => by
    cases bs <;> simp [Expr.sameList, Expr.same_iff a, Expr.sameList_iff as]

end

instance : DecidableEq Expr := fun a b => decidable_of_iff _ (Expr.same_iff a b)

mutual

/-- Whether two statements are equal. -/
def Stmt.same : Stmt → Stmt → Bool
  | .function f ps a, .function g qs b => f = g && ps = qs && Block.same a b
  | .var x e, .var y d => x = y && e = d
  | .assign x e, .assign y d => x = y && e = d
  | .loop c a, .loop d b => c = d && Block.same a b
  | .ifThen c a, .ifThen d b => c = d && Block.same a b
  | .ifElse c a a', .ifElse d b b' => c = d && Block.same a b && Block.same a' b'
  | .ret e, .ret d => e = d
  | .expr e, .expr d => e = d
  | _, _ => false

/-- Whether two blocks are equal. -/
def Block.same : List Stmt → List Stmt → Bool
  | [], [] => true
  | s :: a, t :: b => s.same t && Block.same a b
  | _, _ => false

end

mutual

theorem Stmt.same_iff : ∀ s t : Stmt, s.same t = true ↔ s = t
  | .function _ _ a, t => by cases t <;> simp [Stmt.same, Block.same_iff a, and_assoc]
  | .var _ _, t => by cases t <;> simp [Stmt.same]
  | .assign _ _, t => by cases t <;> simp [Stmt.same]
  | .loop _ a, t => by cases t <;> simp [Stmt.same, Block.same_iff a]
  | .ifThen _ a, t => by cases t <;> simp [Stmt.same, Block.same_iff a]
  | .ifElse _ a a', t => by
    cases t <;> simp [Stmt.same, Block.same_iff a, Block.same_iff a', and_assoc]
  | .ret _, t => by cases t <;> simp [Stmt.same]
  | .expr _, t => by cases t <;> simp [Stmt.same]

theorem Block.same_iff : ∀ a b : List Stmt, Block.same a b = true ↔ a = b
  | [], b => by cases b <;> simp [Block.same]
  | s :: a, b => by cases b <;> simp [Block.same, Stmt.same_iff s, Block.same_iff a]

end

instance : DecidableEq Stmt := fun s t => decidable_of_iff _ (Stmt.same_iff s t)

end IntScript
