import IntScript.Exec

/-!
# Evaluation

* `evalExpr` : the value of an expression, operands and arguments from left to right;
* `callPrint`, `callFunction` : calls of the builtin and of registered functions;
* `execBlock`, `execStmt`, `execLoop` : the execution of statements;
* `runBlock` : executes a block and gives the terminal value.

The fuel bounds how deep all of these are nested in each other. A block stops before its next
statement once the terminal value is set; a loop does not, it tests its condition until that fails.
-/

namespace IntScript

variable {σ : Type} [Sink σ]

/-- The name of the builtin that prints. -/
def printName : String := "println"

mutual

/-- The value of an expression. Both operands are evaluated, whatever the operator. -/
def evalExpr : Nat → Expr → Exec σ Int64
  | 0, _ => Exec.outOfFuel
  | _ + 1, .ident x => Exec.lookup x
  | _ + 1, .lit v => pure v
  | n + 1, .bin op l r => do
    let a ← evalExpr n l
    let b ← evalExpr n r
    Exec.apply op a b
  | n + 1, .call f args => if f = printName then callPrint n args else callFunction n f args

/-- Evaluates and prints one argument after the other; the value is zero. -/
def callPrint : Nat → List Expr → Exec σ Int64
  | 0, _ => Exec.outOfFuel
  | _ + 1, [] => pure 0
  | n + 1, e :: es => do
    let v ← evalExpr n e
    Exec.print v
    callPrint n es

/-- Calls the function that is registered before the arguments are evaluated. -/
def callFunction : Nat → String → List Expr → Exec σ Int64
  | 0, _, _ => Exec.outOfFuel
  | n + 1, f, args => do
    let d ← Exec.resolve f
    if d.params.length = args.length then
      let vs ← evalArgs n args
      Exec.emit (.entered f vs)
      let v ← Exec.activate (d.params.zip vs) (execBlock n d.body)
      Exec.emit (.left f)
      pure v
    else
      Exec.fail (.argumentCountMismatch f d.params.length args.length)

/-- The values of arguments. -/
def evalArgs : Nat → List Expr → Exec σ (List Int64)
  | 0, _ => Exec.outOfFuel
  | _ + 1, [] => pure []
  | n + 1, e :: es => do
    let v ← evalExpr n e
    let vs ← evalArgs n es
    pure (v :: vs)

/-- Executes statements until the terminal value is set. -/
def execBlock : Nat → Block → Exec σ Unit
  | 0, _ => Exec.outOfFuel
  | _ + 1, [] => pure ()
  | n + 1, s :: rest => do
    if ← Exec.hasResult then pure ()
    else
      execStmt n s
      execBlock n rest

/-- Executes a statement. An assignment needs its variable to be bound before the new value is
evaluated. -/
def execStmt : Nat → Stmt → Exec σ Unit
  | 0, _ => Exec.outOfFuel
  | n + 1, s => do
    Exec.emit (.began s)
    match s with
    | .function f params body => Exec.register f ⟨params, body⟩
    | .var x none => Exec.bindVar x 0
    | .var x (some e) => do Exec.bindVar x (← evalExpr n e)
    | .assign x e => do
      if ← Exec.isBound x then Exec.assign x (← evalExpr n e)
      else Exec.fail (.variableNotFound x)
    | .loop c body => execLoop n c body
    | .ifThen c a => do
      if truthy (← evalExpr n c) then execBlock n a else pure ()
    | .ifElse c a b => do
      if truthy (← evalExpr n c) then execBlock n a else execBlock n b
    | .ret e => do Exec.finish (← evalExpr n e)
    | .expr e => do
      let _ ← evalExpr n e
      pure ()

/-- Executes the body as long as the condition holds. -/
def execLoop : Nat → Expr → Block → Exec σ Unit
  | 0, _, _ => Exec.outOfFuel
  | n + 1, c, body => do
    let v ← evalExpr n c
    Exec.emit (.tested c v)
    if truthy v then
      execBlock n body
      execLoop n c body
    else pure ()

end

/-- Executes a block and gives the terminal value of the activation. -/
def runBlock (fuel : Nat) (b : Block) : Exec σ (Option Int64) := do
  execBlock fuel b
  fun s => .done s.result s

end IntScript
