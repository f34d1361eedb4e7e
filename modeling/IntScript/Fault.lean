/-!
# Faults

* `Fault` : why a run stops before its end;
* `Fault.message` : its wording.
-/

namespace IntScript

/-- Why a run stops before its end. -/
inductive Fault where
  /-- A variable is read or changed that is not bound. -/
  | variableNotFound (name : String)
  | divisionByZero
  | functionNotFound (name : String)
  /-- A function is called with another number of arguments than it has parameters. -/
  | argumentCountMismatch (name : String) (expected found : Nat)
deriving DecidableEq, Repr

/-- The wording of a fault. -/
def Fault.message : Fault → String
  | .variableNotFound x => "Could not find unbound variable " ++ x
  | .divisionByZero => "Division by zero"
  | .functionNotFound f => "Could not find function " ++ f
  | .argumentCountMismatch f expected found =>
    "Function " ++ f ++ " expects " ++ toString expected ++ " arguments, but was called with " ++
      toString found

end IntScript
