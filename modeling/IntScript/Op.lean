/-!
# Binary operators

The only values of the language are 64-bit integers; truth is `1`, falsity is `0`, and every value
but `0` counts as true.

* `Op` : the thirteen operators, `Op.all` lists them;
* `Op.symbol`, `Op.ofSymbol?` : their spelling and back (`Op.ofSymbol?_symbol`);
* `truthy`, `ofBool` : values as truth and truth as values;
* `Op.apply` : the operator on two values, `none` for a zero divisor only
  (`Op.apply_eq_none_iff`).
-/

namespace IntScript

/-- A binary operator. -/
inductive Op where
  | add | sub | mul | div | mod | eq | ne | lt | gt | le | ge | and | or
deriving DecidableEq, Repr

/-- Every operator, once. -/
def Op.all : List Op := [.add, .sub, .mul, .div, .mod, .eq, .ne, .lt, .gt, .le, .ge, .and, .or]

theorem Op.mem_all (op : Op) : op ∈ Op.all := by cases op <;> decide

/-- How the operator is written. -/
def Op.symbol : Op → String
  | .add => "+"
  | .sub => "-"
  | .mul => "*"
  | .div => "/"
  | .mod => "%"
  | .eq => "=="
  | .ne => "!="
  | .lt => "<"
  | .gt => ">"
  | .le => "<="
  | .ge => ">="
  | .and => "&&"
  | .or => "||"

/-- The operator that is written as `s`. -/
def Op.ofSymbol? (s : String) : Option Op := Op.all.find? fun op => op.symbol = s

theorem Op.ofSymbol?_symbol (op : Op) : Op.ofSymbol? op.symbol = some op := by
  cases op <;> decide

theorem Op.symbol_of_ofSymbol? {s : String} {op : Op} (h : Op.ofSymbol? s = some op) :
    op.symbol = s := by
  simpa using List.find?_some h

/-! ## Truth -/

/-- Every value but zero is true. -/
def truthy (v : Int64) : Bool := v ≠ 0

/-- Truth as a value. -/
def ofBool (b : Bool) : Int64 := if b then 1 else 0

theorem truthy_iff {v : Int64} : truthy v = true ↔ v ≠ 0 := decide_eq_true_iff

@[simp] theorem ofBool_eq_zero_iff {b : Bool} : ofBool b = 0 ↔ b = false := by
  cases b <;> decide

@[simp] theorem truthy_ofBool (b : Bool) : truthy (ofBool b) = b := by cases b <;> rfl

/-! ## Application -/

/-- The operator on two values. Sums, differences and products wrap around; quotients are cut
toward zero, remainders take the sign of the dividend, and a zero divisor has neither. -/
def Op.apply (op : Op) (a b : Int64) : Option Int64 :=
  match op with
  | .add => some (a + b)
  | .sub => some (a - b)
  | .mul => some (a * b)
  | .div => if b = 0 then none else some (a / b)
  | .mod => if b = 0 then none else some (a % b)
  | .eq => some (ofBool (a = b))
  | .ne => some (ofBool (a ≠ b))
  | .lt => some (ofBool (a < b))
  | .gt => some (ofBool (a > b))
  | .le => some (ofBool (a ≤ b))
  | .ge => some (ofBool (a ≥ b))
  | .and => some (ofBool (truthy a && truthy b))
  | .or => some (ofBool (truthy a || truthy b))

theorem Op.apply_eq_none_iff {op : Op} {a b : Int64} :
    op.apply a b = none ↔ (op = .div ∨ op = .mod) ∧ b = 0 := by
  cases op <;> simp [Op.apply]

end IntScript
