import IntScript.Proofs.Eval.Steps
import Mathlib.Algebra.Group.Int.Defs

/-!
# Arithmetic

Values are integers modulo `2^64`, with representatives between `-2^63` and `2^63 - 1`.

* `Op.exactValue?`, `Expr.exactValue?` : sums, differences and products as integers, however large;
* `Expr.Arithmetic` : the expressions of literals, bound variables, sums, differences and products
  (`Expr.Arithmetic.exists_exact`);
* `Op.apply_ofInt` : the operators reduce what is exact;
* `evalExpr_arithmetic` : an expression is evaluated exactly, and reduced once;
* `Division.recombine`, `Division.natAbs_mod_lt`, `Division.sign_mod`, `Division.toInt_div` : how
  quotients and remainders fit together;
* `evalExpr_division` : what the two operators do.
-/

namespace IntScript

/-! ## Sums, differences and products -/

/-- The exact value of an operation, for sums, differences and products. -/
def Op.exactValue? : Op → Int → Int → Option Int
  | .add, i, j => some (i + j)
  | .sub, i, j => some (i - j)
  | .mul, i, j => some (i * j)
  | _, _, _ => none

/-- The exact value of an expression of literals, bound variables, sums, differences and products:
the integer that it denotes, however large. -/
def Expr.exactValue? (vars : Vars) : Expr → Option Int
  | .ident x => vars[x]?.map Int64.toInt
  | .lit v => some v.toInt
  | .bin op l r => do op.exactValue? (← l.exactValue? vars) (← r.exactValue? vars)
  | .call _ _ => none

/-- The expression is built from literals, bound variables, sums, differences and products. -/
inductive Expr.Arithmetic (vars : Vars) : Expr → Prop where
  | ident {x : String} (hx : x ∈ vars) : Arithmetic vars (.ident x)
  | lit (v : Int64) : Arithmetic vars (.lit v)
  | bin {op : Op} {l r : Expr} (hop : op ∈ [.add, .sub, .mul]) (hl : Arithmetic vars l)
    (hr : Arithmetic vars r) : Arithmetic vars (.bin op l r)

theorem Expr.Arithmetic.exists_exact {vars : Vars} {e : Expr} (h : e.Arithmetic vars) :
    ∃ i, e.exactValue? vars = some i := by
  induction h with
  | @ident x hx => exact ⟨_, by rw [exactValue?, Std.ExtTreeMap.getElem?_eq_some_getElem hx]; rfl⟩
  | lit v => exact ⟨v.toInt, rfl⟩
  | @bin op l r hop _ _ ihl ihr =>
    obtain ⟨i, hi⟩ := ihl
    obtain ⟨j, hj⟩ := ihr
    have hval : exactValue? vars (.bin op l r) = op.exactValue? i j := by simp [exactValue?, hi, hj]
    rw [hval]
    simp only [List.mem_cons, List.not_mem_nil, or_false] at hop
    obtain rfl | rfl | rfl := hop <;> exact ⟨_, rfl⟩

/-- An operator reduces the exact value of its reduced operands. -/
theorem Op.apply_ofInt {op : Op} {i j k : Int} (h : op.exactValue? i j = some k) :
    op.apply (Int64.ofInt i) (Int64.ofInt j) = some (Int64.ofInt k) := by
  cases op with
  | add =>
    cases h
    rw [Int64.ofInt_add]
    rfl
  | sub =>
    cases h
    rw [Int64.ofInt_sub]
    rfl
  | mul =>
    cases h
    rw [Int64.ofInt_mul]
    rfl
  | _ => cases h

/-- An expression with an exact value is evaluated to that value, reduced. -/
theorem Run.endsWith_exact {σ : Type} [Sink σ] {e : Expr} {s : State σ} {i : Int}
    (h : e.exactValue? s.vars = some i) :
    EndsWith (expr e).withFuel s (.done (Int64.ofInt i) s) := by
  induction e using Expr.callFree.induct generalizing i with
  | case1 x =>
    obtain ⟨v, hv, rfl⟩ := Option.map_eq_some_iff.1 h
    rw [Int64.ofInt_toInt]
    exact endsWith_ident hv
  | case2 v =>
    cases h
    rw [Int64.ofInt_toInt]
    exact endsWith_lit s v
  | case3 op l r ihl ihr =>
    obtain ⟨j, hj, h⟩ := Option.bind_eq_some_iff.1 h
    obtain ⟨k, hk, h⟩ := Option.bind_eq_some_iff.1 h
    exact endsWith_bin_of_some (ihl hj) (ihr hk) (Op.apply_ofInt h)
  | case4 => cases h

/-- **Arithmetic is exact and reduced once.** An expression of literals, bound variables, sums,
differences and products is evaluated without changing anything, and its value is the one between
`-2^63` and `2^63 - 1` that differs from its exact value by a multiple of `2^64`. -/
theorem evalExpr_arithmetic {σ : Type} [Sink σ] {e : Expr} {s : State σ}
    (he : e.Arithmetic s.vars) :
    ∃ (i : Int) (v : Int64), e.exactValue? s.vars = some i ∧
      (∃ n, ∀ m ≥ n, evalExpr m e s = .done v s) ∧
      -2 ^ 63 ≤ v.toInt ∧ v.toInt ≤ 2 ^ 63 - 1 ∧ (2 ^ 64 : Int) ∣ v.toInt - i := by
  obtain ⟨i, hi⟩ := he.exists_exact
  have hv : (Int64.ofInt i).toInt = i.bmod (2 ^ 64) := Int64.toInt_ofInt
  refine ⟨i, Int64.ofInt i, hi, Run.eventually (Run.expr e) (Run.endsWith_exact hi), ?_, ?_, ?_⟩
  · exact Int64.le_toInt _
  · exact Int.le_sub_one_of_lt (Int64.toInt_lt _)
  · rw [hv]
    exact Int.dvd_bmod_sub_self

/-- The expression `(x + x) * x - 1`, where `x` is the largest value: the sum and the product wrap
around. -/
theorem evalExpr_arithmetic_wrapping :
    let x : Expr := .ident "x"
    let e : Expr := .bin .sub (.bin .mul (.bin .add x x) x) (.lit 1)
    let s : State Buffer := ⟨(∅ : Vars).insert "x" Int64.maxValue, none, ∅, .empty⟩
    e.Arithmetic s.vars ∧ e.exactValue? s.vars = some (2 ^ 127 - 2 ^ 65 + 1) ∧
      ∃ n, ∀ m ≥ n, evalExpr m e s = .done 1 s := by
  intro x e s
  have hx : Expr.Arithmetic s.vars x := .ident (by decide)
  have he : e.Arithmetic s.vars :=
    .bin (by decide) (.bin (by decide) (.bin (by decide) hx hx) hx) (.lit 1)
  have hexact : e.exactValue? s.vars = some (2 ^ 127 - 2 ^ 65 + 1) := by decide
  obtain ⟨i, v, hi, hrun, hlow, hhigh, hdvd⟩ := evalExpr_arithmetic he
  obtain rfl : 2 ^ 127 - 2 ^ 65 + 1 = i := Option.some.inj (hexact.symm.trans hi)
  obtain rfl : v = 1 := Int64.toInt_inj.1 (by rw [Int64.toInt_one]; omega)
  exact ⟨he, hexact, hrun⟩

/-! ## Quotients and remainders -/

namespace Division

variable {a b : Int64}

/-- Quotient and remainder give the dividend back, also where the quotient wraps around. -/
theorem recombine (a b : Int64) : a / b * b + a % b = a := by
  have hval : (a / b * b + a % b).toInt = a.toInt.bmod (2 ^ 64) := by
    rw [Int64.toInt_add, Int64.toInt_mul, Int64.toInt_div, Int64.toInt_mod, Int.bmod_mul_bmod,
      Int.bmod_add_bmod, Int.tdiv_mul_add_tmod]
  exact Int64.toInt_inj.1 (hval.trans a.toInt_bmod)

/-- The remainder is smaller than the divisor. -/
theorem natAbs_mod_lt (a : Int64) (hb : b ≠ 0) : (a % b).toInt.natAbs < b.toInt.natAbs := by
  have hpos : 0 < b.toInt.natAbs := by
    refine Int.natAbs_pos.2 fun h => hb (Int64.toInt_inj.1 ?_)
    rw [h, Int64.toInt_zero]
  rw [Int64.toInt_mod, Int.natAbs_tmod]
  exact Nat.mod_lt _ hpos

/-- A remainder that is not zero has the sign of the dividend. -/
theorem sign_mod (a b : Int64) : a % b = 0 ∨ (a % b).toInt.sign = a.toInt.sign := by
  by_cases h : b.toInt ∣ a.toInt
  · refine .inl (Int64.toInt_inj.1 ?_)
    rw [Int64.toInt_mod, Int.tmod_eq_zero_of_dvd h, Int64.toInt_zero]
  · right
    rw [Int64.toInt_mod, Int.sign_tmod, if_neg h]

/-- Only one quotient does not fit. -/
theorem toInt_div (h : ¬(a = Int64.minValue ∧ b = -1)) :
    (a / b).toInt = a.toInt.tdiv b.toInt := by
  by_cases ha : a = Int64.minValue
  · exact Int64.toInt_div_of_ne_right a b fun hb => h ⟨ha, hb⟩
  · exact Int64.toInt_div_of_ne_left a b ha

end Division

/-- The expression `(l / r) * r + l % r`. -/
def Expr.recombined (l r : Expr) : Expr :=
  .bin .add (.bin .mul (.bin .div l r) r) (.bin .mod l r)

section Division

variable {σ : Type} [Sink σ] {l r : Expr} {a b : Int64} {s t u : State σ}

theorem Run.endsWith_recombined (hl : EndsWith (expr l).withFuel s (.done a s))
    (hr : EndsWith (expr r).withFuel s (.done b s)) (hb : b ≠ 0) :
    EndsWith (expr (.recombined l r)).withFuel s (.done a s) := by
  have hdiv : Op.apply .div a b = some (a / b) := if_neg hb
  have hmod : Op.apply .mod a b = some (a % b) := if_neg hb
  have hproduct : EndsWith (expr (.bin .mul (.bin .div l r) r)).withFuel s (.done (a / b * b) s) :=
    endsWith_bin_of_some (endsWith_bin_of_some hl hr hdiv) hr rfl
  have hsum : EndsWith (expr (.recombined l r)).withFuel s (.done (a / b * b + a % b) s) :=
    endsWith_bin_of_some hproduct (endsWith_bin_of_some hl hr hmod) rfl
  rwa [Division.recombine] at hsum

/-- **Division and remainder fit together.** Let the operands have the values `a` and `b`.

* The two operators fault, and they do so with a division by zero, if and only if `b` is zero.
* Otherwise they have values `q` and `m`. The remainder `m` is smaller than `b`, and it is zero or has
  the sign of `a`. The quotient `q` is the exact one, cut toward zero, except where that does not fit:
  for `-2^63` and `-1`, the quotient is `-2^63` and the remainder zero.
* Then `(l / r) * r + l % r` has the value `a`, for operands that have these values wherever they are
  evaluated. -/
theorem evalExpr_division (hl : EndsWith (evalExpr · l) s (.done a t))
    (hr : EndsWith (evalExpr · r) t (.done b u)) :
    (∀ op, op = .div ∨ op = .mod →
      (EndsWith (evalExpr · (.bin op l r)) s (.fault .divisionByZero u) ↔ b = 0)) ∧
    (b ≠ 0 → ∃ q m : Int64,
      (∀ o, EndsWith (evalExpr · (.bin .div l r)) s o ↔ o = .done q u) ∧
      (∀ o, EndsWith (evalExpr · (.bin .mod l r)) s o ↔ o = .done m u) ∧
      m.toInt.natAbs < b.toInt.natAbs ∧ (m = 0 ∨ m.toInt.sign = a.toInt.sign) ∧
      (¬(a = Int64.minValue ∧ b = -1) → q.toInt = a.toInt.tdiv b.toInt) ∧
      (a = Int64.minValue ∧ b = -1 → q = Int64.minValue ∧ m = 0)) ∧
    (b ≠ 0 → ∀ (l' r' : Expr) (w : State σ), EndsWith (evalExpr · l') w (.done a w) →
      EndsWith (evalExpr · r') w (.done b w) →
      ∀ o, EndsWith (evalExpr · (.recombined l' r')) w o ↔ o = .done a w) := by
  have hbin : ∀ op, EndsWith (evalExpr · (.bin op l r)) s (Exec.apply op a b u) :=
    fun _ => Run.endsWith_bin hl hr
  refine ⟨fun op hop => ?_, fun hb => ⟨a / b, a % b, ?_, ?_, ?_, ?_, ?_, ?_⟩, ?_⟩
  · calc
      EndsWith (evalExpr · (.bin op l r)) s (.fault .divisionByZero u) ↔
          .fault .divisionByZero u = Exec.apply op a b u :=
        Run.endsWith_iff_eq (Run.expr _) (hbin op) _
      _ ↔ op.apply a b = none := eq_comm.trans Exec.apply_eq_fault_iff
      _ ↔ b = 0 := Op.apply_eq_none_iff.trans (and_iff_right hop)
  · have hdiv : Op.apply .div a b = some (a / b) := if_neg hb
    exact Run.endsWith_iff_eq (Run.expr _) (Run.endsWith_bin_of_some hl hr hdiv)
  · have hmod : Op.apply .mod a b = some (a % b) := if_neg hb
    exact Run.endsWith_iff_eq (Run.expr _) (Run.endsWith_bin_of_some hl hr hmod)
  · exact Division.natAbs_mod_lt a hb
  · exact Division.sign_mod a b
  · exact Division.toInt_div
  · rintro ⟨rfl, rfl⟩
    decide
  · intro hb l' r' w hl' hr'
    exact Run.endsWith_iff_eq (Run.expr _) (Run.endsWith_recombined hl' hr' hb)

/-- The quotient that does not fit, and a remainder of a negative dividend. -/
theorem evalExpr_division_smallest :
    let s : State Buffer := .fresh .empty
    let l : Expr := .lit Int64.minValue
    (EndsWith (evalExpr · l) s (.done Int64.minValue s) ∧
      EndsWith (evalExpr · (.lit (-1))) s (.done (-1) s) ∧ (-1 : Int64) ≠ 0) ∧
    EndsWith (evalExpr · (.bin .div l (.lit (-1)))) s (.done Int64.minValue s) ∧
    EndsWith (evalExpr · (.bin .mod l (.lit (-1)))) s (.done 0 s) ∧
    EndsWith (evalExpr · (.recombined l (.lit (-1)))) s (.done Int64.minValue s) := by
  intro s l
  have hl : EndsWith (evalExpr · l) s (.done Int64.minValue s) := Run.endsWith_lit s _
  have hr : EndsWith (evalExpr · (.lit (-1))) s (.done (-1) s) := Run.endsWith_lit s _
  have hb : (-1 : Int64) ≠ 0 := by decide
  obtain ⟨-, hvalues, hrecombined⟩ := evalExpr_division hl hr
  obtain ⟨q, m, hdiv, hmod, -, -, -, hmin⟩ := hvalues hb
  obtain ⟨rfl, rfl⟩ := hmin ⟨rfl, rfl⟩
  exact ⟨⟨hl, hr, hb⟩, (hdiv _).2 rfl, (hmod _).2 rfl, (hrecombined hb _ _ s hl hr _).2 rfl⟩

end Division

end IntScript
