import IntScript.Proofs.Eval.Steps

/-!
# Truth values

Comparisons and logical operators give zero or one, and the logical operators evaluate both of their
operands.

* `Op.isTest` : the comparisons and the logical operators (`Op.exists_ofBool`);
* `Expr.isTrue` : the test whether an expression is true (`Run.expr_isTrue`);
* `Run.expr_and`, `Run.expr_or` : conjunctions and disjunctions as products and sums of tests;
* `Run.endsWith_choice` : a conditional that returns one or zero;
* `evalExpr_logic` : the laws of truth values.
-/

namespace IntScript

/-- The comparisons and the logical operators. -/
def Op.isTest : Op → Bool
  | .add | .sub | .mul | .div | .mod => false
  | .eq | .ne | .lt | .gt | .le | .ge | .and | .or => true

/-- A test gives a truth value. -/
theorem Op.exists_ofBool {op : Op} (h : op.isTest = true) :
    ∃ f : Int64 → Int64 → Bool, ∀ a b, op.apply a b = some (ofBool (f a b)) := by
  cases op with
  | add | sub | mul | div | mod => cases h
  | _ => exact ⟨_, fun _ _ => rfl⟩

theorem ofBool_and (p q : Bool) : ofBool (p && q) = ofBool p * ofBool q := by
  cases p <;> cases q <;> decide

theorem ofBool_or (p q : Bool) : ofBool (p || q) = ofBool (truthy (ofBool p + ofBool q)) := by
  cases p <;> cases q <;> decide

/-- The expression `e != 0`. -/
def Expr.isTrue (e : Expr) : Expr := .bin .ne e (.lit 0)

namespace Run

variable {σ : Type} [Sink σ] {s t : State σ}

theorem expr_isTrue (s : State σ) (e : Expr) :
    Same s (expr e.isTrue) (expr e >>= fun a => pure (ofBool (truthy a))) :=
  calc
    Same s (expr e.isTrue)
        (expr e >>= fun a => expr (.lit 0) >>= fun b => pure (ofBool (decide (a ≠ b)))) :=
      expr_bin_of_total s (fun _ _ => rfl) e (.lit 0)
    Same s _ (expr e >>= fun a => pure 0 >>= fun b => pure (ofBool (decide (a ≠ b)))) :=
      .bindRight fun _ t => (expr_lit t 0).bindLeft _

/-- An operation on two tests. -/
theorem expr_tests (s : State σ) (op : Op) {f : Bool → Bool → Int64}
    (h : ∀ p q, op.apply (ofBool p) (ofBool q) = some (f p q)) (e₁ e₂ : Expr) :
    Same s (expr (.bin op e₁.isTrue e₂.isTrue))
      (expr e₁ >>= fun a => expr e₂ >>= fun b => pure (f (truthy a) (truthy b))) :=
  calc
    Same s (expr (.bin op e₁.isTrue e₂.isTrue)) (expr e₁.isTrue >>= fun a =>
        expr e₂.isTrue >>= fun b => lift (Exec.apply op a b)) := expr_bin s op _ _
    Same s _ ((expr e₁ >>= fun a => pure (ofBool (truthy a))) >>= fun a =>
        expr e₂.isTrue >>= fun b => lift (Exec.apply op a b)) := (expr_isTrue s e₁).bindLeft _
    Same s _ ((expr e₁ >>= fun a => pure (ofBool (truthy a))) >>= fun a =>
        (expr e₂ >>= fun b => pure (ofBool (truthy b))) >>= fun b => lift (Exec.apply op a b)) :=
      .bindRight fun _ t => (expr_isTrue t e₂).bindLeft _
    _ = (expr e₁ >>= fun a => expr e₂ >>= fun b => pure (f (truthy a) (truthy b))) := by
      simp only [bind_assoc, pure_bind, lift_apply (h _ _)]

/-- A conjunction is the product of the tests of its operands. -/
theorem expr_and (s : State σ) (e₁ e₂ : Expr) :
    Same s (expr (.bin .and e₁ e₂)) (expr (.bin .mul e₁.isTrue e₂.isTrue)) := by
  have hmul : ∀ p q, Op.apply .mul (ofBool p) (ofBool q) = some (ofBool (p && q)) :=
    fun p q => congrArg some (ofBool_and p q).symm
  exact (expr_bin_of_total s (fun _ _ => rfl) e₁ e₂).trans (expr_tests s .mul hmul e₁ e₂).symm

/-- A disjunction is the test of the sum of the tests of its operands. -/
theorem expr_or (s : State σ) (e₁ e₂ : Expr) :
    Same s (expr (.bin .or e₁ e₂)) (expr (Expr.isTrue (.bin .add e₁.isTrue e₂.isTrue))) := by
  have hadd : ∀ p q, Op.apply .add (ofBool p) (ofBool q) = some (ofBool p + ofBool q) :=
    fun _ _ => rfl
  calc
    Same s (expr (.bin .or e₁ e₂))
        (expr e₁ >>= fun a => expr e₂ >>= fun b => pure (ofBool (truthy a || truthy b))) :=
      expr_bin_of_total s (fun _ _ => rfl) e₁ e₂
    _ = (expr e₁ >>= fun a => expr e₂ >>= fun b =>
          pure (ofBool (truthy a) + ofBool (truthy b))) >>= fun c => pure (ofBool (truthy c)) := by
      simp only [bind_assoc, pure_bind, ofBool_or]
    Same s _ (expr (.bin .add e₁.isTrue e₂.isTrue) >>= fun c => pure (ofBool (truthy c))) :=
      (expr_tests s .add hadd e₁ e₂).symm.bindLeft _
    Same s _ (expr (Expr.isTrue (.bin .add e₁.isTrue e₂.isTrue))) := (expr_isTrue s _).symm

variable {op : Op} {l r : Expr} {a v : Int64}

/-- After the left operand, the right one is evaluated, and if that faults, so does the operation. -/
theorem endsWith_bin_of_total {f : Int64 → Int64 → Int64} (h : ∀ a b, op.apply a b = some (f a b))
    (hl : EndsWith (expr l).withFuel s (.done a t)) (o : Outcome σ Int64) :
    EndsWith (expr (.bin op l r)).withFuel s o ↔
      (∃ b u, EndsWith (expr r).withFuel t (.done b u) ∧ o = .done (f a b) u) ∨
      ∃ err u, EndsWith (expr r).withFuel t (.fault err u) ∧ o = .fault err u := by
  rw [expr_bin_of_total s h, endsWith_bind_of_done hl, endsWith_bind_iff]
  simp only [endsWith_pure_iff]

/-- The value of a test is a truth value. -/
theorem exists_ofBool (h : op.isTest = true)
    (hv : EndsWith (expr (.bin op l r)).withFuel s (.done v t)) : ∃ p, v = ofBool p := by
  obtain ⟨f, hf⟩ := Op.exists_ofBool h
  rw [expr_bin_of_total s hf, endsWith_bind_iff] at hv
  obtain ⟨a, u, -, hv⟩ | ⟨err, u, -, hv⟩ := hv
  · rw [endsWith_bind_iff] at hv
    obtain ⟨b, w, -, hv⟩ | ⟨err, w, -, hv⟩ := hv
    · cases (endsWith_pure_iff _ _ _).1 hv
      exact ⟨f a b, rfl⟩
    · cases hv
  · cases hv

/-- The program `if (c) { return 1 } else { return 0 }` returns a truth value that the condition
has. -/
theorem endsWith_choice [OutputOnly σ] {c : Expr} {p : Bool} (hs : s.result = none)
    (hc : EndsWith (expr c).withFuel s (.done (ofBool p) t)) :
    EndsWith (program [.ifElse c [.ret (.lit 1)] [.ret (.lit 0)]]).withFuel s
      (.done (some (ofBool p)) { t with result := some (ofBool p) }) := by
  have ht : t.result = none := (result_of_expr hc).trans hs
  have hbranch : EndsWith (stmt (.ifElse c [.ret (.lit 1)] [.ret (.lit 0)])).withFuel s
      (.done () { t with result := some (ofBool p) }) := by
    rw [stmt_ifElse, endsWith_bind_of_done hc, truthy_ofBool]
    cases p with
    | true => exact endsWith_block_ret ht (endsWith_lit t 1)
    | false => exact endsWith_block_ret ht (endsWith_lit t 0)
  exact endsWith_program ((endsWith_cons hs hbranch _).2 (endsWith_nil _))

end Run

/-- **Truth values and strict logic**, for any two expressions and any state `s`.

* A conjunction comes to what the product of the tests of its operands comes to, and a disjunction to
  what the test of the sum of these tests comes to: the same values, faults, output and functions.
* So neither of them skips its right operand: once the left one has a value, the right one is
  evaluated from there, and if it faults, so does the whole.
* Where a comparison or a logical operation has a value `v` and leaves the state `t`, the value is zero
  or one. Then its conjunction with `1` and its disjunction with `0` do the same, and in a state
  without terminal value, the program `if (..) { return 1 } else { return 0 }` returns `v` with the
  output, variables and functions of `t`. -/
theorem evalExpr_logic {σ : Type} [Sink σ] (s : State σ) (e₁ e₂ : Expr) :
    (∀ o, EndsWith (evalExpr · (.bin .and e₁ e₂)) s o ↔
      EndsWith (evalExpr · (.bin .mul (.bin .ne e₁ (.lit 0)) (.bin .ne e₂ (.lit 0)))) s o) ∧
    (∀ o, EndsWith (evalExpr · (.bin .or e₁ e₂)) s o ↔
      EndsWith (evalExpr ·
        (.bin .ne (.bin .add (.bin .ne e₁ (.lit 0)) (.bin .ne e₂ (.lit 0))) (.lit 0))) s o) ∧
    (∀ a t, EndsWith (evalExpr · e₁) s (.done a t) →
      (∀ o, EndsWith (evalExpr · (.bin .and e₁ e₂)) s o ↔
        (∃ b u, EndsWith (evalExpr · e₂) t (.done b u) ∧
          o = .done (ofBool (truthy a && truthy b)) u) ∨
        ∃ err u, EndsWith (evalExpr · e₂) t (.fault err u) ∧ o = .fault err u) ∧
      ∀ o, EndsWith (evalExpr · (.bin .or e₁ e₂)) s o ↔
        (∃ b u, EndsWith (evalExpr · e₂) t (.done b u) ∧
          o = .done (ofBool (truthy a || truthy b)) u) ∨
        ∃ err u, EndsWith (evalExpr · e₂) t (.fault err u) ∧ o = .fault err u) ∧
    ∀ op v t, op.isTest = true → EndsWith (evalExpr · (.bin op e₁ e₂)) s (.done v t) →
      (v = 0 ∨ v = 1) ∧
      (∀ o, EndsWith (evalExpr · (.bin .and (.bin op e₁ e₂) (.lit 1))) s o ↔ o = .done v t) ∧
      (∀ o, EndsWith (evalExpr · (.bin .or (.bin op e₁ e₂) (.lit 0))) s o ↔ o = .done v t) ∧
      ∀ [OutputOnly σ], s.result = none →
        ∀ o, EndsWith (runBlock · [.ifElse (.bin op e₁ e₂) [.ret (.lit 1)] [.ret (.lit 0)]]) s o ↔
          o = .done (some v) { t with result := some v } := by
  have hand : ∀ a b, Op.apply .and a b = some (ofBool (truthy a && truthy b)) := fun _ _ => rfl
  have hor : ∀ a b, Op.apply .or a b = some (ofBool (truthy a || truthy b)) := fun _ _ => rfl
  refine ⟨Run.expr_and s e₁ e₂, Run.expr_or s e₁ e₂, fun a t hl =>
    ⟨Run.endsWith_bin_of_total hand hl, Run.endsWith_bin_of_total hor hl⟩, fun op v t hop hv => ?_⟩
  obtain ⟨p, rfl⟩ := Run.exists_ofBool hop hv
  have hone : Op.apply .and (ofBool p) 1 = some (ofBool p) := by cases p <;> rfl
  have hzero : Op.apply .or (ofBool p) 0 = some (ofBool p) := by cases p <;> rfl
  refine ⟨by cases p <;> decide, ?_, ?_, fun hs => ?_⟩
  · exact Run.endsWith_iff_eq (Run.expr _) (Run.endsWith_bin_of_some hv (Run.endsWith_lit t 1) hone)
  · exact Run.endsWith_iff_eq (Run.expr _) (Run.endsWith_bin_of_some hv (Run.endsWith_lit t 0) hzero)
  · exact Run.endsWith_iff_eq (Run.program _) (Run.endsWith_choice hs hv)

/-- A function that prints and returns three, on the left of a division by zero and of a call that
prints: `f() || 1 / 0` faults after `f` has printed, and `f() > println(7)` is true. -/
theorem evalExpr_logic_printing :
    let f : FunDef := ⟨[], [.expr (.call printName [.lit 5]), .ret (.lit 3)]⟩
    let s : State Buffer := ⟨∅, none, (∅ : FunTable).insert "f" f, .empty⟩
    let l : Expr := .call "f" []
    let r : Expr := .bin .div (.lit 1) (.lit 0)
    let e : Expr := .bin .gt l (.call printName [.lit 7])
    s.result = none ∧
      (∃ t, EndsWith (evalExpr · l) s (.done 3 t) ∧ t.sink.text = "5\n" ∧
        EndsWith (evalExpr · (.bin .or l r)) s (.fault .divisionByZero t)) ∧
      ∃ t, EndsWith (evalExpr · e) s (.done 1 t) ∧ t.sink.text = "5\n7\n" ∧
        EndsWith (evalExpr · (.bin .and e (.lit 1))) s (.done 1 t) ∧
        EndsWith (runBlock · [.ifElse e [.ret (.lit 1)] [.ret (.lit 0)]]) s
          (.done (some 1) { t with result := some 1 }) := by
  intro f s l r e
  have hf : EndsWith (evalExpr · l) s (.done 3 (evalExpr 20 l s).state) :=
    ⟨Outcome.ended_done _ _, 20, rfl⟩
  have hr : EndsWith (evalExpr · r) (evalExpr 20 l s).state
      (.fault .divisionByZero (evalExpr 20 l s).state) := ⟨Outcome.ended_fault _ _, 20, rfl⟩
  have he : EndsWith (evalExpr · e) s (.done 1 (evalExpr 20 e s).state) :=
    ⟨Outcome.ended_done _ _, 20, rfl⟩
  obtain ⟨-, hor⟩ := (evalExpr_logic s l r).2.2.1 3 _ hf
  obtain ⟨-, hand, -, hchoice⟩ := (evalExpr_logic s l _).2.2.2 .gt 1 _ rfl he
  exact ⟨rfl, ⟨_, hf, by decide +kernel, (hor _).2 (.inr ⟨_, _, hr, rfl⟩)⟩, _, he,
    by decide +kernel, (hand _).2 rfl, (hchoice rfl _).2 rfl⟩

end IntScript
