import IntScript.Proofs.Eval.Changes
import IntScript.Proofs.Eval.Unrolling

/-!
# What single steps come to

With its operands evaluated, an operation has one outcome, and so has a statement with its expression
evaluated.

* `Run.expr_ident`, `Run.expr_lit`, `Run.expr_bin` : what names, literals and operations do, and
  `Run.endsWith_ident`, `Run.endsWith_lit`, `Run.endsWith_bin` what they end with;
* `Run.stmt_assign` : to a variable that is bound, an assignment is a declaration;
* `Run.endsWith_function`, `Run.endsWith_define`, `Run.endsWith_assign`, `Run.endsWith_ret` : what
  statements end with, as far as output goes;
* `Run.endsWith_loop` : a loop with an invariant and a variant comes to its end;
* `Run.endsWith_cons`, `Run.endsWith_program` : a block goes on behind its first statement, and a
  program gives the terminal value.
-/

namespace IntScript

variable {σ α : Type}

/-- The value of an operation that has one. -/
theorem Exec.apply_of_some {op : Op} {a b v : Int64} (h : op.apply a b = some v) (s : State σ) :
    Exec.apply op a b s = .done v s := by
  simp only [Exec.apply, h]

/-- An operation without a value is a division by zero. -/
theorem Exec.apply_eq_fault_iff {op : Op} {a b : Int64} {s : State σ} :
    Exec.apply op a b s = .fault .divisionByZero s ↔ op.apply a b = none := by
  unfold Exec.apply
  split <;> simp_all

theorem Exec.ended_apply (op : Op) (a b : Int64) (s : State σ) : (Exec.apply op a b s).Ended := by
  unfold Exec.apply
  split
  · exact Outcome.ended_done _ s
  · exact Outcome.ended_fault _ s

namespace Run

variable {s t u : State σ}

/-! ## Expressions -/

/-- An operation that has a value is nothing but this value. -/
theorem lift_apply {op : Op} {a b v : Int64} (h : op.apply a b = some v) :
    (lift (Exec.apply op a b) : Run σ Int64) = pure v :=
  congrArg lift (funext (Exec.apply_of_some h))

section Expressions

variable [Sink σ] {op : Op} {l r e : Expr} {x : String} {a b v : Int64}

theorem expr_ident (s : State σ) (x : String) : Same s (expr (.ident x)) (lift (Exec.lookup x)) :=
  .of_succ fun _ => rfl

theorem expr_lit (s : State σ) (v : Int64) : Same s (expr (.lit v)) (pure v) := .of_succ fun _ => rfl

/-- The operands are evaluated from left to right, and then the operator is applied. -/
theorem expr_bin (s : State σ) (op : Op) (l r : Expr) :
    Same s (expr (.bin op l r))
      (expr l >>= fun a => expr r >>= fun b => lift (Exec.apply op a b)) :=
  .of_succ fun _ => rfl

/-- An operation that has a value for all operands. -/
theorem expr_bin_of_total (s : State σ) {f : Int64 → Int64 → Int64}
    (h : ∀ a b, op.apply a b = some (f a b)) (l r : Expr) :
    Same s (expr (.bin op l r)) (expr l >>= fun a => expr r >>= fun b => pure (f a b)) := by
  simpa only [lift_apply (h _ _)] using expr_bin s op l r

theorem endsWith_ident (h : s.vars[x]? = some v) :
    EndsWith (expr (.ident x)).withFuel s (.done v s) := by
  have hlookup : Exec.lookup x s = .done v s := by simp only [Exec.lookup, h]
  exact (expr_ident s x _).2 (endsWith_lift_of_done hlookup)

theorem endsWith_lit (s : State σ) (v : Int64) : EndsWith (expr (.lit v)).withFuel s (.done v s) :=
  (expr_lit s v _).2 (endsWith_pure v s)

theorem endsWith_bin (hl : EndsWith (expr l).withFuel s (.done a t))
    (hr : EndsWith (expr r).withFuel t (.done b u)) :
    EndsWith (expr (.bin op l r)).withFuel s (Exec.apply op a b u) := by
  rw [expr_bin s op l r, endsWith_bind_of_done hl, endsWith_bind_of_done hr]
  exact endsWith_lift (Exec.ended_apply op a b u)

/-- An operation that has a value. -/
theorem endsWith_bin_of_some (hl : EndsWith (expr l).withFuel s (.done a t))
    (hr : EndsWith (expr r).withFuel t (.done b u)) (h : op.apply a b = some v) :
    EndsWith (expr (.bin op l r)).withFuel s (.done v u) :=
  Exec.apply_of_some h u ▸ endsWith_bin hl hr

end Expressions

/-! ## Statements -/

section Statements

variable [Sink σ] [OutputOnly σ] {e c : Expr} {st : Stmt} {b : Block} {x : String} {v : Int64}

theorem bindVar_eq (s : State σ) (x : String) (v : Int64) :
    Exec.bindVar x v s = .done () { s with vars := s.vars.insert x v } := by
  simp only [Exec.bindVar, OutputOnly.receive_eq (e := .bound x v) rfl]

theorem finish_eq (s : State σ) (v : Int64) :
    Exec.finish v s = .done () { s with result := some v } := by
  simp only [Exec.finish, OutputOnly.receive_eq (e := .returned v) rfl]

theorem register_eq (s : State σ) (f : String) (d : FunDef) :
    Exec.register f d s = .done () { s with functions := s.functions.insert f d } := by
  simp only [Exec.register, OutputOnly.receive_eq (e := .registered f d) rfl]

theorem endsWith_function (s : State σ) (f : String) (ps : List String) (b : Block) :
    EndsWith (stmt (.function f ps b)).withFuel s
      (.done () { s with functions := s.functions.insert f ⟨ps, b⟩ }) := by
  rw [stmt_of_began (x := lift (Exec.register f ⟨ps, b⟩)) s fun _ => rfl]
  exact endsWith_lift_of_done (register_eq s f ⟨ps, b⟩)

theorem stmt_define (s : State σ) (x : String) (e : Expr) :
    Same s (stmt (.var x (some e))) (expr e >>= fun v => lift (Exec.bindVar x v)) :=
  stmt_of_began s fun _ => rfl

/-- A variable is bound to a value. -/
theorem endsWith_define (he : EndsWith (expr e).withFuel s (.done v t)) (x : String) :
    EndsWith (stmt (.var x (some e))).withFuel s
      (.done () { t with vars := t.vars.insert x v }) := by
  rw [stmt_define s x e, endsWith_bind_of_done he]
  exact endsWith_lift_of_done (bindVar_eq t x v)

/-- An assignment to a variable that is bound does what a declaration does. -/
theorem stmt_assign (hx : x ∈ s.vars) (e : Expr) :
    Same s (stmt (.assign x e)) (stmt (.var x (some e))) :=
  calc
    Same s (stmt (.assign x e)) (expr e >>= fun v => lift (Exec.bindVar x v)) := by
      refine .of_succ fun n => (execStmt_assign hx e n).trans ?_
      rw [State.receive, OutputOnly.receive_eq rfl]
      rfl
    Same s _ (stmt (.var x (some e))) := (stmt_define s x e).symm

/-- A variable that is bound gets another value. -/
theorem endsWith_assign {w : Int64} (hw : s.vars[x]? = some w)
    (he : EndsWith (expr e).withFuel s (.done v t)) :
    EndsWith (stmt (.assign x e)).withFuel s
      (.done () { t with vars := t.vars.insert x v }) := by
  have hx : x ∈ s.vars := Std.ExtTreeMap.mem_iff_isSome_getElem?.2 (by rw [hw]; rfl)
  exact (stmt_assign hx e _).2 (endsWith_define he x)

/-- The terminal value is set. -/
theorem endsWith_ret (he : EndsWith (expr e).withFuel s (.done v t)) :
    EndsWith (stmt (.ret e)).withFuel s (.done () { t with result := some v }) := by
  rw [stmt_of_began (x := expr e >>= fun v => lift (Exec.finish v)) s fun _ => rfl,
    endsWith_bind_of_done he]
  exact endsWith_lift_of_done (finish_eq t v)

/-- A loop comes to its end in a state where `Q` holds, if there is an invariant `I` with a variant:
where `I n` holds, the condition has a value, by which either the loop ends and `Q` holds, or the
body is executed and `I` holds again for a number below `n`. -/
theorem endsWith_loop {I : Nat → State σ → Prop} {Q : State σ → Prop}
    (step : ∀ n s, I n s → ∃ v t, EndsWith (expr c).withFuel s (.done v t) ∧
      (v = 0 → Q t) ∧
      (v ≠ 0 → ∃ m u, EndsWith (block b).withFuel t (.done () u) ∧ m < n ∧ I m u))
    {n : Nat} (h : I n s) : ∃ t, EndsWith (stmt (.loop c b)).withFuel s (.done () t) ∧ Q t := by
  induction n using Nat.strongRecOn generalizing s with
  | ind n ih =>
    obtain ⟨v, t, hc, hexit, hbody⟩ := step n s h
    by_cases hv : v = 0
    · have hfalse : ¬truthy v = true := fun h => truthy_iff.1 h hv
      refine ⟨t, ?_, hexit hv⟩
      rw [stmt_loop s c b, endsWith_bind_of_done hc, if_neg hfalse]
      exact endsWith_pure () t
    · obtain ⟨m, u, hb, hm, hu⟩ := hbody hv
      obtain ⟨t', ht', hQ⟩ := ih m hm hu
      exact ⟨t', (stmt_loop_of_iteration hc hv hb _).2 ht', hQ⟩

end Statements

/-! ## Blocks -/

section Blocks

variable [Sink σ] {st : Stmt} {b : Block}

/-- A block goes on behind its first statement. -/
theorem endsWith_cons (hs : s.result = none) (hst : EndsWith (stmt st).withFuel s (.done () t))
    (o : Outcome σ Unit) :
    EndsWith (block (st :: b)).withFuel s o ↔ EndsWith (block b).withFuel t o := by
  rw [block_cons hs st b, endsWith_bind_of_done hst]

theorem endsWith_nil (s : State σ) : EndsWith (block []).withFuel s (.done () s) :=
  (block_nil s _).2 (endsWith_pure () s)

/-- The block `{ return e }`. -/
theorem endsWith_block_ret [OutputOnly σ] {e : Expr} {v : Int64} (hs : s.result = none)
    (he : EndsWith (expr e).withFuel s (.done v t)) :
    EndsWith (block [.ret e]).withFuel s (.done () { t with result := some v }) :=
  (endsWith_cons hs (endsWith_ret he) _).2 (endsWith_nil _)

/-- A program gives the terminal value. -/
theorem endsWith_program (hb : EndsWith (block b).withFuel s (.done () t)) :
    EndsWith (program b).withFuel s (.done t.result t) := by
  rw [program_eq, endsWith_bind_of_done hb]
  exact ⟨Outcome.ended_done _ t, 0, rfl⟩

end Blocks

end Run

end IntScript
