import IntScript.Proofs.Eval.Simulation

/-!
# Variables that a program does not mention

A call copies the variables of its caller, so each variable gets into every activation of a run. One
that is mentioned nowhere makes no difference there.

* `Expr.variables`, `Stmt.variables`, `Block.variables`, `FunDef.variables` : the variables that are
  mentioned, as what is read, declared or assigned to, or as parameters;
* `State.withVar s x v`, `Outcome.withVar x v` : the same with the variable `x` bound to `v`;
* `FunTable.Omits x` : no function of a table mentions the variable;
* `State.Beside x v`, `Exec.Beside x v` : states and runs with and without the variable;
* `Unmentioned.At x v n`, `Unmentioned.all` : evaluation with and without it, with any fuel;
* `runBlock_unmentioned` : the run of a block with a variable that is not mentioned.
-/

namespace IntScript

variable {σ α : Type}

/-! ## Mentioned variables -/

mutual

/-- The variables that the expression reads. -/
def Expr.variables : Expr → List String
  | .ident x => [x]
  | .lit _ => []
  | .bin _ l r => l.variables ++ r.variables
  | .call _ args => Expr.listVariables args

/-- The variables that the expressions read. -/
def Expr.listVariables : List Expr → List String
  | [] => []
  | e :: es => e.variables ++ Expr.listVariables es

end

mutual

/-- The variables that are mentioned in the statement: what is read, declared or assigned to, and the
parameters of functions. -/
def Stmt.variables : Stmt → List String
  | .function _ ps body => ps ++ Block.variables body
  | .var x none => [x]
  | .var x (some e) => x :: e.variables
  | .assign x e => x :: e.variables
  | .loop c b => c.variables ++ Block.variables b
  | .ifThen c a => c.variables ++ Block.variables a
  | .ifElse c a b => c.variables ++ (Block.variables a ++ Block.variables b)
  | .ret e | .expr e => e.variables

/-- The variables that are mentioned in the block. -/
def Block.variables : List Stmt → List String
  | [] => []
  | s :: b => s.variables ++ Block.variables b

end

/-- The variables that are mentioned in the function, its parameters among them. -/
def FunDef.variables (d : FunDef) : List String := d.params ++ Block.variables d.body

/-! ## One variable more -/

/-- The state with a variable bound. -/
def State.withVar (s : State σ) (x : String) (v : Int64) : State σ :=
  { s with vars := s.vars.insert x v }

/-- The outcome with a variable bound. -/
def Outcome.withVar (x : String) (v : Int64) : Outcome σ α → Outcome σ α
  | .done a s => .done a (s.withVar x v)
  | .fault e s => .fault e (s.withVar x v)
  | .unfinished s => .unfinished (s.withVar x v)

/-- Different variables can be bound in either order. -/
theorem Vars.insert_comm {x y : String} (h : x ≠ y) (vars : Vars) (v w : Int64) :
    (vars.insert x v).insert y w = (vars.insert y w).insert x v := by
  refine Std.ExtTreeMap.ext_getElem? fun z => ?_
  simp only [Std.ExtTreeMap.getElem?_insert, Std.LawfulEqCmp.compare_eq_iff_eq]
  by_cases hy : y = z
  · have hx : x ≠ z := fun hx => h (hx.trans hy.symm)
    rw [if_pos hy, if_neg hx, if_pos hy]
  · rw [if_neg hy, if_neg hy]

theorem Vars.bindAll_insert {x : String} {ps : List String} (h : x ∉ ps) (vars : Vars) (v : Int64)
    (vs : List Int64) :
    Vars.bindAll (vars.insert x v) (ps.zip vs) = (vars.bindAll (ps.zip vs)).insert x v := by
  induction ps generalizing vars vs with
  | nil => rfl
  | cons p ps ih =>
    rw [List.mem_cons, not_or] at h
    cases vs with
    | nil => rfl
    | cons w vs =>
      rw [List.zip_cons_cons, bindAll_cons, bindAll_cons, insert_comm h.1, ih h.2]

/-- No function of the table mentions the variable. -/
def FunTable.Omits (x : String) (t : FunTable) : Prop :=
  ∀ (f : String) (d : FunDef), t[f]? = some d → x ∉ d.variables

theorem FunTable.omits_empty (x : String) : FunTable.Omits x ∅ := by
  intro f d hd
  simp at hd

theorem FunTable.Omits.insert {x : String} {t : FunTable} (h : t.Omits x) (f : String) {d : FunDef}
    (hd : x ∉ d.variables) : FunTable.Omits x (t.insert f d) := by
  intro g d' hg
  rw [Std.ExtTreeMap.getElem?_insert] at hg
  split at hg
  · cases hg
    exact hd
  · exact h g d' hg

/-- The second state is the first one with `x` bound to `v`, and no function mentions `x`. -/
structure State.Beside (x : String) (v : Int64) (s t : State σ) : Prop where
  eq : t = s.withVar x v
  functions : s.functions.Omits x

/-- Both runs do the same, the second one with `x` bound to `v`. -/
abbrev Exec.Beside (x : String) (v : Int64) (y z : Exec σ α) : Prop :=
  Exec.Simulates id (State.Beside x v) Eq y z

theorem Outcome.alike_withVar (x : String) (v : Int64) {o : Outcome σ α}
    (h : o.state.functions.Omits x) : Alike id (State.Beside x v) Eq o (o.withVar x v) := by
  cases o with
  | done a s => exact .done rfl ⟨rfl, h⟩
  | fault e s => exact .fault e ⟨rfl, h⟩
  | unfinished s => exact .unfinished ⟨rfl, h⟩

theorem Outcome.Alike.eq_withVar {x : String} {v : Int64} {o o' : Outcome σ α}
    (h : Alike id (State.Beside x v) Eq o o') : o' = o.withVar x v := by
  cases h with
  | done hab h => rw [hab, h.eq]; rfl
  | fault e h => rw [h.eq]; rfl
  | unfinished h => rw [h.eq]; rfl

namespace Exec.Beside

variable {x : String} {v : Int64} {y : String}

/-- A run that does the same with the variable, and registers no function that mentions it. -/
theorem of_eq {z : Exec σ α} (h : ∀ s : State σ, z (s.withVar x v) = (z s).withVar x v)
    (hfun : ∀ s, s.functions.Omits x → (z s).state.functions.Omits x) : Exec.Beside x v z z := by
  rintro s _ ⟨rfl, hs⟩
  rw [h s]
  exact Outcome.alike_withVar x v (hfun s hs)

theorem hasResult : Exec.Beside x v (Exec.hasResult : Exec σ Bool) Exec.hasResult :=
  of_eq (fun _ => rfl) fun _ h => h

theorem isBound (hy : x ≠ y) : Exec.Beside x v (Exec.isBound y : Exec σ Bool) (Exec.isBound y) := by
  refine of_eq (fun s => ?_) fun _ h => h
  have hmem : y ∈ s.vars.insert x v ↔ y ∈ s.vars := by simp [Std.ExtTreeMap.mem_insert, hy]
  change Outcome.done (decide (y ∈ s.vars.insert x v)) _ = Outcome.done (decide (y ∈ s.vars)) _
  rw [decide_eq_decide.2 hmem]

theorem lookup (hy : x ≠ y) : Exec.Beside x v (Exec.lookup y : Exec σ Int64) (Exec.lookup y) := by
  refine of_eq (fun s => ?_) fun s h => by rwa [Exec.state_lookup]
  have hget : (s.withVar x v).vars[y]? = s.vars[y]? := getElem?_insert_of_ne hy s.vars v
  unfold Exec.lookup
  rw [hget]
  cases s.vars[y]? <;> rfl

theorem apply (o : Op) (a b : Int64) :
    Exec.Beside x v (Exec.apply o a b : Exec σ Int64) (Exec.apply o a b) := by
  refine of_eq (fun s => ?_) fun s h => by rwa [Exec.state_apply]
  unfold Exec.apply
  cases o.apply a b <;> rfl

/-- A function that is found does not mention the variable. -/
theorem resolve (f : String) :
    Exec.Simulates id (State.Beside x v) (fun d d' => d' = d ∧ x ∉ d.variables)
      (Exec.resolve f : Exec σ FunDef) (Exec.resolve f) := by
  rintro s _ ⟨rfl, hs⟩
  simp only [Exec.resolve, State.withVar]
  cases hd : s.functions[f]? with
  | some d => exact .done ⟨rfl, hs f d hd⟩ ⟨rfl, hs⟩
  | none => exact .fault _ ⟨rfl, hs⟩

section Sinks

variable [Sink σ]

theorem emit (e : Event) : Exec.Beside x v (Exec.emit e : Exec σ Unit) (Exec.emit e) :=
  of_eq (fun _ => rfl) fun _ h => h

theorem finish (w : Int64) : Exec.Beside x v (Exec.finish w : Exec σ Unit) (Exec.finish w) :=
  of_eq (fun _ => rfl) fun _ h => h

theorem bindVar (hy : x ≠ y) (w : Int64) :
    Exec.Beside x v (Exec.bindVar y w : Exec σ Unit) (Exec.bindVar y w) := by
  refine of_eq (fun s => ?_) fun _ h => h
  change Outcome.done () ⟨(s.vars.insert x v).insert y w, _, _, _⟩ = _
  rw [Vars.insert_comm hy]
  rfl

theorem register (f : String) {d : FunDef} (hd : x ∉ d.variables) :
    Exec.Beside x v (Exec.register f d : Exec σ Unit) (Exec.register f d) :=
  of_eq (fun _ => rfl) fun _ h => h.insert f hd

theorem assign (hy : x ≠ y) (w : Int64) :
    Exec.Beside x v (Exec.assign y w : Exec σ Unit) (Exec.assign y w) :=
  .bindSame (isBound hy) fun _ => .ite Iff.rfl (bindVar hy w) (.fail _)

end Sinks

/-- Into an activation, the variable is copied; its own variables are given up at its end. -/
theorem activate {ps : List String} (hx : x ∉ ps) (vs : List Int64) {y z : Exec σ Unit}
    (h : Exec.Beside x v y z) :
    Exec.Beside x v (Exec.activate (ps.zip vs) y) (Exec.activate (ps.zip vs) z) := by
  rintro s _ ⟨rfl, hs⟩
  have hbody := h ⟨s.vars.bindAll (ps.zip vs), none, s.functions, s.sink⟩
    ⟨Vars.bindAll (s.vars.insert x v) (ps.zip vs), none, s.functions, s.sink⟩
    ⟨by rw [Vars.bindAll_insert hx]; rfl, hs⟩
  simp only [Exec.activate, State.withVar]
  generalize y _ = o at hbody ⊢
  generalize z _ = o' at hbody ⊢
  cases hbody with
  | done _ h => exact h.eq ▸ .done rfl ⟨rfl, h.functions⟩
  | fault e h => exact h.eq ▸ .fault e ⟨rfl, h.functions⟩
  | unfinished h => exact h.eq ▸ .unfinished ⟨rfl, h.functions⟩

end Exec.Beside

/-! ## Evaluation -/

namespace Unmentioned

/-- What goes the same way with the variable, with a given fuel, where it is not mentioned. -/
structure At (σ : Type) [Sink σ] (x : String) (v : Int64) (n : Nat) : Prop where
  expr : ∀ e : Expr, x ∉ e.variables →
    Exec.Beside x v (evalExpr n e : Exec σ Int64) (evalExpr n e)
  printed : ∀ es, x ∉ Expr.listVariables es →
    Exec.Beside x v (callPrint n es : Exec σ Int64) (callPrint n es)
  called : ∀ f es, x ∉ Expr.listVariables es →
    Exec.Beside x v (callFunction n f es : Exec σ Int64) (callFunction n f es)
  args : ∀ es, x ∉ Expr.listVariables es →
    Exec.Beside x v (evalArgs n es : Exec σ (List Int64)) (evalArgs n es)
  block : ∀ b, x ∉ Block.variables b →
    Exec.Beside x v (execBlock n b : Exec σ Unit) (execBlock n b)
  stmt : ∀ s : Stmt, x ∉ s.variables → Exec.Beside x v (execStmt n s : Exec σ Unit) (execStmt n s)
  loop : ∀ c b, x ∉ c.variables → x ∉ Block.variables b →
    Exec.Beside x v (execLoop n c b : Exec σ Unit) (execLoop n c b)

variable [Sink σ] {x : String} {v : Int64}

theorem at_zero : At σ x v 0 :=
  ⟨fun _ _ => .outOfFuel, fun _ _ => .outOfFuel, fun _ _ _ => .outOfFuel, fun _ _ => .outOfFuel,
    fun _ _ => .outOfFuel, fun _ _ => .outOfFuel, fun _ _ _ _ => .outOfFuel⟩

section Fuel

open Exec.Beside

variable {n : Nat} (ih : At σ x v n)
include ih

theorem expr_succ (e : Expr) (he : x ∉ e.variables) :
    Exec.Beside x v (evalExpr (n + 1) e : Exec σ Int64) (evalExpr (n + 1) e) := by
  cases e with
  | ident y => exact lookup (by simpa [Expr.variables] using he)
  | lit w => exact .pure rfl
  | bin o l r =>
    rw [Expr.variables, List.mem_append, not_or] at he
    exact .bindSame (ih.expr l he.1) fun a => .bindSame (ih.expr r he.2) fun b => apply o a b
  | call f args => exact .ite Iff.rfl (ih.printed args he) (ih.called f args he)

theorem printed_succ (es : List Expr) (hes : x ∉ Expr.listVariables es) :
    Exec.Beside x v (callPrint (n + 1) es : Exec σ Int64) (callPrint (n + 1) es) := by
  cases es with
  | nil => exact .pure rfl
  | cons e es =>
    rw [Expr.listVariables, List.mem_append, not_or] at hes
    refine .bindSame (ih.expr e hes.1) fun w => ?_
    exact .bindSame (emit (.printed w)) fun _ => ih.printed es hes.2

/-- The variable is no parameter of a function that is found, and its body does not mention it. -/
theorem called_succ (f : String) (es : List Expr) (hes : x ∉ Expr.listVariables es) :
    Exec.Beside x v (callFunction (n + 1) f es : Exec σ Int64) (callFunction (n + 1) f es) := by
  refine .bind (resolve f) ?_
  rintro d _ ⟨rfl, hd⟩
  rw [FunDef.variables, List.mem_append, not_or] at hd
  refine .ite Iff.rfl ?_ (.fail _)
  refine .bindSame (ih.args es hes) fun vs => .bindSame (emit _) fun _ => ?_
  refine .bindSame (activate hd.1 vs (ih.block _ hd.2)) fun w => ?_
  exact .bindSame (emit _) fun _ => .pure rfl

theorem args_succ (es : List Expr) (hes : x ∉ Expr.listVariables es) :
    Exec.Beside x v (evalArgs (n + 1) es : Exec σ (List Int64)) (evalArgs (n + 1) es) := by
  cases es with
  | nil => exact .pure rfl
  | cons e es =>
    rw [Expr.listVariables, List.mem_append, not_or] at hes
    refine .bindSame (ih.expr e hes.1) fun w => ?_
    exact .bindSame (ih.args es hes.2) fun ws => .pure rfl

theorem block_succ (b : Block) (hb : x ∉ Block.variables b) :
    Exec.Beside x v (execBlock (n + 1) b : Exec σ Unit) (execBlock (n + 1) b) := by
  cases b with
  | nil => exact .pure rfl
  | cons s b =>
    rw [Block.variables, List.mem_append, not_or] at hb
    refine .bindSame hasResult fun _ => .ite Iff.rfl (.pure rfl) ?_
    exact .bindSame (ih.stmt s hb.1) fun _ => ih.block b hb.2

theorem stmt_succ (s : Stmt) (hs : x ∉ s.variables) :
    Exec.Beside x v (execStmt (n + 1) s : Exec σ Unit) (execStmt (n + 1) s) := by
  refine .bindSame (emit (.began s)) fun _ => ?_
  match s with
  | .function f ps body => exact register f (d := ⟨ps, body⟩) hs
  | .var y none => exact bindVar (by simpa [Stmt.variables] using hs) 0
  | .var y (some e) =>
    rw [Stmt.variables, List.mem_cons, not_or] at hs
    exact .bindSame (ih.expr e hs.2) fun w => bindVar hs.1 w
  | .assign y e =>
    rw [Stmt.variables, List.mem_cons, not_or] at hs
    refine .bindSame (isBound hs.1) fun _ => .ite Iff.rfl ?_ (.fail _)
    exact .bindSame (ih.expr e hs.2) fun w => assign hs.1 w
  | .loop c b =>
    rw [Stmt.variables, List.mem_append, not_or] at hs
    exact ih.loop c b hs.1 hs.2
  | .ifThen c a =>
    rw [Stmt.variables, List.mem_append, not_or] at hs
    exact .bindSame (ih.expr c hs.1) fun _ => .ite Iff.rfl (ih.block a hs.2) (.pure rfl)
  | .ifElse c a b =>
    rw [Stmt.variables, List.mem_append, List.mem_append, not_or, not_or] at hs
    refine .bindSame (ih.expr c hs.1) fun _ => ?_
    exact .ite Iff.rfl (ih.block a hs.2.1) (ih.block b hs.2.2)
  | .ret e => exact .bindSame (ih.expr e hs) fun w => finish w
  | .expr e => exact .bindSame (ih.expr e hs) fun _ => .pure rfl

theorem loop_succ (c : Expr) (b : Block) (hc : x ∉ c.variables) (hb : x ∉ Block.variables b) :
    Exec.Beside x v (execLoop (n + 1) c b : Exec σ Unit) (execLoop (n + 1) c b) := by
  refine .bindSame (ih.expr c hc) fun w => .bindSame (emit (.tested c w)) fun _ => ?_
  refine .ite Iff.rfl ?_ (.pure rfl)
  exact .bindSame (ih.block b hb) fun _ => ih.loop c b hc hb

end Fuel

theorem all (σ : Type) [Sink σ] (x : String) (v : Int64) (n : Nat) : At σ x v n := by
  induction n with
  | zero => exact at_zero
  | succ n ih =>
    exact ⟨expr_succ ih, printed_succ ih, called_succ ih, args_succ ih, block_succ ih, stmt_succ ih,
      loop_succ ih⟩

end Unmentioned

/-! ## Runs -/

/-- **Variables that are not mentioned** cannot influence a run. Let the variable `x` occur neither in
the block `b` nor in any function of the state `s`. With `x` bound to `v`, whatever it was before, the
run of `b` is the same: it has the same terminal value or the same fault, and the state that it reaches
is the same, with the same output and the same functions, except that `x` is still `v` in it. -/
theorem runBlock_unmentioned [Sink σ] {x : String} {b : Block} (hb : x ∉ Block.variables b)
    {s : State σ} (hs : s.functions.Omits x) (v : Int64) (n : Nat) :
    runBlock n b (s.withVar x v) = (runBlock n b s).withVar x v := by
  have hresult : Exec.Beside x v (fun s => .done s.result s : Exec σ (Option Int64))
      (fun s => .done s.result s) :=
    .of_eq (fun _ => rfl) fun _ h => h
  have hrun : Exec.Beside x v (runBlock n b : Exec σ (Option Int64)) (runBlock n b) :=
    .bindSame ((Unmentioned.all σ x v n).block b hb) fun _ => hresult
  exact (hrun s (s.withVar x v) ⟨rfl, hs⟩).eq_withVar

/-- A function that calls one of the table, which prints and faults. -/
theorem runBlock_unmentioned_fault :
    let g : FunDef := ⟨["n"],
      [.expr (.call printName [.ident "n"]), .ret (.bin .div (.ident "y") (.ident "n"))]⟩
    let b : Block := [.function "f" ["y"] [.ret (.call "g" [.lit 0])],
      .var "z" (some (.call "f" [.lit 5]))]
    let s : State Buffer :=
      ⟨(∅ : Vars).insert "x" 1, none, (∅ : FunTable).insert "g" g, Buffer.empty⟩
    "x" ∉ Block.variables b ∧ s.functions.Omits "x" ∧
      ∃ t, runBlock 30 b s = .fault .divisionByZero t ∧ t.sink.text = "0\n" ∧
        runBlock 30 b (s.withVar "x" 8) = .fault .divisionByZero (t.withVar "x" 8) := by
  intro g b s
  have hb : "x" ∉ Block.variables b := by decide
  have hs : s.functions.Omits "x" := (FunTable.omits_empty "x").insert "g" (d := g) (by decide)
  have hrun : ∃ t, runBlock 30 b s = .fault .divisionByZero t ∧ t.sink.text = "0\n" := by
    simp only [s, b, g]
    exact ⟨_, rfl, by decide⟩
  obtain ⟨t, ht, htext⟩ := hrun
  exact ⟨hb, hs, t, ht, htext, by rw [runBlock_unmentioned hb hs 8 30, ht]; rfl⟩

end IntScript
