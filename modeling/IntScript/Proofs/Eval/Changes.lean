import IntScript.Proofs.Eval.Endings
import IntScript.Proofs.Eval.Loops
import IntScript.Proofs.Parts

/-!
# The variables that a block can change

Which variables the execution of a block can change stands in its text, whatever functions it calls:
these have variables of their own.

* `Block.declared`, `Block.assigned` : the variables that a block declares and assigns to, in itself;
* `Block.Changes b m m'` : from `m` to `m'`, a variable is changed only if `b` assigns to it, and bound
  only if `b` declares it;
* `Exec.ChangesAsIn p x` : the run `x` changes what the block `p` can change;
* `Changes.At p n`, `Changes.all` : so does the execution of what is in `p`, with any fuel;
* `execBlock_changes` : so does a block, and an assignment to a bound variable has no fault of its own.
-/

namespace IntScript

variable {σ α β : Type}

/-! ## Declared and assigned variables -/

/-- The variable that the statement itself declares. -/
def Stmt.declared? : Stmt → Option String
  | .var x _ => some x
  | _ => none

/-- The variable that the statement itself assigns to. -/
def Stmt.assigned? : Stmt → Option String
  | .assign x _ => some x
  | _ => none

/-- The variables that the block declares, except in the bodies of functions. -/
def Block.declared (b : Block) : List String := (Block.ownParts b).filterMap Stmt.declared?

/-- The variables that the block assigns to, except in the bodies of functions. -/
def Block.assigned (b : Block) : List String := (Block.ownParts b).filterMap Stmt.assigned?

theorem Block.mem_declared {b : Block} {x : String} {e : Option Expr}
    (h : .var x e ∈ Block.ownParts b) : x ∈ b.declared :=
  List.mem_filterMap.2 ⟨_, h, rfl⟩

theorem Block.mem_assigned {b : Block} {x : String} {e : Expr}
    (h : .assign x e ∈ Block.ownParts b) : x ∈ b.assigned :=
  List.mem_filterMap.2 ⟨_, h, rfl⟩

/-! ## Changes -/

/-- From the variables `m` to the variables `m'`, there is no change but those that the block can
make. -/
structure Block.Changes (b : Block) (m m' : Vars) : Prop where
  /-- The other variables have the same values, or are unbound still. -/
  other : ∀ x, x ∉ b.declared → x ∉ b.assigned → m'[x]? = m[x]?
  stays : ∀ x, x ∈ m → x ∈ m'
  binds : ∀ x, x ∉ m → x ∈ m' → x ∈ b.declared

namespace Block.Changes

variable {b : Block} {m m' m'' : Vars}

theorem refl (b : Block) (m : Vars) : b.Changes m m :=
  ⟨fun _ _ _ => rfl, fun _ h => h, fun _ h h' => absurd h' h⟩

theorem trans (h : b.Changes m m') (h' : b.Changes m' m'') : b.Changes m m'' where
  other x hd ha := (h'.other x hd ha).trans (h.other x hd ha)
  stays x hx := h'.stays x (h.stays x hx)
  binds x hx hx'' := by
    by_cases hx' : x ∈ m'
    · exact h.binds x hx hx'
    · exact h'.binds x hx' hx''

/-- A value for a variable that is declared, or assigned to where it is bound. -/
theorem insert {x : String} (hx : x ∈ b.declared ∨ x ∈ b.assigned ∧ x ∈ m) (v : Int64) :
    b.Changes m (m.insert x v) where
  other y hd ha := by
    have hne : x ≠ y := by
      rintro rfl
      exact hx.elim hd fun h => ha h.1
    exact getElem?_insert_of_ne hne m v
  stays y hy := Std.ExtTreeMap.mem_insert.2 (.inr hy)
  binds y hy hy' := by
    rcases Std.ExtTreeMap.mem_insert.1 hy' with heq | hmem
    · obtain rfl : x = y := Std.LawfulEqCmp.eq_of_compare heq
      exact hx.resolve_right fun h => hy h.2
    · exact absurd hmem hy

end Block.Changes

/-- However the run ends, it has changed what the block `p` can change. -/
def Exec.ChangesAsIn (p : Block) (x : Exec σ α) : Prop :=
  Exec.Keeps (fun s t => p.Changes s.vars t.vars) x

namespace Exec.ChangesAsIn

variable {p : Block}

/-- A run that leaves the variables as they are. -/
theorem of_vars {x : Exec σ α} (h : ∀ s, (x s).state.vars = s.vars) : ChangesAsIn p x := by
  intro s
  rw [h s]
  exact .refl p s.vars

theorem pure (a : α) : ChangesAsIn p (Pure.pure a : Exec σ α) := of_vars fun _ => rfl

theorem fail (e : Fault) : ChangesAsIn p (Exec.fail e : Exec σ α) := of_vars fun _ => rfl

theorem outOfFuel : ChangesAsIn p (Exec.outOfFuel : Exec σ α) := of_vars fun _ => rfl

theorem isBound (x : String) : ChangesAsIn p (Exec.isBound x : Exec σ Bool) := of_vars fun _ => rfl

theorem hasResult : ChangesAsIn p (Exec.hasResult : Exec σ Bool) := of_vars fun _ => rfl

theorem bind {x : Exec σ α} {f : α → Exec σ β} (hx : ChangesAsIn p x)
    (hf : ∀ a, ChangesAsIn p (f a)) : ChangesAsIn p (x >>= f) :=
  Keeps.bind (fun _ _ _ h h' => h.trans h') hx hf

theorem ite {c : Prop} [Decidable c] {x y : Exec σ α} (hx : ChangesAsIn p x)
    (hy : ChangesAsIn p y) : ChangesAsIn p (if c then x else y) :=
  Keeps.ite hx hy

section Sinks

variable [Sink σ]

theorem emit (e : Event) : ChangesAsIn p (Exec.emit e : Exec σ Unit) := of_vars fun _ => rfl

theorem register (f : String) (d : FunDef) : ChangesAsIn p (Exec.register f d : Exec σ Unit) :=
  of_vars fun _ => rfl

theorem finish (v : Int64) : ChangesAsIn p (Exec.finish v : Exec σ Unit) := of_vars fun _ => rfl

theorem bindVar {x : String} (hx : x ∈ p.declared) (v : Int64) :
    ChangesAsIn p (Exec.bindVar x v : Exec σ Unit) :=
  fun _ => .insert (.inl hx) v

/-- An assignment changes a variable that is bound, or nothing. -/
theorem assign {x : String} (hx : x ∈ p.assigned) (v : Int64) :
    ChangesAsIn p (Exec.assign x v : Exec σ Unit) := by
  intro s
  change p.Changes s.vars ((if decide (x ∈ s.vars) then Exec.bindVar x v
    else Exec.fail (.variableNotFound x) : Exec σ Unit) s).state.vars
  split
  · next hbound => exact .insert (.inr ⟨hx, of_decide_eq_true hbound⟩) v
  · exact .refl p s.vars

/-- Whatever an expression calls, the variables are the same after it. -/
theorem evalExpr (n : Nat) (e : Expr) : ChangesAsIn p (evalExpr n e : Exec σ Int64) :=
  of_vars fun s => ((kept_frame.all n).expr e s).vars

end Sinks

end Exec.ChangesAsIn

/-! ## Execution -/

namespace Changes

/-- What the execution of parts of a block changes with a given fuel. -/
structure At (σ : Type) [Sink σ] (p : Block) (n : Nat) : Prop where
  block : ∀ b, Block.ownParts b ⊆ Block.ownParts p →
    Exec.ChangesAsIn p (execBlock n b : Exec σ Unit)
  stmt : ∀ s : Stmt, s.ownParts ⊆ Block.ownParts p →
    Exec.ChangesAsIn p (execStmt n s : Exec σ Unit)
  loop : ∀ c b, Block.ownParts b ⊆ Block.ownParts p →
    Exec.ChangesAsIn p (execLoop n c b : Exec σ Unit)

variable [Sink σ] {p : Block}

section Fuel

variable {n : Nat} (ih : At σ p n)
include ih

theorem block_succ (b : Block) (hb : Block.ownParts b ⊆ Block.ownParts p) :
    Exec.ChangesAsIn p (execBlock (n + 1) b : Exec σ Unit) := by
  cases b with
  | nil => exact .pure ()
  | cons s b =>
    rw [Block.ownParts, List.append_subset] at hb
    refine .bind .hasResult fun _ => .ite (.pure ()) ?_
    exact .bind (ih.stmt s hb.1) fun _ => ih.block b hb.2

theorem stmt_succ (s : Stmt) (hs : s.ownParts ⊆ Block.ownParts p) :
    Exec.ChangesAsIn p (execStmt (n + 1) s : Exec σ Unit) := by
  have hself : s ∈ Block.ownParts p := hs s.self_mem_ownParts
  refine .bind (.emit _) fun _ => ?_
  match s with
  | .function f ps body => exact .register f ⟨ps, body⟩
  | .var x none => exact .bindVar (Block.mem_declared hself) 0
  | .var x (some e) =>
    exact .bind (.evalExpr n e) fun v => .bindVar (Block.mem_declared hself) v
  | .assign x e =>
    refine .bind (.isBound x) fun _ => .ite ?_ (.fail _)
    exact .bind (.evalExpr n e) fun v => .assign (Block.mem_assigned hself) v
  | .loop c b => exact ih.loop c b (List.cons_subset.1 hs).2
  | .ifThen c a =>
    exact .bind (.evalExpr n c) fun _ => .ite (ih.block a (List.cons_subset.1 hs).2) (.pure ())
  | .ifElse c a b =>
    rw [Stmt.ownParts, List.cons_subset, List.append_subset] at hs
    exact .bind (.evalExpr n c) fun _ => .ite (ih.block a hs.2.1) (ih.block b hs.2.2)
  | .ret e => exact .bind (.evalExpr n e) fun v => .finish v
  | .expr e => exact .bind (.evalExpr n e) fun _ => .pure ()

theorem loop_succ (c : Expr) (b : Block) (hb : Block.ownParts b ⊆ Block.ownParts p) :
    Exec.ChangesAsIn p (execLoop (n + 1) c b : Exec σ Unit) := by
  refine .bind (.evalExpr n c) fun v => .bind (.emit _) fun _ => .ite ?_ (.pure ())
  exact .bind (ih.block b hb) fun _ => ih.loop c b hb

end Fuel

theorem all (σ : Type) [Sink σ] (p : Block) (n : Nat) : At σ p n := by
  induction n with
  | zero => exact ⟨fun _ _ => .outOfFuel, fun _ _ => .outOfFuel, fun _ _ _ => .outOfFuel⟩
  | succ n ih => exact ⟨block_succ ih, stmt_succ ih, loop_succ ih⟩

end Changes

/-! ## Assignments -/

section Assignments

variable [Sink σ] {s : State σ} {x : String}

/-- An assignment to a bound variable evaluates the new value and binds the variable to it: after the
evaluation, the variable is bound still. -/
theorem execStmt_assign (hx : x ∈ s.vars) (e : Expr) (n : Nat) :
    execStmt (n + 1) (.assign x e) s =
      (evalExpr n e >>= fun v => Exec.bindVar x v) (s.receive (.began (.assign x e))) := by
  let s' := s.receive (.began (.assign x e))
  change (if decide (x ∈ s.vars) then evalExpr n e >>= fun v => Exec.assign x v
    else Exec.fail (.variableNotFound x) : Exec σ Unit) s' = _
  rw [if_pos (decide_eq_true hx)]
  change Exec.bind (evalExpr n e) (fun v => Exec.assign x v) s' =
    Exec.bind (evalExpr n e) (fun v => Exec.bindVar x v) s'
  unfold Exec.bind
  cases he : evalExpr n e s' with
  | done v t =>
    have hvars : t.vars = s.vars := (Frame.of_evalExpr he).vars
    change (if decide (x ∈ t.vars) then Exec.bindVar x v else Exec.fail (.variableNotFound x)) t = _
    rw [hvars, if_pos (decide_eq_true hx)]
  | fault _ _ | unfinished _ => rfl

/-- The faults of an assignment to a bound variable are those of the new value. -/
theorem endsWith_assign_fault_iff (hx : x ∈ s.vars) (e : Expr) (err : Fault) (t : State σ) :
    EndsWith (execStmt · (.assign x e)) s (.fault err t) ↔
      EndsWith (evalExpr · e) (s.receive (.began (.assign x e))) (.fault err t) := by
  let value : Run σ Int64 := Run.expr e
  let bound : Run σ Unit := value >>= fun v => Run.lift (Exec.bindVar x v)
  have hbound : EndsWith (execStmt · (.assign x e)) s (.fault err t) ↔
      EndsWith bound.withFuel (s.receive (.began (.assign x e))) (.fault err t) :=
    Run.endsWith_iff_of_succ (x := Run.stmt (.assign x e)) (y := bound)
      (fun n => execStmt_assign hx e n) _
  rw [hbound, Run.endsWith_bind_iff]
  constructor
  · rintro (⟨v, u, -, -, n, hn⟩ | ⟨err', t', h, heq⟩)
    · cases hn
    · cases heq
      exact h
  · exact fun h => .inr ⟨err, t, h, rfl⟩

end Assignments

/-- **The variables that a block can change** stand in its text. However far the block `b` is executed
from the state `s`, whether it ends or faults:

* a variable that `b` neither declares nor assigns to has the same value, or is unbound still;
* a variable that was bound is bound still;
* a variable that was unbound and is bound now is declared in `b`.

What functions declared in `b` do to their own variables does not count. So an assignment to a bound
variable has the faults of the new value, and no others. -/
theorem execBlock_changes [Sink σ] (b : Block) (s : State σ) :
    (∀ n, let t := (execBlock n b s).state
      (∀ x, x ∉ b.declared → x ∉ b.assigned → t.vars[x]? = s.vars[x]?) ∧
      (∀ x, x ∈ s.vars → x ∈ t.vars) ∧
      ∀ x, x ∉ s.vars → x ∈ t.vars → x ∈ b.declared) ∧
    ∀ x e, x ∈ s.vars → ∀ err t, EndsWith (execStmt · (.assign x e)) s (.fault err t) ↔
      EndsWith (evalExpr · e) (s.receive (.began (.assign x e))) (.fault err t) := by
  refine ⟨fun n => ?_, fun x e hx err t => endsWith_assign_fault_iff hx e err t⟩
  have h := (Changes.all σ b n).block b (fun _ h => h) s
  exact ⟨h.other, h.stays, h.binds⟩

/-- A function that declares and assigns to variables of the same names, then a fault in an
assignment, which leaves its variable as it was. -/
theorem execBlock_changes_fault :
    let f : Stmt := .function "f" ["y"] [.var "z" none, .assign "y" (.lit 5), .assign "x" (.lit 9)]
    let e : Expr := .bin .div (.lit 1) (.call "f" [.lit 1])
    let b : Block := [f, .var "w" (some (.lit 2)), .ifThen (.ident "w") [.assign "x" e]]
    let s : State Buffer :=
      { State.fresh Buffer.empty with vars := ((∅ : Vars).insert "x" 3).insert "y" 4 }
    let t := (execBlock 30 b s).state
    (∃ u, execBlock 30 b s = .fault .divisionByZero u) ∧
      ("y" ∉ b.declared ∧ "y" ∉ b.assigned ∧ t.vars["y"]? = some 4) ∧
      ("x" ∈ s.vars ∧ "x" ∈ t.vars) ∧
      ("w" ∉ s.vars ∧ "w" ∈ t.vars ∧ "w" ∈ b.declared) ∧
      ∃ u, EndsWith (execStmt · (.assign "x" e)) t (.fault .divisionByZero u) ∧
        EndsWith (evalExpr · e) (t.receive (.began (.assign "x" e))) (.fault .divisionByZero u) := by
  intro f e b s t
  obtain ⟨hchanges, -⟩ := execBlock_changes b s
  obtain ⟨hother, hstays, hbinds⟩ := hchanges 30
  have hfault : ∃ u, execBlock 30 b s = .fault .divisionByZero u := ⟨_, rfl⟩
  have hyd : "y" ∉ b.declared := by decide
  have hya : "y" ∉ b.assigned := by decide
  have hx : "x" ∈ s.vars := by decide
  have hws : "w" ∉ s.vars := by decide
  have hwt : "w" ∈ t.vars := by decide
  -- The assignment that has faulted faults again.
  have hagain : ∃ u, EndsWith (execStmt · (.assign "x" e)) t (.fault .divisionByZero u) :=
    ⟨_, Outcome.ended_fault _ _, 30, rfl⟩
  obtain ⟨u, hu⟩ := hagain
  have hvalue := ((execBlock_changes b t).2 "x" e (hstays "x" hx) _ u).1 hu
  exact ⟨hfault, ⟨hyd, hya, hother "y" hyd hya⟩, ⟨hx, hstays "x" hx⟩,
    ⟨hws, hwt, hbinds "w" hws hwt⟩, u, hu, hvalue⟩

end IntScript
