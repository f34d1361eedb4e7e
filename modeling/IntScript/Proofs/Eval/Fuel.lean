import IntScript.Run

/-!
# Fuel

* `Outcome.Ended` : the end of a run, with a value or a fault;
* `Exec.Approximates x y` : where `x` ends, `y` is the same run;
* `Fuel.At n`, `Fuel.all` : what is evaluated with fuel `n` approximates the same with fuel `n + 1`;
* `evalExpr_approximates`, `execBlock_approximates`, `execLoop_approximates`,
  `runBlock_approximates` : and the same with any more fuel, so that a run ends in one way only
  (`Approximates.unique`).
-/

namespace IntScript

variable {σ α β : Type}

/-- A run has come to its end, with a value or with a fault. -/
def Outcome.Ended (o : Outcome σ α) : Prop := ∀ s, o ≠ .unfinished s

namespace Outcome

theorem ended_done (a : α) (s : State σ) : (done a s).Ended := nofun

theorem ended_fault (e : Fault) (s : State σ) : (fault e s : Outcome σ α).Ended := nofun

theorem not_ended_unfinished (s : State σ) : ¬(unfinished s : Outcome σ α).Ended :=
  fun h => h s rfl

/-- The end of a run is a value or a fault. -/
theorem Ended.cases {o : Outcome σ α} (h : o.Ended) :
    (∃ a s, o = .done a s) ∨ ∃ e s, o = .fault e s := by
  cases o with
  | done a s => exact .inl ⟨a, s, rfl⟩
  | fault e s => exact .inr ⟨e, s, rfl⟩
  | unfinished s => exact absurd h (not_ended_unfinished s)

end Outcome

/-- Where the first run ends, the second one ends in the same way. -/
def Exec.Approximates (x y : Exec σ α) : Prop := ∀ s, (x s).Ended → y s = x s

namespace Exec.Approximates

theorem refl (x : Exec σ α) : Approximates x x := fun _ _ => rfl

theorem trans {x y z : Exec σ α} (h : Approximates x y) (h' : Approximates y z) :
    Approximates x z := by
  intro s hs
  have hy := h s hs
  rw [h' s (hy ▸ hs), hy]

theorem outOfFuel (x : Exec σ α) : Approximates Exec.outOfFuel x :=
  fun s hs => absurd hs (Outcome.not_ended_unfinished s)

theorem bind {x y : Exec σ α} {f g : α → Exec σ β} (h : Approximates x y)
    (hf : ∀ a, Approximates (f a) (g a)) : Approximates (x >>= f) (y >>= g) := by
  intro s hs
  change (Exec.bind x f s).Ended at hs
  change Exec.bind y g s = Exec.bind x f s
  have hxy := h s
  unfold Exec.bind at hs ⊢
  cases hx : x s with
  | done a t =>
    rw [hx] at hxy hs
    rw [hxy (Outcome.ended_done a t)]
    exact hf a t hs
  | fault e t =>
    rw [hx] at hxy
    rw [hxy (Outcome.ended_fault e t)]
  | unfinished t =>
    rw [hx] at hs
    exact absurd hs (Outcome.not_ended_unfinished t)

theorem ite {c : Prop} [Decidable c] {x x' y y' : Exec σ α} (h : Approximates x y)
    (h' : Approximates x' y') :
    Approximates (if c then x else x') (if c then y else y') := by
  split
  · exact h
  · exact h'

theorem activate (bindings : List (String × Int64)) {x y : Exec σ Unit} (h : Approximates x y) :
    Approximates (Exec.activate bindings x) (Exec.activate bindings y) := by
  intro s hs
  have hxy := h ⟨s.vars.bindAll bindings, none, s.functions, s.sink⟩
  unfold Exec.activate at hs ⊢
  cases hx : x ⟨s.vars.bindAll bindings, none, s.functions, s.sink⟩ with
  | done a t =>
    rw [hx] at hxy
    simp only [hxy (Outcome.ended_done a t), hx]
  | fault e t =>
    rw [hx] at hxy
    simp only [hxy (Outcome.ended_fault e t), hx]
  | unfinished t =>
    simp only [hx] at hs
    exact absurd hs (Outcome.not_ended_unfinished _)

/-- Runs that approximate the next one approximate every later one. -/
theorem of_le {x : Nat → Exec σ α} (h : ∀ n, Approximates (x n) (x (n + 1))) {n m : Nat}
    (hnm : n ≤ m) : Approximates (x n) (x m) := by
  induction hnm with
  | refl => exact refl _
  | step _ ih => exact ih.trans (h _)

/-- Runs that approximate all later ones end in one way only. -/
theorem unique {x : Nat → Exec σ α} (h : ∀ {n m}, n ≤ m → Approximates (x n) (x m)) {n m : Nat}
    {s : State σ} (hn : (x n s).Ended) (hm : (x m s).Ended) : x n s = x m s := by
  rw [← h (Nat.le_max_left n m) s hn, h (Nat.le_max_right n m) s hm]

end Exec.Approximates

/-! ## Evaluation -/

namespace Fuel

open Exec.Approximates

/-- What is evaluated with a given fuel approximates the same with one more. -/
structure At (σ : Type) [Sink σ] (n : Nat) : Prop where
  expr : ∀ e, Exec.Approximates (evalExpr n e : Exec σ Int64) (evalExpr (n + 1) e)
  printed : ∀ es, Exec.Approximates (callPrint n es : Exec σ Int64) (callPrint (n + 1) es)
  called : ∀ f es,
    Exec.Approximates (callFunction n f es : Exec σ Int64) (callFunction (n + 1) f es)
  args : ∀ es, Exec.Approximates (evalArgs n es : Exec σ (List Int64)) (evalArgs (n + 1) es)
  block : ∀ b, Exec.Approximates (execBlock n b : Exec σ Unit) (execBlock (n + 1) b)
  stmt : ∀ s, Exec.Approximates (execStmt n s : Exec σ Unit) (execStmt (n + 1) s)
  loop : ∀ c b, Exec.Approximates (execLoop n c b : Exec σ Unit) (execLoop (n + 1) c b)

variable [Sink σ]

theorem at_zero : At σ 0 :=
  ⟨fun _ => outOfFuel _, fun _ => outOfFuel _, fun _ _ => outOfFuel _, fun _ => outOfFuel _,
    fun _ => outOfFuel _, fun _ => outOfFuel _, fun _ _ => outOfFuel _⟩

section Succ

variable {n : Nat} (ih : At σ n)
include ih

theorem expr_succ (e : Expr) :
    Exec.Approximates (evalExpr (n + 1) e : Exec σ Int64) (evalExpr (n + 2) e) := by
  cases e with
  | ident x => exact refl _
  | lit v => exact refl _
  | bin o l r => exact .bind (ih.expr l) fun _ => .bind (ih.expr r) fun _ => refl _
  | call f args => exact .ite (ih.printed args) (ih.called f args)

theorem printed_succ (es : List Expr) :
    Exec.Approximates (callPrint (n + 1) es : Exec σ Int64) (callPrint (n + 2) es) := by
  cases es with
  | nil => exact refl _
  | cons e es => exact .bind (ih.expr e) fun _ => .bind (refl _) fun _ => ih.printed es

theorem called_succ (f : String) (es : List Expr) :
    Exec.Approximates (callFunction (n + 1) f es : Exec σ Int64) (callFunction (n + 2) f es) := by
  refine .bind (refl _) fun d => .ite ?_ (refl _)
  refine .bind (ih.args es) fun vs => .bind (refl _) fun _ => ?_
  exact .bind (.activate _ (ih.block d.body)) fun _ => refl _

theorem args_succ (es : List Expr) :
    Exec.Approximates (evalArgs (n + 1) es : Exec σ (List Int64)) (evalArgs (n + 2) es) := by
  cases es with
  | nil => exact refl _
  | cons e es => exact .bind (ih.expr e) fun _ => .bind (ih.args es) fun _ => refl _

theorem block_succ (b : Block) :
    Exec.Approximates (execBlock (n + 1) b : Exec σ Unit) (execBlock (n + 2) b) := by
  cases b with
  | nil => exact refl _
  | cons s b =>
    exact .bind (refl _) fun _ => .ite (refl _) (.bind (ih.stmt s) fun _ => ih.block b)

theorem stmt_succ (s : Stmt) :
    Exec.Approximates (execStmt (n + 1) s : Exec σ Unit) (execStmt (n + 2) s) := by
  refine .bind (refl _) fun _ => ?_
  match s with
  | .function _ _ _ | .var _ none => exact refl _
  | .var x (some e) => exact .bind (ih.expr e) fun _ => refl _
  | .assign x e =>
    exact .bind (refl _) fun _ => .ite (.bind (ih.expr e) fun _ => refl _) (refl _)
  | .loop c body => exact ih.loop c body
  | .ifThen c a => exact .bind (ih.expr c) fun _ => .ite (ih.block a) (refl _)
  | .ifElse c a b => exact .bind (ih.expr c) fun _ => .ite (ih.block a) (ih.block b)
  | .ret e => exact .bind (ih.expr e) fun _ => refl _
  | .expr e => exact .bind (ih.expr e) fun _ => refl _

theorem loop_succ (c : Expr) (b : Block) :
    Exec.Approximates (execLoop (n + 1) c b : Exec σ Unit) (execLoop (n + 2) c b) := by
  refine .bind (ih.expr c) fun _ => .bind (refl _) fun _ => .ite ?_ (refl _)
  exact .bind (ih.block b) fun _ => ih.loop c b

end Succ

theorem all (σ : Type) [Sink σ] (n : Nat) : At σ n := by
  induction n with
  | zero => exact at_zero
  | succ n ih =>
    exact ⟨expr_succ ih, printed_succ ih, called_succ ih, args_succ ih, block_succ ih, stmt_succ ih,
      loop_succ ih⟩

end Fuel

/-! ## More fuel -/

section More

variable [Sink σ] {n m : Nat}

theorem evalExpr_approximates (e : Expr) (h : n ≤ m) :
    Exec.Approximates (evalExpr n e : Exec σ Int64) (evalExpr m e) :=
  .of_le (fun n => (Fuel.all σ n).expr e) h

theorem execBlock_approximates (b : Block) (h : n ≤ m) :
    Exec.Approximates (execBlock n b : Exec σ Unit) (execBlock m b) :=
  .of_le (fun n => (Fuel.all σ n).block b) h

theorem execLoop_approximates (c : Expr) (b : Block) (h : n ≤ m) :
    Exec.Approximates (execLoop n c b : Exec σ Unit) (execLoop m c b) :=
  .of_le (fun n => (Fuel.all σ n).loop c b) h

theorem runBlock_approximates (b : Block) (h : n ≤ m) :
    Exec.Approximates (runBlock n b : Exec σ (Option Int64)) (runBlock m b) :=
  .bind (execBlock_approximates b h) fun _ => .refl _

end More

end IntScript
