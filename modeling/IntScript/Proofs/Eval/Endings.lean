import IntScript.Proofs.Eval.Course
import IntScript.Proofs.Eval.Fuel

/-!
# How runs end

With enough fuel, a run ends in one way, or it never ends.

* `EndsWith x s o` : with enough fuel, the run `x` from the state `s` ends with the outcome `o`;
* `Run σ α` : a run with any fuel, a monad; `Run.expr`, `Run.block`, `Run.stmt`, `Run.loop`,
  `Run.program` are those of evaluation;
* `Run.endsWith_iff_eq`, `Run.eventually` : a run that ends does so in one way, and with any fuel from
  some amount on;
* `Run.endsWith_bind_iff` : the ends of two runs, one after the other;
* `Run.Same s x y` : from `s`, two runs end in the same ways (`Same.bind`);
* `Run.block_of_result`, `Run.block_cons` : what a block does with and without a terminal value;
* `Run.block_congr_left`, `Run.block_congr_right` : parts of a block are exchanged.
-/

namespace IntScript

variable {σ α β : Type}

/-- With enough fuel, the run from the state `s` ends with the outcome `o`. -/
def EndsWith (x : Nat → Exec σ α) (s : State σ) (o : Outcome σ α) : Prop :=
  o.Ended ∧ ∃ n, x n s = o

/-- A run with any fuel. More fuel does not change how it ends. -/
@[ext] structure Run (σ α : Type) where
  /-- The run with a given fuel. -/
  withFuel : Nat → Exec σ α
  stable : ∀ {n m}, n ≤ m → (withFuel n).Approximates (withFuel m)

namespace Run

/-- A run that takes no fuel. -/
def lift (x : Exec σ α) : Run σ α := ⟨fun _ => x, fun _ => .refl x⟩

instance : Monad (Run σ) where
  pure a := lift (pure a)
  bind x f := ⟨fun n => x.withFuel n >>= fun a => (f a).withFuel n,
    fun h => .bind (x.stable h) fun a => (f a).stable h⟩

theorem withFuel_bind (x : Run σ α) (f : α → Run σ β) (n : Nat) :
    (x >>= f).withFuel n = x.withFuel n >>= fun a => (f a).withFuel n := rfl

theorem withFuel_ite (c : Prop) [Decidable c] (x y : Run σ α) (n : Nat) :
    (if c then x else y).withFuel n = if c then x.withFuel n else y.withFuel n :=
  apply_ite (Run.withFuel · n) c x y

instance : LawfulMonad (Run σ) :=
  LawfulMonad.mk' _
    (fun x => Run.ext (funext fun n => bind_pure (x.withFuel n)))
    (fun _ _ => rfl)
    (fun x f g => Run.ext (funext fun n => bind_assoc (x.withFuel n) _ _))

/-- A run ends in one way only. -/
theorem endsWith_unique (x : Run σ α) {s : State σ} {o o' : Outcome σ α}
    (h : EndsWith x.withFuel s o) (h' : EndsWith x.withFuel s o') : o = o' := by
  obtain ⟨ho, n, rfl⟩ := h
  obtain ⟨ho', m, rfl⟩ := h'
  exact Exec.Approximates.unique x.stable ho ho'

/-- A run that ends does so in one way. -/
theorem endsWith_iff_eq (x : Run σ α) {s : State σ} {o : Outcome σ α} (h : EndsWith x.withFuel s o)
    (o' : Outcome σ α) : EndsWith x.withFuel s o' ↔ o' = o :=
  ⟨fun h' => endsWith_unique x h' h, fun ho => ho ▸ h⟩

/-- A run that ends does so with any fuel from some amount on. -/
theorem eventually (x : Run σ α) {s : State σ} {o : Outcome σ α} (h : EndsWith x.withFuel s o) :
    ∃ n, ∀ m ≥ n, x.withFuel m s = o := by
  obtain ⟨ho, n, rfl⟩ := h
  exact ⟨n, fun m hm => x.stable hm s ho⟩

/-- What takes no fuel ends with its outcome. -/
theorem endsWith_lift {x : Exec σ α} {s : State σ} (h : (x s).Ended) :
    EndsWith (lift x).withFuel s (x s) :=
  ⟨h, 0, rfl⟩

theorem endsWith_lift_of_done {x : Exec σ α} {s t : State σ} {a : α} (h : x s = .done a t) :
    EndsWith (lift x).withFuel s (.done a t) :=
  ⟨Outcome.ended_done a t, 0, h⟩

theorem endsWith_pure (a : α) (s : State σ) : EndsWith (pure a : Run σ α).withFuel s (.done a s) :=
  endsWith_lift_of_done rfl

theorem endsWith_pure_iff (a : α) (s : State σ) (o : Outcome σ α) :
    EndsWith (pure a : Run σ α).withFuel s o ↔ o = .done a s :=
  endsWith_iff_eq (pure a) (endsWith_pure a s) o

/-- Two runs end with what the second one ends with, or with the fault of the first one. -/
theorem endsWith_bind_iff (x : Run σ α) (f : α → Run σ β) (s : State σ) (o : Outcome σ β) :
    EndsWith (x >>= f).withFuel s o ↔
      (∃ a t, EndsWith x.withFuel s (.done a t) ∧ EndsWith (f a).withFuel t o) ∨
      ∃ e t, EndsWith x.withFuel s (.fault e t) ∧ o = .fault e t := by
  constructor
  · rintro ⟨ho, n, rfl⟩
    change (Exec.bind (x.withFuel n) _ s).Ended at ho
    change (∃ a t, _ ∧ EndsWith (f a).withFuel t (Exec.bind (x.withFuel n) _ s)) ∨
      ∃ e t, _ ∧ Exec.bind (x.withFuel n) _ s = _
    unfold Exec.bind at ho ⊢
    cases hx : x.withFuel n s with
    | done a t =>
      rw [hx] at ho
      exact .inl ⟨a, t, ⟨Outcome.ended_done a t, n, hx⟩, ho, n, rfl⟩
    | fault e t => exact .inr ⟨e, t, ⟨Outcome.ended_fault e t, n, hx⟩, rfl⟩
    | unfinished t =>
      rw [hx] at ho
      exact absurd ho (Outcome.not_ended_unfinished t)
  · rintro (⟨a, t, ⟨hd, n, hn⟩, ho, m, rfl⟩ | ⟨e, t, ⟨hd, n, hn⟩, rfl⟩)
    · refine ⟨ho, max n m, ?_⟩
      have hx : x.withFuel (max n m) s = .done a t := by
        rw [x.stable (Nat.le_max_left n m) s (hn ▸ hd), hn]
      change Exec.bind (x.withFuel (max n m)) _ s = _
      simp only [Exec.bind, hx]
      exact (f a).stable (Nat.le_max_right n m) t ho
    · refine ⟨Outcome.ended_fault e t, n, ?_⟩
      change Exec.bind (x.withFuel n) _ s = _
      simp only [Exec.bind, hn]

/-- If the first run comes to its end, then the two runs end as the second one does. -/
theorem endsWith_bind_of_done {x : Run σ α} {f : α → Run σ β} {s t : State σ} {a : α}
    (h : EndsWith x.withFuel s (.done a t)) (o : Outcome σ β) :
    EndsWith (x >>= f).withFuel s o ↔ EndsWith (f a).withFuel t o := by
  rw [endsWith_bind_iff]
  constructor
  · rintro (⟨a', t', h', ho⟩ | ⟨e, t', h', -⟩)
    · cases endsWith_unique x h h'
      exact ho
    · cases endsWith_unique x h h'
  · exact fun ho => .inl ⟨a, t, h, ho⟩

/-- A run that goes on from the state `t` after its first unit of fuel ends as it does from there. -/
theorem endsWith_iff_of_succ {x y : Run σ α} {s t : State σ}
    (h : ∀ n, x.withFuel (n + 1) s = y.withFuel n t) (o : Outcome σ α) :
    EndsWith x.withFuel s o ↔ EndsWith y.withFuel t o := by
  constructor
  · rintro ⟨ho, n, rfl⟩
    exact ⟨ho, n, by rw [← h, x.stable (Nat.le_succ n) s ho]⟩
  · rintro ⟨ho, n, rfl⟩
    exact ⟨ho, n + 1, h n⟩

/-! ## Runs that end in the same ways -/

/-- From the state `s`, the two runs end with the same outcomes. -/
def Same (s : State σ) (x y : Run σ α) : Prop :=
  ∀ o, EndsWith x.withFuel s o ↔ EndsWith y.withFuel s o

namespace Same

variable {s : State σ} {x y z : Run σ α}

theorem refl (s : State σ) (x : Run σ α) : Same s x x := fun _ => Iff.rfl

theorem symm (h : Same s x y) : Same s y x := fun o => (h o).symm

theorem trans (h : Same s x y) (h' : Same s y z) : Same s x z := fun o => (h o).trans (h' o)

instance : Trans (Same (α := α) s) (Same s) (Same s) := ⟨trans⟩

/-- A unit of fuel for the step into a run does not change how it ends. -/
theorem of_succ (h : ∀ n, x.withFuel (n + 1) s = y.withFuel n s) : Same s x y :=
  endsWith_iff_of_succ h

/-- What follows has to end in the same ways from where the first run can end. -/
theorem bind {f g : α → Run σ β} (h : Same s x y)
    (hf : ∀ a t, EndsWith x.withFuel s (.done a t) → Same t (f a) (g a)) :
    Same s (x >>= f) (y >>= g) := by
  intro o
  rw [endsWith_bind_iff, endsWith_bind_iff]
  constructor
  · rintro (⟨a, t, hx, ho⟩ | ⟨e, t, hx, rfl⟩)
    · exact .inl ⟨a, t, (h _).1 hx, (hf a t hx o).1 ho⟩
    · exact .inr ⟨e, t, (h _).1 hx, rfl⟩
  · rintro (⟨a, t, hy, ho⟩ | ⟨e, t, hy, rfl⟩)
    · have hx := (h _).2 hy
      exact .inl ⟨a, t, hx, (hf a t hx o).2 ho⟩
    · exact .inr ⟨e, t, (h _).2 hy, rfl⟩

/-- The first run is the same. -/
theorem bindRight {f g : α → Run σ β} (hf : ∀ a t, Same t (f a) (g a)) :
    Same s (x >>= f) (x >>= g) :=
  bind (refl s x) fun a t _ => hf a t

/-- What follows is the same. -/
theorem bindLeft (h : Same s x y) (f : α → Run σ β) : Same s (x >>= f) (y >>= f) :=
  bind h fun a t _ => refl t (f a)

theorem ite {c : Prop} [Decidable c] {x' y' : Run σ α} (h : c → Same s x y)
    (h' : ¬c → Same s x' y') : Same s (if c then x else x') (if c then y else y') := by
  split
  · next hc => exact h hc
  · next hc => exact h' hc

end Same

/-! ## Evaluation -/

section Evaluation

variable [Sink σ]

/-- The evaluation of an expression. -/
def expr (e : Expr) : Run σ Int64 := ⟨fun n => evalExpr n e, evalExpr_approximates e⟩

/-- The execution of a block. -/
def block (b : Block) : Run σ Unit := ⟨fun n => execBlock n b, execBlock_approximates b⟩

/-- The execution of a statement. -/
def stmt (st : Stmt) : Run σ Unit :=
  ⟨fun n => execStmt n st, .of_le fun n => (Fuel.all σ n).stmt st⟩

/-- The execution of a loop. -/
def loop (c : Expr) (b : Block) : Run σ Unit := ⟨fun n => execLoop n c b, execLoop_approximates c b⟩

/-- The run of a block. -/
def program (b : Block) : Run σ (Option Int64) := ⟨fun n => runBlock n b, runBlock_approximates b⟩

variable {s : State σ}

/-- With a terminal value, a block does nothing. -/
theorem block_of_result (hs : s.result ≠ none) (b : Block) : Same s (block b) (pure ()) :=
  .of_succ fun n => execBlock_of_result hs n b

theorem block_nil (s : State σ) : Same s (block []) (pure ()) := .of_succ fun _ => rfl

/-- Without a terminal value, a block executes its first statement and then the others. -/
theorem block_cons (hs : s.result = none) (st : Stmt) (b : Block) :
    Same s (block (st :: b)) (do stmt st; block b) := by
  refine .of_succ fun n => ?_
  change (if s.result.isSome then pure () else do execStmt n st; execBlock n b : Exec σ Unit) s = _
  rw [hs]
  rfl

/-- A block of one statement is the statement. -/
theorem block_single (hs : s.result = none) (st : Stmt) : Same s (block [st]) (stmt st) :=
  calc
    Same s (block [st]) (do stmt st; block []) := block_cons hs st []
    Same s _ (do stmt st; pure ()) := .bindRight fun _ t => block_nil t
    _ = stmt st := bind_pure_unit

/-- Blocks are the same if they are so without a terminal value. -/
theorem block_same {p q : Block}
    (h : s.result = none → Same s (block p) (block q)) : Same s (block p) (block q) := by
  by_cases hs : s.result = none
  · exact h hs
  · exact (block_of_result hs p).trans (block_of_result hs q).symm

/-- The first statement of a block can be exchanged for another one that ends in the same ways. -/
theorem block_congr_left {st st' : Stmt} (h : Same s (stmt st) (stmt st')) (b : Block) :
    Same s (block (st :: b)) (block (st' :: b)) :=
  block_same fun hs =>
    calc
      Same s (block (st :: b)) (do stmt st; block b) := block_cons hs st b
      Same s _ (do stmt st'; block b) := h.bindLeft _
      Same s _ (block (st' :: b)) := (block_cons hs st' b).symm

/-- The rest of a block can be exchanged for another one that ends in the same ways. -/
theorem block_congr_right (st : Stmt) {p q : Block}
    (h : ∀ t, EndsWith (stmt st).withFuel s (.done () t) → Same t (block p) (block q)) :
    Same s (block (st :: p)) (block (st :: q)) :=
  block_same fun hs =>
    calc
      Same s (block (st :: p)) (do stmt st; block p) := block_cons hs st p
      Same s _ (do stmt st; block q) := .bind (.refl s _) fun _ t => h t
      Same s _ (block (st :: q)) := (block_cons hs st q).symm

end Evaluation

end Run

end IntScript
