import IntScript.Eval

/-!
# What evaluation keeps

* `Exec.Keeps R x` : however `x` ends, its last state is related to the first one by `R`;
* `Keeps.bind`, `Keeps.activate`, ... : the steps that runs consist of;
* `Kept E S` : `E` can be kept by expressions and `S` by statements;
* `Kept.At E S n`, `Kept.all` : then they are, with any fuel.
-/

namespace IntScript

variable {σ α β : Type}

/-- However the run ends, its last state is related to its first. -/
def Exec.Keeps (R : State σ → State σ → Prop) (x : Exec σ α) : Prop := ∀ s, R s (x s).state

/-- What a relation between states has to allow to be kept by expressions (`E`) and by statements
(`S`): the steps of either kind, one after the other. -/
structure Kept [Sink σ] (E S : State σ → State σ → Prop) : Prop where
  refl : ∀ s, E s s
  trans : ∀ s t u, E s t → E t u → E s u
  weaken : ∀ s t, E s t → S s t
  transStmt : ∀ s t u, S s t → S t u → S s u
  /-- An event is received. -/
  emit : ∀ s e, E s { s with sink := Sink.receive s.sink e }
  /-- A variable is bound. -/
  bindVar : ∀ s x v, S s { s with vars := s.vars.insert x v }
  /-- A function is registered. -/
  register : ∀ s f d, S s { s with functions := s.functions.insert f d }
  /-- The terminal value is set. -/
  finish : ∀ s v, S s { s with result := some v }
  /-- From an activation, the functions and the sink come back. -/
  activate : ∀ s bindings t, S ⟨s.vars.bindAll bindings, none, s.functions, s.sink⟩ t →
    E s ⟨s.vars, s.result, t.functions, t.sink⟩

namespace Exec.Keeps

variable {R : State σ → State σ → Prop}

theorem bind (htrans : ∀ s t u, R s t → R t u → R s u) {x : Exec σ α} {f : α → Exec σ β}
    (hx : Keeps R x) (hf : ∀ a, Keeps R (f a)) : Keeps R (x >>= f) := by
  intro s
  have h := hx s
  change R s (Exec.bind x f s).state
  unfold Exec.bind
  cases hs : x s with
  | done a t =>
    rw [hs] at h
    exact htrans _ _ _ h (hf a t)
  | fault e t => rwa [hs] at h
  | unfinished t => rwa [hs] at h

theorem ite {c : Prop} [Decidable c] {x y : Exec σ α} (hx : Keeps R x) (hy : Keeps R y) :
    Keeps R (if c then x else y) := by
  split
  · exact hx
  · exact hy

theorem mono {R' : State σ → State σ → Prop} (h : ∀ s t, R s t → R' s t) {x : Exec σ α}
    (hx : Keeps R x) : Keeps R' x :=
  fun s => h _ _ (hx s)

end Exec.Keeps

namespace Kept

variable [Sink σ] {E S : State σ → State σ → Prop}

section Steps

variable (hk : Kept E S)
include hk

theorem pure (a : α) : Exec.Keeps E (Pure.pure a : Exec σ α) := fun s => hk.refl s

theorem fail (e : Fault) : Exec.Keeps E (Exec.fail e : Exec σ α) := fun s => hk.refl s

theorem outOfFuel : Exec.Keeps E (Exec.outOfFuel : Exec σ α) := fun s => hk.refl s

theorem bind {x : Exec σ α} {f : α → Exec σ β} (hx : Exec.Keeps E x)
    (hf : ∀ a, Exec.Keeps E (f a)) : Exec.Keeps E (x >>= f) :=
  .bind hk.trans hx hf

theorem bindStmt {x : Exec σ α} {f : α → Exec σ β} (hx : Exec.Keeps S x)
    (hf : ∀ a, Exec.Keeps S (f a)) : Exec.Keeps S (x >>= f) :=
  .bind hk.transStmt hx hf

theorem emit_keeps (e : Event) : Exec.Keeps E (Exec.emit e : Exec σ Unit) := fun s => hk.emit s e

theorem lookup (x : String) : Exec.Keeps E (Exec.lookup x : Exec σ Int64) := by
  intro s
  unfold Exec.lookup
  split <;> exact hk.refl s

theorem resolve (f : String) : Exec.Keeps E (Exec.resolve f : Exec σ FunDef) := by
  intro s
  unfold Exec.resolve
  split <;> exact hk.refl s

theorem apply (o : Op) (a b : Int64) : Exec.Keeps E (Exec.apply o a b : Exec σ Int64) := by
  intro s
  unfold Exec.apply
  split <;> exact hk.refl s

theorem isBound (x : String) : Exec.Keeps E (Exec.isBound x : Exec σ Bool) := fun s => hk.refl s

theorem hasResult : Exec.Keeps E (Exec.hasResult : Exec σ Bool) := fun s => hk.refl s

theorem bindVar_keeps (x : String) (v : Int64) : Exec.Keeps S (Exec.bindVar x v : Exec σ Unit) :=
  fun s => hk.transStmt _ _ _ (hk.bindVar s x v) (hk.weaken _ _ (hk.emit _ (.bound x v)))

theorem register_keeps (f : String) (d : FunDef) :
    Exec.Keeps S (Exec.register f d : Exec σ Unit) :=
  fun s => hk.transStmt _ _ _ (hk.register s f d) (hk.weaken _ _ (hk.emit _ (.registered f d)))

theorem finish_keeps (v : Int64) : Exec.Keeps S (Exec.finish v : Exec σ Unit) :=
  fun s => hk.transStmt _ _ _ (hk.finish s v) (hk.weaken _ _ (hk.emit _ (.returned v)))

theorem assign (x : String) (v : Int64) : Exec.Keeps S (Exec.assign x v : Exec σ Unit) :=
  hk.bindStmt ((hk.isBound x).mono hk.weaken) fun _ =>
    .ite (hk.bindVar_keeps x v) ((hk.fail _).mono hk.weaken)

theorem activate_keeps (bindings : List (String × Int64)) {body : Exec σ Unit}
    (h : Exec.Keeps S body) : Exec.Keeps E (Exec.activate bindings body) := by
  intro s
  have hb := h ⟨s.vars.bindAll bindings, none, s.functions, s.sink⟩
  have ha := hk.activate s bindings _ hb
  unfold Exec.activate
  cases hs : body ⟨s.vars.bindAll bindings, none, s.functions, s.sink⟩ with
  | done a t | fault e t | unfinished t =>
    simp only [hs]
    rwa [hs] at ha

end Steps

/-- What the evaluator keeps with a given fuel. -/
structure At (E S : State σ → State σ → Prop) (n : Nat) : Prop where
  expr : ∀ e, Exec.Keeps E (evalExpr n e : Exec σ Int64)
  printed : ∀ es, Exec.Keeps E (callPrint n es : Exec σ Int64)
  called : ∀ f es, Exec.Keeps E (callFunction n f es : Exec σ Int64)
  args : ∀ es, Exec.Keeps E (evalArgs n es : Exec σ (List Int64))
  block : ∀ b, Exec.Keeps S (execBlock n b : Exec σ Unit)
  stmt : ∀ s, Exec.Keeps S (execStmt n s : Exec σ Unit)
  loop : ∀ c b, Exec.Keeps S (execLoop n c b : Exec σ Unit)

section Fuel

variable (hk : Kept E S)
include hk

theorem at_zero : At E S 0 := by
  have hstmt : Exec.Keeps S (Exec.outOfFuel : Exec σ Unit) := hk.outOfFuel.mono hk.weaken
  exact ⟨fun _ => hk.outOfFuel, fun _ => hk.outOfFuel, fun _ _ => hk.outOfFuel,
    fun _ => hk.outOfFuel, fun _ => hstmt, fun _ => hstmt, fun _ _ => hstmt⟩

variable {n : Nat} (ih : At E S n)
include ih

theorem expr_succ (e : Expr) : Exec.Keeps E (evalExpr (n + 1) e : Exec σ Int64) := by
  cases e with
  | ident x => exact hk.lookup x
  | lit v => exact hk.pure v
  | bin o l r => exact hk.bind (ih.expr l) fun a => hk.bind (ih.expr r) fun b => hk.apply o a b
  | call f args => exact .ite (ih.printed args) (ih.called f args)

theorem printed_succ (es : List Expr) :
    Exec.Keeps E (callPrint (n + 1) es : Exec σ Int64) := by
  cases es with
  | nil => exact hk.pure 0
  | cons e es =>
    exact hk.bind (ih.expr e) fun v => hk.bind (hk.emit_keeps (.printed v)) fun _ => ih.printed es

/-- The body runs in an activation of its own. -/
theorem called_succ (f : String) (es : List Expr) :
    Exec.Keeps E (callFunction (n + 1) f es : Exec σ Int64) := by
  refine hk.bind (hk.resolve f) fun d => .ite ?_ (hk.fail _)
  refine hk.bind (ih.args es) fun vs => hk.bind (hk.emit_keeps _) fun _ => ?_
  refine hk.bind (hk.activate_keeps _ (ih.block d.body)) fun v => ?_
  exact hk.bind (hk.emit_keeps _) fun _ => hk.pure v

theorem args_succ (es : List Expr) :
    Exec.Keeps E (evalArgs (n + 1) es : Exec σ (List Int64)) := by
  cases es with
  | nil => exact hk.pure []
  | cons e es => exact hk.bind (ih.expr e) fun v => hk.bind (ih.args es) fun vs => hk.pure (v :: vs)

theorem block_succ (b : Block) : Exec.Keeps S (execBlock (n + 1) b : Exec σ Unit) := by
  cases b with
  | nil => exact (hk.pure ()).mono hk.weaken
  | cons s b =>
    refine hk.bindStmt (hk.hasResult.mono hk.weaken) fun _ => .ite ((hk.pure ()).mono hk.weaken) ?_
    exact hk.bindStmt (ih.stmt s) fun _ => ih.block b

theorem stmt_succ (s : Stmt) : Exec.Keeps S (execStmt (n + 1) s : Exec σ Unit) := by
  have hexpr : ∀ e, Exec.Keeps S (evalExpr n e : Exec σ Int64) :=
    fun e => (ih.expr e).mono hk.weaken
  have hskip : Exec.Keeps S (Pure.pure () : Exec σ Unit) := (hk.pure ()).mono hk.weaken
  refine hk.bindStmt ((hk.emit_keeps _).mono hk.weaken) fun _ => ?_
  match s with
  | .function f ps body => exact hk.register_keeps f ⟨ps, body⟩
  | .var x none => exact hk.bindVar_keeps x 0
  | .var x (some e) => exact hk.bindStmt (hexpr e) fun v => hk.bindVar_keeps x v
  | .assign x e =>
    refine hk.bindStmt ((hk.isBound x).mono hk.weaken) fun _ => .ite ?_ ((hk.fail _).mono hk.weaken)
    exact hk.bindStmt (hexpr e) fun v => hk.assign x v
  | .loop c body => exact ih.loop c body
  | .ifThen c a => exact hk.bindStmt (hexpr c) fun _ => .ite (ih.block a) hskip
  | .ifElse c a b => exact hk.bindStmt (hexpr c) fun _ => .ite (ih.block a) (ih.block b)
  | .ret e => exact hk.bindStmt (hexpr e) fun v => hk.finish_keeps v
  | .expr e => exact hk.bindStmt (hexpr e) fun _ => hskip

theorem loop_succ (c : Expr) (b : Block) : Exec.Keeps S (execLoop (n + 1) c b : Exec σ Unit) := by
  refine hk.bindStmt ((ih.expr c).mono hk.weaken) fun v => ?_
  refine hk.bindStmt ((hk.emit_keeps _).mono hk.weaken) fun _ => .ite ?_ ?_
  · exact hk.bindStmt (ih.block b) fun _ => ih.loop c b
  · exact (hk.pure ()).mono hk.weaken

end Fuel

/-- What the steps keep, evaluation keeps at any depth of calls. -/
theorem all (hk : Kept E S) (n : Nat) : At E S n := by
  induction n with
  | zero => exact hk.at_zero
  | succ n ih =>
    exact ⟨hk.expr_succ ih, hk.printed_succ ih, hk.called_succ ih, hk.args_succ ih,
      hk.block_succ ih, hk.stmt_succ ih, hk.loop_succ ih⟩

end Kept

end IntScript
