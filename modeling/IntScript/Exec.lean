import IntScript.Binding
import IntScript.Fault
import IntScript.Sink

/-!
# Running with a state

* `State σ` : the variables and the terminal value of an activation, the functions, and a sink;
* `Outcome σ α` : how a run ends, always with the state that it has reached;
* `Exec σ α` : runs that give a value of type `α`, a monad;
* `Exec.lookup`, `Exec.bindVar`, `Exec.assign`, `Exec.register`, `Exec.resolve`, `Exec.finish`,
  `Exec.print` : the steps that runs consist of;
* `Exec.activate` : a run in an activation of its own.
-/

namespace IntScript

/-- The state of a run. -/
structure State (σ : Type) where
  /-- The variables of the activation. -/
  vars : Vars
  /-- The terminal value of the activation: what its first `return` has given. -/
  result : Option Int64
  /-- The functions, shared by all activations. -/
  functions : FunTable
  sink : σ

/-- How a run ends, and the state that it has reached. -/
inductive Outcome (σ α : Type) where
  | done (value : α) (state : State σ)
  | fault (fault : Fault) (state : State σ)
  /-- The fuel did not suffice. -/
  | unfinished (state : State σ)

/-- The state that was reached. -/
def Outcome.state {σ α : Type} : Outcome σ α → State σ
  | .done _ s => s
  | .fault _ s => s
  | .unfinished s => s

/-- A run that gives a value of type `α`. -/
def Exec (σ α : Type) : Type := State σ → Outcome σ α

namespace Exec

variable {σ α β : Type}

/-- Gives a value and leaves the state as it is. -/
@[inline] protected def pure (a : α) : Exec σ α := fun s => .done a s

/-- Goes on with the value of a run, if it has one. -/
@[inline] protected def bind (x : Exec σ α) (f : α → Exec σ β) : Exec σ β := fun s =>
  match x s with
  | .done a s => f a s
  | .fault e s => .fault e s
  | .unfinished s => .unfinished s

@[always_inline] instance : Monad (Exec σ) where
  pure := Exec.pure
  bind := Exec.bind

protected theorem bind_pure (x : Exec σ α) : Exec.bind x Exec.pure = x := by
  funext s
  simp only [Exec.bind, Exec.pure]
  cases x s <;> rfl

protected theorem bind_assoc {γ : Type} (x : Exec σ α) (f : α → Exec σ β) (g : β → Exec σ γ) :
    Exec.bind (Exec.bind x f) g = Exec.bind x fun a => Exec.bind (f a) g := by
  funext s
  simp only [Exec.bind]
  cases x s <;> rfl

instance : LawfulMonad (Exec σ) :=
  LawfulMonad.mk' _ Exec.bind_pure (fun _ _ => rfl) Exec.bind_assoc

/-- Stops with a fault. -/
@[inline] def fail (e : Fault) : Exec σ α := fun s => .fault e s

/-- Stops for want of fuel. -/
@[inline] def outOfFuel : Exec σ α := fun s => .unfinished s

/-- Reports an event. -/
@[inline] def emit [Sink σ] (e : Event) : Exec σ Unit := fun ⟨vars, result, functions, sink⟩ =>
  .done () ⟨vars, result, functions, Sink.receive sink e⟩

/-! ## Variables -/

/-- Whether a variable is bound. -/
@[inline] def isBound (x : String) : Exec σ Bool := fun s => .done (decide (x ∈ s.vars)) s

/-- The value of a variable that has to be bound. -/
@[inline] def lookup (x : String) : Exec σ Int64 := fun s =>
  match s.vars[x]? with
  | some v => .done v s
  | none => .fault (.variableNotFound x) s

/-- Binds a variable, whether it is bound or not. -/
@[inline] def bindVar [Sink σ] (x : String) (v : Int64) : Exec σ Unit :=
  fun ⟨vars, result, functions, sink⟩ =>
    .done () ⟨vars.insert x v, result, functions, Sink.receive sink (.bound x v)⟩

/-- Changes a variable that has to be bound. -/
@[inline] def assign [Sink σ] (x : String) (v : Int64) : Exec σ Unit := do
  if ← isBound x then bindVar x v else fail (.variableNotFound x)

/-! ## Functions -/

/-- Registers a function; the last registration of a name counts. -/
@[inline] def register [Sink σ] (f : String) (d : FunDef) : Exec σ Unit :=
  fun ⟨vars, result, functions, sink⟩ =>
    .done () ⟨vars, result, functions.insert f d, Sink.receive sink (.registered f d)⟩

/-- The function of a name, which has to be registered. -/
@[inline] def resolve (f : String) : Exec σ FunDef := fun s =>
  match s.functions[f]? with
  | some d => .done d s
  | none => .fault (.functionNotFound f) s

/-! ## Values and output -/

/-- The value of an operation. -/
@[inline] def apply (op : Op) (a b : Int64) : Exec σ Int64 := fun s =>
  match op.apply a b with
  | some v => .done v s
  | none => .fault .divisionByZero s

/-- Whether the terminal value is set. -/
@[inline] def hasResult : Exec σ Bool := fun s => .done s.result.isSome s

/-- Sets the terminal value. -/
@[inline] def finish [Sink σ] (v : Int64) : Exec σ Unit := fun ⟨vars, _, functions, sink⟩ =>
  .done () ⟨vars, some v, functions, Sink.receive sink (.returned v)⟩

/-- Prints a value. -/
@[inline] def print [Sink σ] (v : Int64) : Exec σ Unit := emit (.printed v)

/-! ## Activations -/

/-- Runs `body` in a new activation, with copies of the variables overridden by the bindings, and
gives its terminal value, or zero. However the run ends, the variables and the terminal value
around it are those from before. -/
@[inline] def activate (bindings : List (String × Int64)) (body : Exec σ Unit) : Exec σ Int64 :=
  fun ⟨vars, result, functions, sink⟩ =>
    match body ⟨vars.bindAll bindings, none, functions, sink⟩ with
    | .done () s => .done (s.result.getD 0) ⟨vars, result, s.functions, s.sink⟩
    | .fault e s => .fault e ⟨vars, result, s.functions, s.sink⟩
    | .unfinished s => .unfinished ⟨vars, result, s.functions, s.sink⟩

end Exec

end IntScript
