import IntScript.Eval

/-!
# The events of a run

* `State.withSink`, `Outcome.withSink` : the same with another sink;
* `Event.registration?` : an executed declaration registers its function, `FunTable.registerAll`
  registers one function after the other, `latest` is the last one of a name
  (`FunTable.getElem?_registerAll`);
* `Exec.Reports x y s es` : from `s`, the run `x` reports the events `es`, registers the functions
  that they declare, and is the same run as `y`, which has another sink;
* `Reported.At n`, `Reported.all` : so does evaluation, with any fuel;
* `Exec.events` : what a run reports, read off a trace (`runBlock_reports`);
* `runBlock_withSink` : with another sink, a run is the same run.
-/

namespace IntScript

variable {σ τ α β : Type}

/-! ## Other sinks -/

/-- The state with another sink. -/
def State.withSink (s : State σ) (k : τ) : State τ := ⟨s.vars, s.result, s.functions, k⟩

/-- The outcome with another sink. -/
def Outcome.withSink (k : τ) : Outcome σ α → Outcome τ α
  | .done a s => .done a (s.withSink k)
  | .fault e s => .fault e (s.withSink k)
  | .unfinished s => .unfinished (s.withSink k)

@[simp] theorem Outcome.state_withSink (k : τ) (o : Outcome σ α) :
    (o.withSink k).state = o.state.withSink k := by
  cases o <;> rfl

@[simp] theorem Outcome.withSink_withSink {ρ : Type} (k : τ) (k' : ρ) (o : Outcome σ α) :
    (o.withSink k).withSink k' = o.withSink k' := by
  cases o <;> rfl

/-! ## States that are reached -/

theorem Exec.state_lookup (x : String) (s : State σ) : (Exec.lookup x s).state = s := by
  unfold Exec.lookup
  split <;> rfl

theorem Exec.state_resolve (f : String) (s : State σ) : (Exec.resolve f s).state = s := by
  unfold Exec.resolve
  split <;> rfl

theorem Exec.state_apply (o : Op) (a b : Int64) (s : State σ) : (Exec.apply o a b s).state = s := by
  unfold Exec.apply
  split <;> rfl

/-- From an activation, the functions and the sink come back. -/
theorem Exec.state_activate (bindings : List (String × Int64)) (x : Exec σ Unit) (s : State σ) :
    let t := (x ⟨s.vars.bindAll bindings, none, s.functions, s.sink⟩).state
    (Exec.activate bindings x s).state = ⟨s.vars, s.result, t.functions, t.sink⟩ := by
  simp only [Exec.activate]
  cases x ⟨s.vars.bindAll bindings, none, s.functions, s.sink⟩ <;> rfl

/-! ## Registrations -/

/-- The function that the execution of a declaration registers. -/
def Event.registration? : Event → Option (String × FunDef)
  | .began (.function f params body) => some (f, ⟨params, body⟩)
  | _ => none

/-- Registers functions in order. -/
def FunTable.registerAll (t : FunTable) (rs : List (String × FunDef)) : FunTable :=
  rs.foldl (fun t r => t.insert r.1 r.2) t

/-- The last of the registrations of a name. -/
def latest (f : String) (rs : List (String × FunDef)) : Option FunDef :=
  (rs.reverse.find? fun r => r.1 = f).map Prod.snd

theorem latest_append (f : String) (rs rs' : List (String × FunDef)) :
    latest f (rs ++ rs') = (latest f rs').or (latest f rs) := by
  unfold latest
  rw [List.reverse_append, List.find?_append]
  cases rs'.reverse.find? fun r => r.1 = f <;> rfl

theorem FunTable.registerAll_append (t : FunTable) (rs rs' : List (String × FunDef)) :
    t.registerAll (rs ++ rs') = (t.registerAll rs).registerAll rs' := by
  unfold registerAll
  rw [List.foldl_append]

/-- What a name is registered for is its last registration, or what it was before if there is
none. -/
theorem FunTable.getElem?_registerAll (t : FunTable) (rs : List (String × FunDef)) (f : String) :
    (t.registerAll rs)[f]? = (latest f rs).or t[f]? := by
  induction rs generalizing t with
  | nil => rfl
  | cons r rs ih =>
    change (FunTable.registerAll (t.insert r.1 r.2) rs)[f]? = _
    rw [ih, Std.ExtTreeMap.getElem?_insert]
    unfold latest
    rw [List.reverse_cons, List.find?_append]
    cases rs.reverse.find? fun r => r.1 = f with
    | some r' => rfl
    | none =>
      by_cases h : r.1 = f <;> simp [h]

/-! ## Reports -/

/-- From the state `s`, the run `x` reports the events `es` and registers the functions that they
declare; with any sink, `y` is the same run. -/
structure Exec.Reports [Sink σ] [Sink τ] (x : Exec σ α) (y : Exec τ α) (s : State σ)
    (es : List Event) : Prop where
  sink : (x s).state.sink = es.foldl Sink.receive s.sink
  functions : (x s).state.functions =
    s.functions.registerAll (es.filterMap Event.registration?)
  same : ∀ k : τ, y (s.withSink k) = (x s).withSink (es.foldl Sink.receive k)

/-- From each state, the two runs are the same and report what they do. -/
def Exec.Reported [Sink σ] [Sink τ] (x : Exec σ α) (y : Exec τ α) : Prop :=
  ∀ s, ∃ es, Exec.Reports x y s es

namespace Exec.Reported

variable [Sink σ] [Sink τ]

/-- A run that only looks at the state reports nothing. -/
theorem silent {x : Exec σ α} {y : Exec τ α} (hx : ∀ s, (x s).state = s)
    (hy : ∀ s k, y (s.withSink k) = (x s).withSink k) : Reported x y :=
  fun s => ⟨[], by rw [hx]; rfl, by rw [hx]; rfl, hy s⟩

theorem pure (a : α) : Reported (Pure.pure a : Exec σ α) (Pure.pure a : Exec τ α) :=
  silent (fun _ => rfl) fun _ _ => rfl

theorem fail (e : Fault) : Reported (Exec.fail e : Exec σ α) (Exec.fail e : Exec τ α) :=
  silent (fun _ => rfl) fun _ _ => rfl

theorem outOfFuel : Reported (Exec.outOfFuel : Exec σ α) (Exec.outOfFuel : Exec τ α) :=
  silent (fun _ => rfl) fun _ _ => rfl

theorem isBound (x : String) :
    Reported (Exec.isBound x : Exec σ Bool) (Exec.isBound x : Exec τ Bool) :=
  silent (fun _ => rfl) fun _ _ => rfl

theorem hasResult : Reported (Exec.hasResult : Exec σ Bool) (Exec.hasResult : Exec τ Bool) :=
  silent (fun _ => rfl) fun _ _ => rfl

theorem lookup (x : String) :
    Reported (Exec.lookup x : Exec σ Int64) (Exec.lookup x : Exec τ Int64) := by
  refine silent (state_lookup x) fun s k => ?_
  unfold Exec.lookup State.withSink
  cases s.vars[x]? <;> rfl

theorem resolve (f : String) :
    Reported (Exec.resolve f : Exec σ FunDef) (Exec.resolve f : Exec τ FunDef) := by
  refine silent (state_resolve f) fun s k => ?_
  unfold Exec.resolve State.withSink
  cases s.functions[f]? <;> rfl

theorem apply (o : Op) (a b : Int64) :
    Reported (Exec.apply o a b : Exec σ Int64) (Exec.apply o a b : Exec τ Int64) := by
  refine silent (state_apply o a b) fun s k => ?_
  unfold Exec.apply
  cases o.apply a b <;> rfl

theorem emit {e : Event} (he : e.registration? = none) :
    Reported (Exec.emit e : Exec σ Unit) (Exec.emit e : Exec τ Unit) :=
  fun s => ⟨[e], rfl, by rw [List.filterMap_cons_none he]; rfl, fun _ => rfl⟩

theorem bindVar (x : String) (v : Int64) :
    Reported (Exec.bindVar x v : Exec σ Unit) (Exec.bindVar x v : Exec τ Unit) :=
  fun _ => ⟨[.bound x v], rfl, rfl, fun _ => rfl⟩

theorem finish (v : Int64) :
    Reported (Exec.finish v : Exec σ Unit) (Exec.finish v : Exec τ Unit) :=
  fun _ => ⟨[.returned v], rfl, rfl, fun _ => rfl⟩

/-- The execution of a declaration. -/
theorem declare (f : String) (d : FunDef) :
    Reported (do Exec.emit (.began (.function f d.params d.body)); Exec.register f d : Exec σ Unit)
      (do Exec.emit (.began (.function f d.params d.body)); Exec.register f d : Exec τ Unit) :=
  fun _ => ⟨[.began (.function f d.params d.body), .registered f d], rfl, rfl, fun _ => rfl⟩

theorem bind {x : Exec σ α} {y : Exec τ α} {f : α → Exec σ β} {g : α → Exec τ β}
    (hx : Reported x y) (hf : ∀ a, Reported (f a) (g a)) : Reported (x >>= f) (y >>= g) := by
  intro s
  obtain ⟨es, hx⟩ := hx s
  change ∃ es, Reports (Exec.bind x f) (Exec.bind y g) s es
  cases hs : x s with
  | done a t =>
    obtain ⟨es', h'⟩ := hf a t
    have hsink : t.sink = es.foldl Sink.receive s.sink := by
      rw [← hx.sink, hs]
      rfl
    have hfun : t.functions = s.functions.registerAll (es.filterMap Event.registration?) := by
      rw [← hx.functions, hs]
      rfl
    have hbind : Exec.bind x f s = f a t := by simp only [Exec.bind, hs]
    refine ⟨es ++ es', ?_, ?_, fun k => ?_⟩
    · rw [hbind, h'.sink, hsink, List.foldl_append]
    · rw [hbind, h'.functions, hfun, List.filterMap_append, FunTable.registerAll_append]
    · have hy : y (s.withSink k) = .done a (t.withSink (es.foldl Sink.receive k)) := by
        rw [hx.same k, hs]
        rfl
      rw [hbind, List.foldl_append, ← h'.same]
      simp only [Exec.bind, hy]
  | fault e t | unfinished t =>
    refine ⟨es, ?_, ?_, fun k => ?_⟩
    · rw [← hx.sink]
      simp only [Exec.bind, hs, Outcome.state]
    · rw [← hx.functions]
      simp only [Exec.bind, hs, Outcome.state]
    · have hy := hx.same k
      rw [hs] at hy
      simp only [Exec.bind, hs, hy, Outcome.withSink]

theorem ite {c : Prop} [Decidable c] {x x' : Exec σ α} {y y' : Exec τ α} (h : Reported x y)
    (h' : Reported x' y') : Reported (if c then x else x') (if c then y else y') := by
  split
  · exact h
  · exact h'

theorem assign (x : String) (v : Int64) :
    Reported (Exec.assign x v : Exec σ Unit) (Exec.assign x v : Exec τ Unit) :=
  .bind (isBound x) fun _ => .ite (bindVar x v) (fail _)

/-- An activation reports what its body does. -/
theorem activate (bindings : List (String × Int64)) {x : Exec σ Unit} {y : Exec τ Unit}
    (h : Reported x y) : Reported (Exec.activate bindings x) (Exec.activate bindings y) := by
  intro s
  obtain ⟨es, h⟩ := h ⟨s.vars.bindAll bindings, none, s.functions, s.sink⟩
  have hy : ∀ k : τ, Exec.activate bindings y (s.withSink k) =
      (Exec.activate bindings x s).withSink (es.foldl Sink.receive k) := by
    intro k
    have := h.same k
    simp only [State.withSink] at this
    simp only [Exec.activate, State.withSink, this]
    cases x ⟨s.vars.bindAll bindings, none, s.functions, s.sink⟩ <;> rfl
  exact ⟨es, by rw [Exec.state_activate, ← h.sink], by rw [Exec.state_activate, ← h.functions], hy⟩

end Exec.Reported

namespace Reported

variable (σ τ : Type) [Sink σ] [Sink τ]

/-- What is reported with a given fuel. -/
structure At (n : Nat) : Prop where
  expr : ∀ e, Exec.Reported (evalExpr n e : Exec σ Int64) (evalExpr n e : Exec τ Int64)
  printed : ∀ es, Exec.Reported (callPrint n es : Exec σ Int64) (callPrint n es : Exec τ Int64)
  called : ∀ f es,
    Exec.Reported (callFunction n f es : Exec σ Int64) (callFunction n f es : Exec τ Int64)
  args : ∀ es,
    Exec.Reported (evalArgs n es : Exec σ (List Int64)) (evalArgs n es : Exec τ (List Int64))
  block : ∀ b, Exec.Reported (execBlock n b : Exec σ Unit) (execBlock n b : Exec τ Unit)
  stmt : ∀ s, Exec.Reported (execStmt n s : Exec σ Unit) (execStmt n s : Exec τ Unit)
  loop : ∀ c b, Exec.Reported (execLoop n c b : Exec σ Unit) (execLoop n c b : Exec τ Unit)

theorem at_zero : At σ τ 0 :=
  ⟨fun _ => .outOfFuel, fun _ => .outOfFuel, fun _ _ => .outOfFuel, fun _ => .outOfFuel,
    fun _ => .outOfFuel, fun _ => .outOfFuel, fun _ _ => .outOfFuel⟩

section Fuel

variable {σ τ} {n : Nat} (ih : At σ τ n)
include ih

theorem expr_succ (e : Expr) :
    Exec.Reported (evalExpr (n + 1) e : Exec σ Int64) (evalExpr (n + 1) e : Exec τ Int64) := by
  cases e with
  | ident x => exact .lookup x
  | lit v => exact .pure v
  | bin o l r => exact .bind (ih.expr l) fun a => .bind (ih.expr r) fun b => .apply o a b
  | call f args => exact .ite (ih.printed args) (ih.called f args)

theorem printed_succ (es : List Expr) :
    Exec.Reported (callPrint (n + 1) es : Exec σ Int64) (callPrint (n + 1) es : Exec τ Int64) := by
  cases es with
  | nil => exact .pure 0
  | cons e es => exact .bind (ih.expr e) fun v => .bind (.emit rfl) fun _ => ih.printed es

theorem called_succ (f : String) (es : List Expr) :
    Exec.Reported (callFunction (n + 1) f es : Exec σ Int64)
      (callFunction (n + 1) f es : Exec τ Int64) := by
  refine .bind (.resolve f) fun d => .ite ?_ (.fail _)
  refine .bind (ih.args es) fun vs => .bind (.emit rfl) fun _ => ?_
  exact .bind (.activate _ (ih.block d.body)) fun v => .bind (.emit rfl) fun _ => .pure v

theorem args_succ (es : List Expr) :
    Exec.Reported (evalArgs (n + 1) es : Exec σ (List Int64))
      (evalArgs (n + 1) es : Exec τ (List Int64)) := by
  cases es with
  | nil => exact .pure []
  | cons e es => exact .bind (ih.expr e) fun v => .bind (ih.args es) fun vs => .pure (v :: vs)

theorem block_succ (b : Block) :
    Exec.Reported (execBlock (n + 1) b : Exec σ Unit) (execBlock (n + 1) b : Exec τ Unit) := by
  cases b with
  | nil => exact .pure ()
  | cons s b =>
    refine .bind .hasResult fun _ => .ite (.pure ()) ?_
    exact .bind (ih.stmt s) fun _ => ih.block b

theorem stmt_succ (s : Stmt) :
    Exec.Reported (execStmt (n + 1) s : Exec σ Unit) (execStmt (n + 1) s : Exec τ Unit) := by
  match s with
  | .function f ps body => exact .declare f ⟨ps, body⟩
  | .var x none => exact .bind (.emit rfl) fun _ => .bindVar x 0
  | .var x (some e) =>
    exact .bind (.emit rfl) fun _ => .bind (ih.expr e) fun v => .bindVar x v
  | .assign x e =>
    refine .bind (.emit rfl) fun _ => .bind (.isBound x) fun _ => .ite ?_ (.fail _)
    exact .bind (ih.expr e) fun v => .assign x v
  | .loop c body => exact .bind (.emit rfl) fun _ => ih.loop c body
  | .ifThen c a =>
    exact .bind (.emit rfl) fun _ => .bind (ih.expr c) fun _ => .ite (ih.block a) (.pure ())
  | .ifElse c a b =>
    exact .bind (.emit rfl) fun _ => .bind (ih.expr c) fun _ => .ite (ih.block a) (ih.block b)
  | .ret e => exact .bind (.emit rfl) fun _ => .bind (ih.expr e) fun v => .finish v
  | .expr e => exact .bind (.emit rfl) fun _ => .bind (ih.expr e) fun _ => .pure ()

theorem loop_succ (c : Expr) (b : Block) :
    Exec.Reported (execLoop (n + 1) c b : Exec σ Unit) (execLoop (n + 1) c b : Exec τ Unit) := by
  refine .bind (ih.expr c) fun v => .bind (.emit rfl) fun _ => .ite ?_ (.pure ())
  exact .bind (ih.block b) fun _ => ih.loop c b

end Fuel

/-- Evaluation reports what it does, whatever becomes of the reports. -/
theorem all (n : Nat) : At σ τ n := by
  induction n with
  | zero => exact at_zero σ τ
  | succ n ih =>
    exact ⟨expr_succ ih, printed_succ ih, called_succ ih, args_succ ih, block_succ ih, stmt_succ ih,
      loop_succ ih⟩

end Reported

/-! ## The events of a run -/

/-- The events that a run reports, in order. -/
def Exec.events (x : Exec Trace α) (s : State σ) : List Event :=
  (x (s.withSink ⟨[]⟩)).state.sink.events.reverse

/-- A trace keeps what it receives. -/
@[simp] theorem Trace.foldl_receive (es : List Event) (t : Trace) :
    es.foldl Sink.receive t = ⟨es.reverse ++ t.events⟩ := by
  induction es generalizing t with
  | nil => rfl
  | cons e es ih =>
    rw [List.foldl_cons, ih]
    change (⟨es.reverse ++ e :: t.events⟩ : Trace) = _
    simp

/-- A trace tells what it has received. -/
theorem Trace.eq_of_foldl_eq {es es' : List Event} {t : Trace}
    (h : es.foldl Sink.receive t = es'.foldl Sink.receive t) : es = es' := by
  rw [foldl_receive, foldl_receive, Trace.mk.injEq] at h
  exact List.reverse_inj.1 (List.append_cancel_right h)

/-- With any other sink, a run does what it does with a trace. -/
theorem Exec.Reported.of_trace [Sink σ] {x : Exec Trace α} {y : Exec σ α} (h : Reported x y)
    {s : State Trace} {es : List Event} (hes : (x s).state.sink = es.foldl Sink.receive s.sink)
    (k : σ) : y (s.withSink k) = (x s).withSink (es.foldl Sink.receive k) := by
  obtain ⟨es', h⟩ := h s
  obtain rfl : es' = es := Trace.eq_of_foldl_eq (h.sink.symm.trans hes)
  exact h.same k

/-- The reported events are those of the trace. -/
theorem Exec.Reported.events [Sink σ] {x : Exec σ α} {y : Exec Trace α} (h : Reported x y)
    (s : State σ) : Reports x y s (y.events s) := by
  obtain ⟨es, h⟩ := h s
  have : y.events s = es := by
    unfold Exec.events
    rw [h.same, Outcome.state_withSink]
    simp [State.withSink]
  rwa [this]

/-- The events that the run of a block reports. -/
def runEvents (n : Nat) (b : Block) (s : State σ) : List Event := (runBlock n b).events s

/-- The run of a block reports what it does. -/
theorem runBlock_reported [Sink σ] [Sink τ] (n : Nat) (b : Block) :
    Exec.Reported (runBlock n b : Exec σ (Option Int64)) (runBlock n b : Exec τ (Option Int64)) :=
  .bind ((Reported.all σ τ n).block b) fun _ => .silent (fun _ => rfl) fun _ _ => rfl

/-- A run reports its events, registers the functions that they declare, and does the same with any
other sink. -/
theorem runBlock_reports [Sink σ] (n : Nat) (b : Block) (s : State σ) :
    Exec.Reports (runBlock n b : Exec σ (Option Int64)) (runBlock n b : Exec Trace (Option Int64)) s
      (runEvents n b s) :=
  Exec.Reported.events (runBlock_reported n b) s

/-- With another sink a run is the same run, and the sink receives the same events. -/
theorem runBlock_withSink [Sink σ] [Sink τ] (n : Nat) (b : Block) (s : State σ) (k : τ) :
    runBlock n b (s.withSink k) =
      (runBlock n b s).withSink ((runEvents n b s).foldl Sink.receive k) := by
  have htrace := (runBlock_reports n b s).same ⟨[]⟩
  have hevents : (runBlock n b (s.withSink (⟨[]⟩ : Trace))).state.sink =
      (runEvents n b s).foldl Sink.receive ⟨[]⟩ := by
    rw [htrace, Outcome.state_withSink]
    rfl
  have h := (runBlock_reported n b).of_trace hevents k
  rwa [htrace, Outcome.withSink_withSink] at h

end IntScript
