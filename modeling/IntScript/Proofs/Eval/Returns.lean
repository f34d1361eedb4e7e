import IntScript.Proofs.Eval.Terminal
import IntScript.Proofs.Parts

/-!
# Where a return ends a run

A loop tests its condition again after a `return` in its body, and nothing else does anything then.

* `Block.ReturnFree b` : no `return` stands in the block, those of its functions apart; such a block
  leaves the terminal value as it is (`execBlock_returnFree`);
* `Onward s t` : the terminal value is the same, the sink has received more;
* `Block.LoopsReturnFree b` : the bodies of the loops of the block are free of returns;
* `Exec.ReturnsLast p x s` : from `s`, the run `x` sets no terminal value, or does so as its last
  step, in a `return` of the block `p`;
* `ReturnsLast.At p n`, `ReturnsLast.all` : so does the execution of what is in `p`, with any fuel;
* `runBlock_returnsLast` : so does the run of the block;
* `runBlock_return_last` : no fault follows a `return`, unless it is in the body of a loop.
-/

namespace IntScript

variable {σ α β : Type}

/-! ## Blocks without a return -/

/-- No `return` stands in the block at any depth, except in the bodies of functions. -/
def Block.ReturnFree (b : Block) : Prop := ∀ e, .ret e ∉ Block.ownParts b

theorem Block.ReturnFree.of_subset {a b : Block} (h : b.ReturnFree)
    (hab : Block.ownParts a ⊆ Block.ownParts b) : a.ReturnFree :=
  fun e he => h e (hab he)

theorem Block.ownParts_singleton (s : Stmt) : Block.ownParts [s] = s.ownParts :=
  List.append_nil s.ownParts

/-- The terminal value is the same, and the sink has received more. -/
structure Onward [Sink σ] (s t : State σ) : Prop where
  result : t.result = s.result
  sink : Extends s.sink t.sink

namespace Onward

variable [Sink σ]

theorem refl (s : State σ) : Onward s s := ⟨rfl, .refl s.sink⟩

theorem trans (s t u : State σ) (h : Onward s t) (h' : Onward t u) : Onward s u :=
  ⟨h'.result.trans h.result, h.sink.trans h'.sink⟩

theorem of_frame (s t : State σ) (h : Frame s t) : Onward s t := ⟨h.result, h.sink⟩

/-- Expressions leave the terminal value alone. -/
theorem evalExpr (n : Nat) (e : Expr) : Exec.Keeps Onward (evalExpr n e : Exec σ Int64) :=
  ((kept_frame.all n).expr e).mono of_frame

theorem emit (e : Event) : Exec.Keeps Onward (Exec.emit e : Exec σ Unit) :=
  (kept_frame.emit_keeps e).mono of_frame

theorem pure (a : α) : Exec.Keeps Onward (Pure.pure a : Exec σ α) := fun s => refl s

theorem fail (e : Fault) : Exec.Keeps Onward (Exec.fail e : Exec σ α) := fun s => refl s

theorem outOfFuel : Exec.Keeps Onward (Exec.outOfFuel : Exec σ α) := fun s => refl s

theorem isBound (x : String) : Exec.Keeps Onward (Exec.isBound x : Exec σ Bool) := fun s => refl s

theorem hasResult : Exec.Keeps Onward (Exec.hasResult : Exec σ Bool) := fun s => refl s

theorem bindVar (x : String) (v : Int64) : Exec.Keeps Onward (Exec.bindVar x v : Exec σ Unit) :=
  fun s => ⟨rfl, .receive s.sink _⟩

theorem register (f : String) (d : FunDef) :
    Exec.Keeps Onward (Exec.register f d : Exec σ Unit) :=
  fun s => ⟨rfl, .receive s.sink _⟩

theorem bind {x : Exec σ α} {f : α → Exec σ β} (hx : Exec.Keeps Onward x)
    (hf : ∀ a, Exec.Keeps Onward (f a)) : Exec.Keeps Onward (x >>= f) :=
  .bind trans hx hf

theorem assign (x : String) (v : Int64) : Exec.Keeps Onward (Exec.assign x v : Exec σ Unit) :=
  bind (isBound x) fun _ => .ite (bindVar x v) (fail _)

/-! ### Execution -/

/-- What the execution of statements without a return keeps with a given fuel. -/
structure At (σ : Type) [Sink σ] (n : Nat) : Prop where
  block : ∀ b, Block.ReturnFree b → Exec.Keeps Onward (execBlock n b : Exec σ Unit)
  stmt : ∀ st, Block.ReturnFree [st] → Exec.Keeps Onward (execStmt n st : Exec σ Unit)
  loop : ∀ c b, Block.ReturnFree b → Exec.Keeps Onward (execLoop n c b : Exec σ Unit)

section Fuel

variable {n : Nat} (ih : At σ n)
include ih

theorem block_succ (b : Block) (hb : b.ReturnFree) :
    Exec.Keeps Onward (execBlock (n + 1) b : Exec σ Unit) := by
  cases b with
  | nil => exact pure ()
  | cons st b =>
    have hst : Block.ReturnFree [st] := hb.of_subset <| by
      rw [Block.ownParts_singleton]
      exact List.subset_append_left _ _
    have hrest : Block.ReturnFree b := hb.of_subset (List.subset_append_right _ _)
    exact bind hasResult fun _ => .ite (pure ()) (bind (ih.stmt st hst) fun _ => ih.block b hrest)

theorem stmt_succ (st : Stmt) (hst : Block.ReturnFree [st]) :
    Exec.Keeps Onward (execStmt (n + 1) st : Exec σ Unit) := by
  have hbody : ∀ b, Block.ownParts b ⊆ st.ownParts → Block.ReturnFree b := fun b hb =>
    hst.of_subset (Block.ownParts_singleton st ▸ hb)
  refine bind (emit _) fun _ => ?_
  match st with
  | .function f ps body => exact register f ⟨ps, body⟩
  | .var x none => exact bindVar x 0
  | .var x (some e) => exact bind (evalExpr n e) fun v => bindVar x v
  | .assign x e =>
    exact bind (isBound x) fun _ => .ite (bind (evalExpr n e) fun v => assign x v) (fail _)
  | .loop c b => exact ih.loop c b (hbody b (List.subset_cons_self _ _))
  | .ifThen c a =>
    have ha := ih.block a (hbody a (List.subset_cons_self _ _))
    exact bind (evalExpr n c) fun _ => .ite ha (pure ())
  | .ifElse c a b =>
    have ha := hbody a fun _ h => List.mem_cons_of_mem _ (List.mem_append_left _ h)
    have hb := hbody b fun _ h => List.mem_cons_of_mem _ (List.mem_append_right _ h)
    exact bind (evalExpr n c) fun _ => .ite (ih.block a ha) (ih.block b hb)
  | .ret e => exact absurd (Block.ownParts_singleton (.ret e) ▸ Stmt.self_mem_ownParts _) (hst e)
  | .expr e => exact bind (evalExpr n e) fun _ => pure ()

theorem loop_succ (c : Expr) (b : Block) (hb : b.ReturnFree) :
    Exec.Keeps Onward (execLoop (n + 1) c b : Exec σ Unit) := by
  refine bind (evalExpr n c) fun v => bind (emit _) fun _ => .ite ?_ (pure ())
  exact bind (ih.block b hb) fun _ => ih.loop c b hb

end Fuel

theorem all (n : Nat) : At σ n := by
  induction n with
  | zero => exact ⟨fun _ _ => outOfFuel, fun _ _ => outOfFuel, fun _ _ _ => outOfFuel⟩
  | succ n ih => exact ⟨block_succ ih, stmt_succ ih, loop_succ ih⟩

end Onward

/-- A block without a return leaves the terminal value as it is, whatever it calls. -/
theorem execBlock_returnFree [Sink σ] {b : Block} (hb : b.ReturnFree) (n : Nat) (s : State σ) :
    (execBlock n b s).state.result = s.result :=
  ((Onward.all n).block b hb s).result

/-! ## Returns at the end -/

/-- No `return` stands in the body of a loop of the block, except in the bodies of functions. -/
def Block.LoopsReturnFree (b : Block) : Prop :=
  ∀ c body, .loop c body ∈ Block.ownParts b → Block.ReturnFree body

/-- From the state `s`, the run sets no terminal value, or does so as its last step: there a
`return` of the block `p` has begun after the events `before`, and its expression has a value. -/
inductive Exec.ReturnsLast [Sink σ] (p : Block) (x : Exec σ Unit) (s : State σ) : Prop where
  | unset (h : (x s).state.result = none)
  | last (before : List Event) (e : Expr) (m : Nat) (v : Int64) (u t : State σ)
    (mem : .ret e ∈ Block.ownParts p)
    (sink : u.sink = (before ++ [Event.began (.ret e)]).foldl Sink.receive s.sink)
    (value : evalExpr m e u = .done v t) (rest : x s = Exec.finish v t)

namespace Exec.ReturnsLast

variable [Sink σ] {p : Block} {s t : State σ}

/-- A run that leaves the terminal value as it is. -/
theorem of_onward {x : Exec σ Unit} (hx : Keeps Onward x) (hs : s.result = none) :
    ReturnsLast p x s :=
  .unset ((hx s).result.trans hs)

/-- What was reported on the way to `t` comes before what is reported from there. -/
theorem of_eq {x y : Exec σ Unit} (hst : Extends s.sink t.sink) (hxy : x s = y t)
    (hy : ReturnsLast p y t) : ReturnsLast p x s := by
  cases hy with
  | unset h => exact .unset (hxy ▸ h)
  | last before e m v u w mem sink value rest =>
    obtain ⟨es, hes⟩ := hst
    refine .last (es ++ before) e m v u w mem ?_ value (hxy.trans rest)
    rw [sink, hes, ← List.foldl_append, List.append_assoc]

theorem ite {c : Prop} [Decidable c] {x y : Exec σ Unit} (hx : ReturnsLast p x s)
    (hy : ReturnsLast p y s) : ReturnsLast p (if c then x else y) s := by
  split
  · exact hx
  · exact hy

/-- A run that leaves the terminal value as it is, and then one that may set it. -/
theorem bind {x : Exec σ α} {f : α → Exec σ Unit} (hx : Keeps Onward x) (hs : s.result = none)
    (hf : ∀ a t, t.result = none → ReturnsLast p (f a) t) : ReturnsLast p (x >>= f) s := by
  have hon := hx s
  rcases Exec.bind_cases x f s with ⟨a, t, hxs, hb⟩ | ⟨hb, -⟩
  · rw [hxs] at hon
    exact of_eq hon.sink hb (hf a t (hon.result.trans hs))
  · exact .unset (hb ▸ hon.result.trans hs)

/-- Two runs that may set the terminal value, of which the second one does nothing if it is set. -/
theorem andThen {x y : Exec σ Unit} (hx : ReturnsLast p x s)
    (hsink : Extends s.sink (x s).state.sink)
    (hy : ∀ t, t.result = none → ReturnsLast p y t)
    (hset : ∀ t, t.result ≠ none → y t = .done () t) : ReturnsLast p (x >>= fun _ => y) s := by
  cases hx with
  | unset h =>
    rcases Exec.bind_cases x (fun _ => y) s with ⟨_, t, hxs, hb⟩ | ⟨hb, -⟩
    · rw [hxs] at h hsink
      exact of_eq hsink hb (hy t h)
    · exact .unset (hb ▸ h)
  | last before e m v u w mem sink value rest =>
    refine .last before e m v u w mem sink value ?_
    change Exec.bind x (fun _ => y) s = _
    simp only [Exec.bind, rest, Exec.finish]
    exact hset _ (Option.some_ne_none v)

/-- The execution of a `return` of the block. -/
theorem ret {e : Expr} (he : .ret e ∈ Block.ownParts p) (n : Nat) (hs : s.result = none) :
    ReturnsLast p (execStmt (n + 1) (.ret e)) s := by
  let u : State σ := ⟨s.vars, s.result, s.functions, Sink.receive s.sink (.began (.ret e))⟩
  have hrun : (execStmt (n + 1) (.ret e) : Exec σ Unit) s =
      Exec.bind (evalExpr n e) (fun v => Exec.finish v) u := rfl
  have hframe := (kept_frame.all n).expr e u
  simp only [Exec.bind] at hrun
  cases hv : evalExpr n e u with
  | done v t =>
    rw [hv] at hrun
    exact .last [] e n v u t he rfl hv hrun
  | fault f t | unfinished t =>
    rw [hv] at hrun hframe
    exact .unset (hrun ▸ hframe.result.trans hs)

end Exec.ReturnsLast

namespace ReturnsLast

open Exec.ReturnsLast

/-- The execution of parts of a block with a given fuel. -/
structure At (σ : Type) [Sink σ] (p : Block) (n : Nat) : Prop where
  block : ∀ b, Block.ownParts b ⊆ Block.ownParts p → ∀ s : State σ, s.result = none →
    Exec.ReturnsLast p (execBlock n b) s
  stmt : ∀ st : Stmt, st.ownParts ⊆ Block.ownParts p → ∀ s : State σ, s.result = none →
    Exec.ReturnsLast p (execStmt n st) s

theorem at_zero [Sink σ] (p : Block) : At σ p 0 :=
  ⟨fun _ _ _ hs => .unset hs, fun _ _ _ hs => .unset hs⟩

section Fuel

variable [Sink σ] {p : Block} {n : Nat} (ih : At σ p n) {s : State σ} (hs : s.result = none)
include ih hs

theorem block_succ (b : Block) (hb : Block.ownParts b ⊆ Block.ownParts p) :
    Exec.ReturnsLast p (execBlock (n + 1) b) s := by
  cases b with
  | nil => exact of_onward (Onward.pure ()) hs
  | cons st b =>
    rw [Block.ownParts, List.append_subset] at hb
    refine .bind Onward.hasResult hs fun _ t ht => .ite (of_onward (Onward.pure ()) ht) ?_
    cases n with
    | zero =>
      -- Without fuel for the statement, the rest of the block is not reached.
      exact .unset ht
    | succ n =>
      exact .andThen (ih.stmt st hb.1 t ht) ((kept_frame.all _).stmt st t)
        (ih.block b hb.2) fun u hu => execBlock_of_result hu n b

theorem stmt_succ (hp : p.LoopsReturnFree) (st : Stmt) (hst : st.ownParts ⊆ Block.ownParts p) :
    Exec.ReturnsLast p (execStmt (n + 1) st) s := by
  have hself : st ∈ Block.ownParts p := hst st.self_mem_ownParts
  -- A statement in which no `return` stands leaves the terminal value as it is.
  have hfree : Block.ReturnFree [st] → Exec.ReturnsLast p (execStmt (n + 1) st) s := fun h =>
    of_onward ((Onward.all (n + 1)).stmt st h) hs
  match st with
  | .function _ _ _ | .var _ _ | .assign _ _ | .expr _ =>
    exact hfree fun e he => by simp [Block.ownParts, Stmt.ownParts] at he
  | .loop c b =>
    refine hfree fun e he => ?_
    rw [Block.ownParts_singleton, Stmt.ownParts, List.mem_cons] at he
    exact hp c b hself e (he.resolve_left (by simp))
  | .ifThen c a =>
    have ha := List.Subset.trans (List.subset_cons_self _ _) hst
    refine .bind (Onward.emit _) hs fun _ t ht => .bind (Onward.evalExpr n c) ht fun _ u hu => ?_
    exact .ite (ih.block a ha u hu) (of_onward (Onward.pure ()) hu)
  | .ifElse c a b =>
    rw [Stmt.ownParts, List.cons_subset, List.append_subset] at hst
    refine .bind (Onward.emit _) hs fun _ t ht => .bind (Onward.evalExpr n c) ht fun _ u hu => ?_
    exact .ite (ih.block a hst.2.1 u hu) (ih.block b hst.2.2 u hu)
  | .ret e => exact .ret hself n hs

end Fuel

theorem all (σ : Type) [Sink σ] {p : Block} (hp : p.LoopsReturnFree) (n : Nat) : At σ p n := by
  induction n with
  | zero => exact at_zero p
  | succ n ih =>
    exact ⟨fun b hb _ hs => block_succ ih hs b hb, fun st hst _ hs => stmt_succ ih hs hp st hst⟩

end ReturnsLast

/-! ## Runs -/

/-- If the terminal value is set by an event, then it is that of the event in the end. -/
theorem Progress.Admits.result_of_mem {p : Progress} {es : List Event} {v : Int64}
    (h : p.Admits es) (hv : .returned v ∈ es) : (p.afterAll es).result = some v := by
  obtain ⟨before, after, rfl⟩ := List.append_of_mem hv
  rw [admits_append] at h
  rw [afterAll_append]
  exact (h.2.2.frozen (by simp [Progress.after])).result

/-- A trace receives what an expression reports, and with another sink its value is the same. -/
theorem evalExpr_of_trace [Sink σ] {m : Nat} {e : Expr} {v : Int64} {u t : State Trace}
    (h : evalExpr m e u = .done v t) (k : σ) :
    let es := (evalExpr m e : Exec Trace Int64).events u
    t.sink = es.foldl Sink.receive u.sink ∧
      evalExpr m e (u.withSink k) = .done v (t.withSink (es.foldl Sink.receive k)) := by
  intro es
  have hreport := ((Reported.all Trace Trace m).expr e).events u
  have hsink : (evalExpr m e u).state.sink = es.foldl Sink.receive u.sink := hreport.sink
  have hsame := ((Reported.all Trace σ m).expr e).of_trace hsink k
  rw [h] at hsink hsame
  exact ⟨hsink, hsame⟩

/-- A run sets no terminal value, or does so in a `return` as its last step. -/
theorem runBlock_returnsLast [Sink σ] {b : Block} (hb : b.LoopsReturnFree) {s : State σ}
    (hs : s.result = none) (n : Nat) :
    (runBlock n b s).state.result = none ∨
    ∃ (before : List Event) (e : Expr) (m : Nat) (v : Int64) (u t : State σ),
      .ret e ∈ Block.ownParts b ∧
      runEvents n b s = before ++ [Event.began (.ret e)] ++
        (evalExpr m e : Exec Trace Int64).events u ++ [Event.returned v] ∧
      u.sink = (before ++ [Event.began (.ret e)]).foldl Sink.receive s.sink ∧
      evalExpr m e u = .done v t ∧
      runBlock n b s = .done (some v)
        ⟨t.vars, some v, t.functions, Sink.receive t.sink (.returned v)⟩ := by
  -- The events are read off the run into a trace.
  let s' : State Trace := s.withSink ⟨[]⟩
  cases (ReturnsLast.all Trace hb n).block b (fun _ h => h) s' hs with
  | unset h =>
    have htrace : runBlock n b s' = (runBlock n b s).withSink ⟨(runEvents n b s).reverse⟩ := by
      rw [runBlock_withSink, Trace.foldl_receive, List.append_nil]
    rw [← state_runBlock, htrace, Outcome.state_withSink] at h
    exact .inl h
  | last before e m v u t mem sink value rest =>
    let es := (evalExpr m e : Exec Trace Int64).events u
    let k : σ := (before ++ [Event.began (.ret e)]).foldl Sink.receive s.sink
    obtain ⟨hsink, heval⟩ := evalExpr_of_trace value k
    have hdone : runBlock n b s' =
        .done (some v) ⟨t.vars, some v, t.functions, Sink.receive t.sink (.returned v)⟩ := by
      change Exec.bind (execBlock n b) _ s' = _
      simp only [Exec.bind, rest, Exec.finish]
    have hevents : runEvents n b s =
        before ++ [Event.began (.ret e)] ++ es ++ [Event.returned v] := by
      have hreport := (runBlock_reports n b s').sink
      rw [hdone] at hreport
      refine Trace.eq_of_foldl_eq (hreport.symm.trans ?_)
      rw [List.foldl_append, List.foldl_append, ← sink, ← hsink]
      rfl
    have hrun : runBlock n b s =
        .done (some v) ⟨t.vars, some v, t.functions,
          Sink.receive (es.foldl Sink.receive k) (.returned v)⟩ := by
      have h := runBlock_withSink n b s' s.sink
      rw [hdone, show runEvents n b s' = runEvents n b s from rfl, hevents, List.foldl_append,
        List.foldl_append] at h
      exact h
    exact .inr ⟨before, e, m, v, u.withSink k, t.withSink (es.foldl Sink.receive k), mem, hevents,
      rfl, heval, hrun⟩

/-- The value of a `return` of the activation is the terminal value in the end. -/
theorem result_of_returned [Sink σ] {n : Nat} {b : Block} {s : State σ} {v : Int64}
    (hv : Event.returned v ∈ ownEvents 0 (runEvents n b s)) :
    (runBlock n b s).state.result = some v := by
  obtain ⟨hadmits, ls, hend⟩ := progressAt_runEvents n b s
  rw [← hadmits.result_of_mem hv]
  exact (congrArg Progress.result hend).symm

/-- **A return is the end of a run**, except in the body of a loop. Let a block in whose loops no
`return` stands be run from a state `s` without terminal value.

* If the run faults, there is still no terminal value.
* If a `return` of the activation is executed, the run ends with its value. In the state `u` in
  which the `return` has begun, after the events `before`, its expression is evaluated. Nothing is
  printed, registered or bound after that: from the state `t` in which the evaluation ends, the last
  event sets the terminal value. -/
theorem runBlock_return_last [Sink σ] {b : Block} (hb : b.LoopsReturnFree) {s : State σ}
    (hs : s.result = none) (n : Nat) :
    (∀ e t, runBlock n b s = .fault e t → t.result = none) ∧
    ∀ v, Event.returned v ∈ ownEvents 0 (runEvents n b s) →
      ∃ (before : List Event) (e : Expr) (m : Nat) (u t : State σ), .ret e ∈ Block.ownParts b ∧
        runEvents n b s = before ++ [Event.began (.ret e)] ++
          (evalExpr m e : Exec Trace Int64).events u ++ [Event.returned v] ∧
        u.sink = (before ++ [Event.began (.ret e)]).foldl Sink.receive s.sink ∧
        evalExpr m e u = .done v t ∧
        runBlock n b s = .done (some v)
          ⟨t.vars, some v, t.functions, Sink.receive t.sink (.returned v)⟩ := by
  rcases runBlock_returnsLast hb hs n with
    hnone | ⟨before, e, m, w, u, t, mem, hevents, hsink, heval, hrun⟩
  · refine ⟨fun e t ht => ?_, fun v hv => ?_⟩
    · rw [ht] at hnone
      exact hnone
    · cases hnone.symm.trans (result_of_returned hv)
  · refine ⟨fun e' t' ht => ?_, fun v hv => ?_⟩
    · cases hrun.symm.trans ht
    · obtain rfl : w = v := by simpa [hrun, Outcome.state] using result_of_returned hv
      exact ⟨before, e, m, u, t, mem, hevents, hsink, heval, hrun⟩

/-- A loop whose body calls a function that returns, and behind it a `return` in two conditionals:
what follows in the blocks around it is not executed. -/
theorem runBlock_return_last_nested :
    let i : Expr := .ident "i"
    let b : Block := [.function "f" [] [.ret (.lit 1)], .var "i" none,
      .loop (.bin .lt i (.lit 2)) [.assign "i" (.bin .add i (.call "f" []))],
      .ifThen i [.ifThen i [.ret (.bin .mul i (.lit 10))], .expr (.call printName [i])],
      .expr (.bin .div i (.lit 0))]
    let s : State Buffer := .fresh .empty
    b.LoopsReturnFree ∧ s.result = none ∧
    Event.returned 20 ∈ ownEvents 0 (runEvents 20 b s) ∧
    (∃ before, runEvents 20 b s = before ++ [Event.returned 20]) ∧
    ∃ t, runBlock 20 b s = .done (some 20) t := by
  intro i b s
  have hb : b.LoopsReturnFree := by
    intro c body h e he
    simp only [b, Block.ownParts, Stmt.ownParts, List.mem_append, List.mem_cons, List.not_mem_nil,
      or_false, false_or, Stmt.loop.injEq, reduceCtorEq] at h
    obtain ⟨-, rfl⟩ := h
    simp [Block.ownParts, Stmt.ownParts] at he
  have hv : Event.returned 20 ∈ ownEvents 0 (runEvents 20 b s) :=
    List.mem_of_getLast? (by rfl : (ownEvents 0 (runEvents 20 b s)).getLast? = _)
  obtain ⟨before, e, m, u, t, -, hevents, -, -, hrun⟩ :=
    (runBlock_return_last hb (s := s) rfl 20).2 20 hv
  exact ⟨hb, rfl, hv, ⟨_, hevents⟩, _, hrun⟩

/-- After a `return` in the body of a loop, the next test of the condition may fault. -/
example : ∃ t : State Buffer, runBlock 9 [.var "i" (some (.lit 1)),
      .loop (.bin .div (.lit 1) (.ident "i")) [.assign "i" (.lit 0), .ret (.lit 5)]]
    (.fresh .empty) = .fault .divisionByZero t ∧ t.result = some 5 :=
  ⟨_, rfl, rfl⟩

end IntScript
