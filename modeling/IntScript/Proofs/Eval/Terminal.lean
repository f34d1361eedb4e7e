import IntScript.Proofs.Eval.Course

/-!
# The terminal value

* `Settled.At n`, `Settled.all` : with any fuel, expressions leave the terminal value as it is and
  statements take the course of an activation;
* `State.progressAt s es` : the progress of an activation after the events `es`;
* `Reaches` : what becomes of the state of an evaluator by its runs;
* `runBlock_frozen` : the terminal value is set at most once, and then its activation is frozen.
-/

namespace IntScript

variable {σ α : Type} [Sink σ]

/-! ## Evaluation -/

namespace Settled

/-- The course of evaluation with a given fuel. -/
structure At (σ : Type) [Sink σ] (n : Nat) : Prop where
  expr : ∀ e (s : State σ) ls, Exec.Passes (evalExpr n e) s ls ls
  printed : ∀ es (s : State σ) ls, Exec.Passes (callPrint n es) s ls ls
  called : ∀ f es (s : State σ) ls, Exec.Passes (callFunction n f es) s ls ls
  args : ∀ es (s : State σ) ls, Exec.Passes (evalArgs n es) s ls ls
  /-- A loop whose body is empty has no return, and needs no state without terminal value. -/
  empty : ∀ c (s : State σ) ls, Exec.Passes (execLoop n c []) s (c :: ls) ls
  block : ∀ b (s : State σ) ls, s.result = none → Exec.Course (execBlock n b) s ls ls
  stmt : ∀ st (s : State σ) ls, s.result = none → Exec.Course (execStmt n st) s ls ls
  loop : ∀ c b (s : State σ) ls, s.result = none → Exec.Course (execLoop n c b) s (c :: ls) ls

theorem outOfFuel {s : State σ} {ls ls' : List Expr} :
    Exec.Passes (Exec.outOfFuel : Exec σ α) s ls ls' :=
  ⟨[], ls, .refl s ls, rfl, nofun⟩

theorem at_zero : At σ 0 :=
  ⟨fun _ _ _ => outOfFuel, fun _ _ _ => outOfFuel, fun _ _ _ _ => outOfFuel,
    fun _ _ _ => outOfFuel, fun _ _ _ => outOfFuel, fun _ _ _ _ => .passes outOfFuel,
    fun _ _ _ _ => .passes outOfFuel, fun _ _ _ _ _ => .passes outOfFuel⟩

section Fuel

variable {n : Nat} (ih : At σ n) (s : State σ) (ls : List Expr)
include ih

theorem expr_succ (e : Expr) : Exec.Passes (evalExpr (n + 1) e) s ls ls := by
  cases e with
  | ident x => exact .lookup x
  | lit v => exact .silent rfl
  | bin o l r =>
    exact .bind (ih.expr l s ls) fun a t _ => .bind (ih.expr r t ls) fun b _ _ => .apply o a b
  | call f args => exact .ite (ih.printed args s ls) (ih.called f args s ls)

theorem printed_succ (es : List Expr) : Exec.Passes (callPrint (n + 1) es) s ls ls := by
  cases es with
  | nil => exact .silent rfl
  | cons e es =>
    exact .bind (ih.expr e s ls) fun v _ _ => .bind (.print v) fun _ t _ => ih.printed es t ls

theorem called_succ (f : String) (es : List Expr) :
    Exec.Passes (callFunction (n + 1) f es) s ls ls := by
  refine .bind (.resolve f) fun d t _ => .ite ?_ (.silent rfl)
  refine .bind (ih.args es t ls) fun vs _ _ => .call f vs _ fun u hu => ?_
  obtain ⟨es', ls', h, hd⟩ := (ih.block d.body u [] hu).leads
  exact ⟨es', ls', h, fun a w hw => (hd a w hw).1⟩

theorem args_succ (es : List Expr) : Exec.Passes (evalArgs (n + 1) es) s ls ls := by
  cases es with
  | nil => exact .silent rfl
  | cons e es =>
    exact .bind (ih.expr e s ls) fun v t _ => .bind (ih.args es t ls) fun vs _ _ => .silent rfl

theorem empty_succ (c : Expr) : Exec.Passes (execLoop (n + 1) c []) s (c :: ls) ls := by
  refine .bind (ih.expr c s _) fun v t _ => .bind (.tested t ls c v) fun _ u _ => ?_
  cases truthy v with
  | true => exact .bind (.silent (state_execBlock_nil n u)) fun _ w _ => ih.empty c w ls
  | false => exact .silent rfl

variable {s} (hs : s.result = none)
include hs

theorem block_succ (b : Block) : Exec.Course (execBlock (n + 1) b) s ls ls := by
  cases b with
  | nil => exact .passes (.silent rfl)
  | cons st b =>
    refine .bind (.silent rfl) fun _ t ht => .ite (.passes (.silent rfl)) ?_
    have ht : t.result = none := ht.trans hs
    cases n with
    | zero =>
      -- Without fuel for the statement, the rest of the block is not reached.
      have h : Exec.Passes (execStmt 0 st) t ls ls := outOfFuel
      exact .bind h fun _ _ _ => .passes outOfFuel
    | succ n =>
      exact .andThen (ih.stmt st t ls ht) (fun u hu => ih.block b u ls (hu.trans ht)) []
        rfl (fun _ hu => execBlock_of_result hu n b) fun _ => .silent rfl

theorem stmt_succ (st : Stmt) : Exec.Course (execStmt (n + 1) st) s ls ls := by
  match st with
  | .function f ps body =>
    refine .bind (.emit (fun _ => rfl) hs rfl) fun _ t ht => .passes ?_
    exact .register (ht.trans hs) f ⟨ps, body⟩
  | .var x none =>
    refine .bind (.emit (fun _ => rfl) hs rfl) fun _ t ht => .passes ?_
    exact .bindVar (ht.trans hs) x 0
  | .var x (some e) =>
    refine .bind (.emit (fun _ => rfl) hs rfl) fun _ t ht => .passes ?_
    exact .bind (ih.expr e t ls) fun v u hu => .bindVar (hu.trans (ht.trans hs)) x v
  | .assign x e =>
    refine .bind (.emit (fun _ => rfl) hs rfl) fun _ t ht => .passes ?_
    refine .bind (.silent rfl) fun _ u hu => .ite ?_ (.silent rfl)
    exact .bind (ih.expr e u ls) fun v w hw => .assign (hw.trans (hu.trans (ht.trans hs))) x v
  | .loop c body =>
    refine .bind (.emit (fun _ => rfl) hs rfl) fun _ t ht => ?_
    exact ih.loop c body t ls (ht.trans hs)
  | .ifThen c a =>
    refine .bind (.emit (fun _ => rfl) hs rfl) fun _ t ht => .bind (ih.expr c t ls) fun _ u hu => ?_
    exact .ite (ih.block a u ls (hu.trans (ht.trans hs))) (.passes (.silent rfl))
  | .ifElse c a b =>
    refine .bind (.emit (fun _ => rfl) hs rfl) fun _ t ht => .bind (ih.expr c t ls) fun _ u hu => ?_
    have hu : u.result = none := hu.trans (ht.trans hs)
    exact .ite (ih.block a u ls hu) (ih.block b u ls hu)
  | .ret e =>
    refine .bind (.emit (fun _ => rfl) hs rfl) fun _ t ht => .bind (ih.expr e t ls) fun v u hu => ?_
    exact .finish (hu.trans (ht.trans hs)) v
  | .expr e =>
    refine .bind (.emit (fun _ => rfl) hs rfl) fun _ t ht => .passes ?_
    exact .bind (ih.expr e t ls) fun _ _ _ => .silent rfl

theorem loop_succ (c : Expr) (b : Block) : Exec.Course (execLoop (n + 1) c b) s (c :: ls) ls := by
  refine .bind (ih.expr c s _) fun v t ht => .bind (.tested t ls c v) fun _ u hu => ?_
  have hu : u.result = none := hu.trans (ht.trans hs)
  cases truthy v with
  | true =>
    have hrest : (retest [(n, c)] : Exec σ Unit) = execLoop n c [] := retest_single n c
    exact .andThen (ih.block b u (c :: ls) hu) (fun w hw => ih.loop c b w ls (hw.trans hu))
      [(n, c)] rfl (hrest ▸ execLoop_sameOnceSet n c b)
      fun w => hrest ▸ ih.empty c w ls
  | false => exact .passes (.silent rfl)

end Fuel

theorem all (n : Nat) : At σ n := by
  induction n with
  | zero => exact at_zero
  | succ n ih =>
    exact ⟨fun e s ls => expr_succ ih s ls e, fun es s ls => printed_succ ih s ls es,
      fun f es s ls => called_succ ih s ls f es, fun es s ls => args_succ ih s ls es,
      fun c s ls => empty_succ ih s ls c, fun b _ ls hs => block_succ ih ls hs b,
      fun st _ ls hs => stmt_succ ih ls hs st, fun c b _ ls hs => loop_succ ih ls hs c b⟩

end Settled

/-! ## Runs of blocks -/

/-- With a terminal value, the run of a block does nothing. -/
theorem runBlock_of_result {s : State σ} (hs : s.result ≠ none) (n : Nat) (b : Block) :
    runBlock (n + 1) b s = .done s.result s := by
  change Exec.bind (execBlock (n + 1) b) (fun _ s => .done s.result s) s = _
  simp only [Exec.bind, execBlock_of_result hs]

theorem state_runBlock (n : Nat) (b : Block) (s : State σ) :
    (runBlock n b s).state = (execBlock n b s).state := by
  change (Exec.bind (execBlock n b) (fun _ s => .done s.result s) s).state = _
  unfold Exec.bind
  cases execBlock n b s <;> rfl

/-- The run of a block takes the course of an activation. -/
theorem runBlock_leads (n : Nat) (b : Block) (s : State σ) :
    ∃ es ls, Leads s [] es (runBlock n b s).state ls := by
  rw [state_runBlock]
  by_cases hs : s.result = none
  · obtain ⟨es, ls, h, -⟩ := ((Settled.all n).block b s [] hs).leads
    exact ⟨es, ls, h⟩
  · refine ⟨[], [], ?_⟩
    cases n with
    | zero => exact .refl s []
    | succ n =>
      rw [execBlock_of_result hs]
      exact .refl s []

/-- The events of a run that begins with an empty trace are those of the trace. -/
theorem Leads.trace_eq {s t : State Trace} {ls ls' : List Expr} {es : List Event}
    (h : Leads s ls es t ls') (hs : s.sink = ⟨[]⟩) : t.sink.events.reverse = es := by
  rw [h.sink, hs, Trace.foldl_receive]
  simp

theorem retest_reported {τ : Type} [Sink τ] (loops : List (Nat × Expr)) :
    Exec.Reported (retest loops : Exec σ Unit) (retest loops : Exec τ Unit) := by
  induction loops with
  | nil => exact .pure ()
  | cons l loops ih => exact .bind ((Reported.all σ τ l.1).loop l.2 []) fun _ => ih

/-- The progress of an activation after events, from the state `s` in which no loop is being
executed. -/
def State.progressAt (s : State σ) (es : List Event) : Progress :=
  (s.progress []).afterAll (ownEvents 0 es)

theorem State.progressAt_append {σ : Type} (s : State σ) (es es' : List Event) :
    s.progressAt (es ++ es') = (s.progressAt es).afterAll (ownEvents (nesting 0 es) es') := by
  unfold progressAt
  rw [ownEvents_append, Progress.afterAll_append]

/-- The own events of a run are possible one after the other, and lead to the state that it
reaches. -/
theorem progressAt_runEvents (n : Nat) (b : Block) (s : State σ) :
    (s.progress []).Admits (ownEvents 0 (runEvents n b s)) ∧
      ∃ ls, s.progressAt (runEvents n b s) = (runBlock n b s).state.progress ls := by
  obtain ⟨es, ls, h⟩ := runBlock_leads n b (s.withSink (⟨[]⟩ : Trace))
  have hes : runEvents n b s = es := h.trace_eq rfl
  rw [hes]
  refine ⟨h.admits, ls, h.after.trans ?_⟩
  rw [(runBlock_reports n b s).same, Outcome.state_withSink]
  rfl

/-- What becomes of the state of an evaluator: blocks are run, however the runs end, and functions
are registered in between. -/
inductive Reaches : State σ → State σ → Prop where
  | refl (s : State σ) : Reaches s s
  | run {s t : State σ} (n : Nat) (b : Block) (h : Reaches s t) : Reaches s (runBlock n b t).state
  | register {s t : State σ} (functions : FunTable) (h : Reaches s t) :
    Reaches s { t with functions }

/-- An evaluator with a terminal value keeps it, its variables and its output. -/
theorem Reaches.frozen {s t : State σ} (h : Reaches s t) (hs : s.result ≠ none) :
    t.vars = s.vars ∧ t.result = s.result ∧ t.sink = s.sink := by
  induction h with
  | refl => exact ⟨rfl, rfl, rfl⟩
  | @run t n b h ih =>
    have ht : t.result ≠ none := ih.2.1 ▸ hs
    rw [state_runBlock]
    cases n with
    | zero => exact ih
    | succ n =>
      rw [execBlock_of_result ht]
      exact ih
  | register functions h ih => exact ih

/-- After a return, a run only tests the conditions of the loops that were being executed. -/
theorem runBlock_retest {n : Nat} {b : Block} {s : State σ} {v : Int64} (hs : s.result = none)
    (hv : (runBlock n b s).state.result = some v) :
    ∃ (es es' : List Event) (t : State σ) (loops : List (Nat × Expr)),
      runEvents n b s = es ++ [Event.returned v] ++ es' ∧
      t.sink = (es ++ [Event.returned v]).foldl Sink.receive s.sink ∧
      s.progressAt (es ++ [Event.returned v]) = t.progress (loops.map Prod.snd) ∧
      runBlock n b s = (retest loops >>= fun _ u => .done u.result u : Exec σ (Option Int64)) t := by
  let s' : State Trace := s.withSink ⟨[]⟩
  have hreport : Exec.Reported (execBlock n b : Exec Trace Unit) (execBlock n b : Exec σ Unit) :=
    (Reported.all Trace σ n).block b
  have hv' : (execBlock n b s').state.result = some v := by
    obtain ⟨es, h⟩ := (Reported.all σ Trace n).block b s
    rw [h.same, Outcome.state_withSink, ← hv, state_runBlock]
    rfl
  cases (Settled.all n).block b s' [] hs with
  | passes h =>
    obtain ⟨-, -, -, hr, -⟩ := h
    cases (hv'.symm.trans hr).trans hs
  | returned es w t loops h hes hw hrest hp =>
    obtain ⟨-, -, -, hr, -⟩ := hp
    obtain rfl : v = w := by simpa [hrest, hr, hw] using hv'.symm
    obtain ⟨es', h'⟩ := retest_reported (σ := Trace) (τ := σ) loops t
    have hsink : (execBlock n b s').state.sink =
        (es ++ [Event.returned v] ++ es').foldl Sink.receive s'.sink := by
      rw [hrest, h'.sink, h.sink, ← List.foldl_append]
    let k : σ := (es ++ [Event.returned v]).foldl Sink.receive s.sink
    have hrun : execBlock n b s = retest loops (t.withSink k) := by
      rw [h'.same, ← hrest, ← List.foldl_append]
      exact hreport.of_trace hsink s.sink
    refine ⟨es, es', t.withSink k, loops, ?_, rfl, ?_, ?_⟩
    · unfold runEvents Exec.events
      rw [state_runBlock, hsink, Trace.foldl_receive]
      simp [s', State.withSink]
    · exact h.after.trans (by rw [List.append_nil]; rfl)
    · change Exec.bind (execBlock n b) _ s = Exec.bind (retest loops) _ (t.withSink k)
      simp only [Exec.bind, hrun]

/-- **The terminal value** is set at most once in an activation, which is then frozen. Let a block
be run from any state `s`, and let the run end, fault or break off.

* Its own events account for the variables and the terminal value that it reaches.
* At any point of the run, after the events `before`, let there be a terminal value. Then at any
  later point the terminal value and the variables are the same, and in between no statement begins:
  there is output, there are calls, and conditions are tested of loops that were being executed.
* If the run sets the terminal value, then it does so by a `return` of its own, from whose state `t`
  on nothing is evaluated but the conditions of the loops that are being executed there.
* Whatever is run later, an evaluator with a terminal value keeps it, its variables and its output;
  each further run gives the terminal value, and the state is the same after it.
* A `return` in a called function does not set the terminal value of the caller. -/
theorem runBlock_frozen (n : Nat) (b : Block) (s : State σ) :
    let r : Outcome σ (Option Int64) := runBlock n b s
    (r.state.sink = (runEvents n b s).foldl Sink.receive s.sink ∧
      ∃ ls, s.progressAt (runEvents n b s) = r.state.progress ls) ∧
    (∀ before between after, runEvents n b s = before ++ between ++ after →
      (s.progressAt before).result ≠ none →
      Progress.Frozen (s.progressAt before) (s.progressAt (before ++ between))
        (ownEvents (nesting 0 before) between)) ∧
    (∀ v, s.result = none → r.state.result = some v →
      ∃ before after t loops, runEvents n b s = before ++ [Event.returned v] ++ after ∧
        t.sink = (before ++ [Event.returned v]).foldl Sink.receive s.sink ∧
        s.progressAt (before ++ [Event.returned v]) = t.progress (loops.map Prod.snd) ∧
        r = (retest loops >>= fun _ u => .done u.result u : Exec σ (Option Int64)) t) ∧
    (∀ t, r.state.result ≠ none → Reaches r.state t →
      t.vars = r.state.vars ∧ t.result = r.state.result ∧ t.sink = r.state.sink ∧
      ∀ m b', runBlock (m + 1) b' t = .done r.state.result t) ∧
    ∀ m e, (evalExpr m e s).state.result = s.result := by
  obtain ⟨hadmits, hend⟩ := progressAt_runEvents n b s
  have hreport := runBlock_reports n b s
  refine ⟨⟨hreport.sink, hend⟩, ?_, ?_, ?_, ?_⟩
  · intro before between after hes hres
    rw [hes, List.append_assoc, ownEvents_append, Progress.admits_append, ownEvents_append,
      Progress.admits_append] at hadmits
    rw [State.progressAt_append]
    exact hadmits.2.1.frozen hres
  · exact fun v hs hv => runBlock_retest hs hv
  · intro t hres ht
    obtain ⟨hvars, hresult, hsink⟩ := ht.frozen hres
    refine ⟨hvars, hresult, hsink, fun m b' => ?_⟩
    rw [← hresult]
    exact runBlock_of_result (hresult ▸ hres) m b'
  · exact fun m e => ((kept_frame.all m).expr e s).result

/-- A `return` in a loop whose condition is a call: the function is called once more, then the loop
fails, the statement behind it does not begin, and a second run does nothing. -/
theorem runBlock_frozen_in_loop :
    let c : Expr := .call "f" []
    let b : Block := [.function "f" [] [.function "f" [] [.ret (.lit 0)], .ret (.lit 1)],
      .loop c [.ret (.lit 5)], .var "x" none]
    let s : State Buffer := .fresh .empty
    let t := (runBlock 20 b s).state
    let before := (runEvents 20 b s).take 12
    let between := (runEvents 20 b s).drop 12
    (s.progressAt before).result = some 5 ∧
    ownEvents (nesting 0 before) between = [.entered "f" [], .tested c 0] ∧
    Progress.Frozen (s.progressAt before) (s.progressAt (before ++ between))
      (ownEvents (nesting 0 before) between) ∧
    t.result = some 5 ∧ runBlock 20 b t = .done (some 5) t := by
  intro c b s t before between
  have hbefore : (s.progressAt before).result = some 5 := by rfl
  have ht : t.result = some 5 := by rfl
  obtain ⟨-, hfrozen, -, hlater, -⟩ := runBlock_frozen 20 b s
  refine ⟨hbefore, by rfl, hfrozen before between [] ?_ (by simp [hbefore]), ht, ?_⟩
  · rw [List.append_nil, List.take_append_drop]
  · obtain ⟨-, -, -, hrun⟩ := hlater t (by simp [t, ht]) (.refl t)
    rw [← ht]
    exact hrun 19 b

end IntScript
