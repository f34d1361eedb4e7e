import IntScript.Proofs.Eval.Branches
import IntScript.Proofs.Eval.Loops
import IntScript.Proofs.Eval.Simulation

/-!
# What a call does

A call finds its function, then compares the numbers of parameters and arguments, then evaluates the
arguments, and then runs the body in an activation of its own.

* `BindsParams ps vs outer inner` : the variables of an activation, in terms of those of its caller
  (`bindsParams_bindAll`); these count only where they are no parameters (`BindsParams.unique`);
* `Evaluated es s vs t` : expressions are evaluated from left to right;
* `Outcome.returnTo s` : what the caller in the state `s` makes of the outcome of a body;
* `Run.activation`, `Run.endsWith_activation_iff` : a body that is run in an activation;
* `Run.call_of_none`, `Run.call_of_ne`, `Run.call_of_eq` : what a call comes to;
* `evalExpr_call` : the law of calls.
-/

namespace IntScript

variable {σ α : Type}

/-! ## Parameters -/

/-- The variables of an activation: a parameter has the value that stands where it occurs last, and
any other variable is as outside. -/
structure BindsParams (ps : List String) (vs : List Int64) (outer inner : Vars) : Prop where
  param : ∀ i x, ps[i]? = some x → x ∉ ps.drop (i + 1) → inner[x]? = vs[i]?
  other : ∀ x, x ∉ ps → inner[x]? = outer[x]?

theorem bindsParams_bindAll {ps : List String} {vs : List Int64} (h : ps.length = vs.length)
    (outer : Vars) : BindsParams ps vs outer (outer.bindAll (ps.zip vs)) := by
  induction ps generalizing vs outer with
  | nil => exact ⟨fun i x hi => by simp at hi, fun _ _ => rfl⟩
  | cons p ps ih =>
    obtain ⟨v, vs, rfl⟩ := List.exists_cons_of_length_eq_add_one h.symm
    rw [List.length_cons, List.length_cons, Nat.add_right_cancel_iff] at h
    obtain ⟨hparam, hother⟩ := ih h (outer.insert p v)
    rw [List.zip_cons_cons, Vars.bindAll_cons]
    refine ⟨fun i x hi hlast => ?_, fun x hx => ?_⟩
    · cases i with
      | zero =>
        obtain rfl : p = x := by simpa using hi
        rw [hother p hlast, Std.ExtTreeMap.getElem?_insert_self]
        rfl
      | succ i => exact hparam i x hi hlast
    · rw [List.mem_cons, not_or] at hx
      rw [hother x hx.2, getElem?_insert_of_ne (Ne.symm hx.1)]

theorem exists_last_of_mem {ps : List String} {x : String} (hx : x ∈ ps) :
    ∃ i, ps[i]? = some x ∧ x ∉ ps.drop (i + 1) := by
  induction ps with
  | nil => cases hx
  | cons p ps ih =>
    by_cases hmem : x ∈ ps
    · obtain ⟨i, hi, hlast⟩ := ih hmem
      exact ⟨i + 1, hi, hlast⟩
    · obtain rfl : x = p := (List.mem_cons.1 hx).resolve_right hmem
      exact ⟨0, rfl, hmem⟩

/-- The variables of an activation depend on those outside that are no parameters. -/
theorem BindsParams.unique {ps : List String} {vs : List Int64} {outer outer' inner inner' : Vars}
    (h : BindsParams ps vs outer inner) (h' : BindsParams ps vs outer' inner')
    (houter : ∀ x, x ∉ ps → outer'[x]? = outer[x]?) : inner' = inner := by
  refine Std.ExtTreeMap.ext_getElem? fun x => ?_
  by_cases hx : x ∈ ps
  · obtain ⟨i, hi, hlast⟩ := exists_last_of_mem hx
    rw [h.param i x hi hlast, h'.param i x hi hlast]
  · rw [h.other x hx, h'.other x hx, houter x hx]

/-! ## Arguments -/

/-- From the state `s` to the state `t`, the expressions are evaluated from left to right, each from
where the one before it has ended, and `vs` are their values. -/
inductive Evaluated [Sink σ] : List Expr → State σ → List Int64 → State σ → Prop where
  | nil (s : State σ) : Evaluated [] s [] s
  | cons {e : Expr} {es : List Expr} {v : Int64} {vs : List Int64} {s t u : State σ}
    (head : EndsWith (evalExpr · e) s (.done v t)) (tail : Evaluated es t vs u) :
    Evaluated (e :: es) s (v :: vs) u

theorem Evaluated.length_eq [Sink σ] {es : List Expr} {s t : State σ} {vs : List Int64}
    (h : Evaluated es s vs t) : vs.length = es.length := by
  induction h with
  | nil => rfl
  | cons _ _ ih => rw [List.length_cons, List.length_cons, ih]

theorem Evaluated.frame [Sink σ] {es : List Expr} {s t : State σ} {vs : List Int64}
    (h : Evaluated es s vs t) : Frame s t := by
  induction h with
  | nil s => exact kept_frame.refl s
  | cons head _ ih =>
    obtain ⟨-, n, hn⟩ := head
    exact kept_frame.trans _ _ _ (Frame.of_evalExpr hn) ih

namespace Run

variable [Sink σ]

/-- The evaluation of arguments. -/
def args (es : List Expr) : Run σ (List Int64) :=
  ⟨fun n => evalArgs n es, .of_le fun n => (Fuel.all σ n).args es⟩

theorem args_nil (s : State σ) : Same s (args []) (pure []) := .of_succ fun _ => rfl

theorem args_cons (s : State σ) (e : Expr) (es : List Expr) :
    Same s (args (e :: es)) (do let v ← expr e; let vs ← args es; pure (v :: vs)) :=
  .of_succ fun _ => rfl

theorem endsWith_args {es : List Expr} {s t : State σ} {vs : List Int64}
    (h : Evaluated es s vs t) : EndsWith (args es).withFuel s (.done vs t) := by
  induction h with
  | nil s => exact (args_nil s _).2 (endsWith_pure [] s)
  | cons head _ ih =>
    rw [args_cons, endsWith_bind_of_done head, endsWith_bind_of_done ih]
    exact endsWith_pure _ _

/-- A fault in an argument comes after the arguments before it and leaves the others out. -/
theorem endsWith_args_fault {before after : List Expr} {e : Expr} {s t u : State σ}
    {vs : List Int64} {err : Fault} (h : Evaluated before s vs t)
    (he : EndsWith (evalExpr · e) t (.fault err u)) :
    EndsWith (args (before ++ e :: after)).withFuel s (.fault err u) := by
  induction h with
  | nil s =>
    rw [List.nil_append, args_cons, endsWith_bind_iff]
    exact .inr ⟨err, u, he, rfl⟩
  | cons head _ ih =>
    rw [List.cons_append, args_cons, endsWith_bind_of_done head, endsWith_bind_iff]
    exact .inr ⟨err, u, ih he, rfl⟩

end Run

/-! ## Activations -/

/-- What the outcome of a body is for its caller in the state `s`: the terminal value is the value of
the call, or zero, and the functions and the sink are those that the body has left. -/
def Outcome.returnTo (s : State σ) : Outcome σ (Option Int64) → Outcome σ Int64
  | .done v t => .done (v.getD 0) ⟨s.vars, s.result, t.functions, t.sink⟩
  | .fault e t => .fault e ⟨s.vars, s.result, t.functions, t.sink⟩
  | .unfinished t => .unfinished ⟨s.vars, s.result, t.functions, t.sink⟩

namespace Outcome

theorem ended_returnTo_iff (s : State σ) (o : Outcome σ (Option Int64)) :
    (o.returnTo s).Ended ↔ o.Ended := by
  cases o with
  | done v t => exact iff_of_true (ended_done _ _) (ended_done _ _)
  | fault e t => exact iff_of_true (ended_fault _ _) (ended_fault _ _)
  | unfinished t => exact iff_of_false (not_ended_unfinished _) (not_ended_unfinished _)

/-- What is returned depends on the caller by its variables and its terminal value. -/
theorem returnTo_of_frame [Sink σ] {s t : State σ} (h : Frame s t) :
    returnTo t = returnTo s := by
  funext o
  cases o <;> simp only [returnTo, h.vars, h.result]

/-- For two callers, the same outcome of a body is alike. -/
theorem alike_returnTo (s t : State σ) {o : Outcome σ (Option Int64)} :
    Alike id (fun u u' => u'.functions = u.functions ∧ u'.sink = u.sink) Eq (o.returnTo s)
      (o.returnTo t) := by
  cases o with
  | done v u => exact .done rfl ⟨rfl, rfl⟩
  | fault e u => exact .fault e ⟨rfl, rfl⟩
  | unfinished u => exact .unfinished ⟨rfl, rfl⟩

end Outcome

/-- An activation is a run of the body, with the outcome returned to the caller. -/
theorem Exec.activate_execBlock [Sink σ] (bindings : List (String × Int64)) (n : Nat) (b : Block)
    (s : State σ) : Exec.activate bindings (execBlock n b) s =
      (runBlock n b ⟨s.vars.bindAll bindings, none, s.functions, s.sink⟩).returnTo s := by
  change _ = Outcome.returnTo s (Exec.bind (execBlock n b) _ _)
  simp only [Exec.activate, Exec.bind]
  cases execBlock n b ⟨s.vars.bindAll bindings, none, s.functions, s.sink⟩ <;> rfl

namespace Run

variable [Sink σ]

/-- A body that is run in an activation. -/
def activation (bindings : List (String × Int64)) (b : Block) : Run σ Int64 :=
  ⟨fun n => Exec.activate bindings (execBlock n b), fun h => .activate bindings ((block b).stable h)⟩

theorem endsWith_activation_iff (bindings : List (String × Int64)) (b : Block) (s : State σ)
    (o : Outcome σ Int64) :
    EndsWith (activation bindings b).withFuel s o ↔
      ∃ o', EndsWith (runBlock · b) ⟨s.vars.bindAll bindings, none, s.functions, s.sink⟩ o' ∧
        o = o'.returnTo s := by
  constructor
  · rintro ⟨ho, n, rfl⟩
    have hrun := Exec.activate_execBlock bindings n b s
    exact ⟨_, ⟨(Outcome.ended_returnTo_iff s _).1 (hrun ▸ ho), n, rfl⟩, hrun⟩
  · rintro ⟨o', ⟨ho, n, rfl⟩, rfl⟩
    exact ⟨(Outcome.ended_returnTo_iff s _).2 ho, n, Exec.activate_execBlock bindings n b s⟩

/-! ## Calls -/

variable {f : String} {s : State σ} {d : FunDef}

/-- The call of a function that is not the builtin. -/
def called (f : String) (es : List Expr) : Run σ Int64 :=
  ⟨fun n => callFunction n f es, .of_le fun n => (Fuel.all σ n).called f es⟩

theorem expr_call (hf : f ≠ printName) (es : List Expr) (s : State σ) :
    Same s (expr (.call f es)) (called f es) := by
  refine .of_succ fun n => ?_
  change (if f = printName then callPrint n es else callFunction n f es) s = _
  rw [if_neg hf]
  rfl

omit [Sink σ] in
theorem endsWith_fail_iff (e : Fault) (s : State σ) (o : Outcome σ α) :
    EndsWith (lift (Exec.fail e) : Run σ α).withFuel s o ↔ o = .fault e s :=
  endsWith_iff_eq (lift (Exec.fail e)) (endsWith_lift (Outcome.ended_fault e s)) o

/-- Without a function of that name, no argument is evaluated. -/
theorem call_of_none (hf : f ≠ printName) (hd : s.functions[f]? = none) (es : List Expr) :
    Same s (expr (.call f es)) (lift (Exec.fail (.functionNotFound f))) := by
  refine (expr_call hf es s).trans (.of_succ fun n => ?_)
  change Exec.bind (Exec.resolve f) _ s = _
  simp only [Exec.bind, Exec.resolve, hd]
  rfl

/-- With another number of arguments, none of them is evaluated. -/
theorem call_of_ne (hf : f ≠ printName) (hd : s.functions[f]? = some d) {es : List Expr}
    (hlen : d.params.length ≠ es.length) :
    Same s (expr (.call f es))
      (lift (Exec.fail (.argumentCountMismatch f d.params.length es.length))) := by
  refine (expr_call hf es s).trans (.of_succ fun n => ?_)
  change Exec.bind (Exec.resolve f) _ s = _
  simp only [Exec.bind, Exec.resolve, hd, if_neg hlen]
  rfl

/-- With the right number of arguments, these are evaluated, and then the body is run that was found
before. -/
theorem call_of_eq [OutputOnly σ] (hf : f ≠ printName) (hd : s.functions[f]? = some d)
    {es : List Expr} (hlen : d.params.length = es.length) :
    Same s (expr (.call f es)) (args es >>= fun vs => activation (d.params.zip vs) d.body) := by
  refine (expr_call hf es s).trans (.of_succ fun n => ?_)
  change Exec.bind (Exec.resolve f) _ s = _
  simp only [Exec.bind, Exec.resolve, hd, if_pos hlen,
    Exec.emit_eq_pure (show Event.printed? (.entered f _) = none from rfl),
    Exec.emit_eq_pure (show Event.printed? (.left f) = none from rfl), pure_bind, bind_pure]
  rfl

/-- With the arguments evaluated, a call comes to what its body does. -/
theorem endsWith_call_iff [OutputOnly σ] (hf : f ≠ printName) (hd : s.functions[f]? = some d)
    {es : List Expr} (hlen : d.params.length = es.length) {vs : List Int64} {t : State σ}
    (hvs : Evaluated es s vs t) {inner : Vars} (hinner : BindsParams d.params vs s.vars inner)
    (o : Outcome σ Int64) :
    EndsWith (expr (.call f es)).withFuel s o ↔
      ∃ o', EndsWith (runBlock · d.body) ⟨inner, none, t.functions, t.sink⟩ o' ∧
        o = o'.returnTo s := by
  have hframe : Frame s t := hvs.frame
  obtain rfl : t.vars.bindAll (d.params.zip vs) = inner :=
    hinner.unique (bindsParams_bindAll (hlen.trans hvs.length_eq.symm) _) fun x _ => by
      rw [hframe.vars]
  rw [call_of_eq hf hd hlen, endsWith_bind_of_done (endsWith_args hvs), endsWith_activation_iff,
    Outcome.returnTo_of_frame hframe]

end Run

/-- **The law of calls**, for a function `f` other than the builtin and a caller in the state `s`.

* If `f` is not registered, or registered with another number of parameters, the call faults, and the
  state is the same: no argument was evaluated.
* Otherwise `f` is what it was registered as before the arguments are evaluated, whatever these or the
  body register. If an argument faults, the call does so there. If the arguments have the values `vs`
  and leave the state `t`, the call comes to what the body does in an activation of its own: without
  terminal value, with the functions of `t`, and with variables that have the value of the last
  parameter of their name or else are the caller's.
* So two callers whose variables differ in parameters only, and whose arguments have the same values
  and leave the same functions and output, get the same from the call. -/
theorem evalExpr_call [Sink σ] [OutputOnly σ] {f : String} (hf : f ≠ printName) (s : State σ)
    (es : List Expr) :
    (s.functions[f]? = none → ∀ o, EndsWith (evalExpr · (.call f es)) s o ↔
      o = .fault (.functionNotFound f) s) ∧
    (∀ d, s.functions[f]? = some d → d.params.length ≠ es.length →
      ∀ o, EndsWith (evalExpr · (.call f es)) s o ↔
        o = .fault (.argumentCountMismatch f d.params.length es.length) s) ∧
    ∀ d, s.functions[f]? = some d → d.params.length = es.length →
      (∀ before e after vs t err u, es = before ++ e :: after → Evaluated before s vs t →
        EndsWith (evalExpr · e) t (.fault err u) →
        ∀ o, EndsWith (evalExpr · (.call f es)) s o ↔ o = .fault err u) ∧
      ∀ vs t, Evaluated es s vs t →
        (∃ inner, BindsParams d.params vs s.vars inner ∧
          ∀ o, EndsWith (evalExpr · (.call f es)) s o ↔
            ∃ o', EndsWith (runBlock · d.body) ⟨inner, none, t.functions, t.sink⟩ o' ∧
              o = o'.returnTo s) ∧
        ∀ s' t', s'.functions[f]? = some d → (∀ x, x ∉ d.params → s'.vars[x]? = s.vars[x]?) →
          Evaluated es s' vs t' → t'.functions = t.functions → t'.sink = t.sink →
          ∀ o, EndsWith (evalExpr · (.call f es)) s o →
            ∃ o', EndsWith (evalExpr · (.call f es)) s' o' ∧
              Outcome.Alike id (fun u u' => u'.functions = u.functions ∧ u'.sink = u.sink) Eq
                o o' := by
  refine ⟨fun hd o => ?_, fun d hd hlen o => ?_, fun d hd hlen => ⟨?_, fun vs t hvs => ⟨?_, ?_⟩⟩⟩
  · exact (Run.call_of_none hf hd es o).trans (Run.endsWith_fail_iff _ s o)
  · exact (Run.call_of_ne hf hd hlen o).trans (Run.endsWith_fail_iff _ s o)
  · rintro before e after vs t err u rfl hvs he o
    have hcall : EndsWith (evalExpr · (.call f (before ++ e :: after))) s (.fault err u) :=
      (Run.call_of_eq hf hd hlen _).2 <|
        (Run.endsWith_bind_iff _ _ s _).2 (.inr ⟨err, u, Run.endsWith_args_fault hvs he, rfl⟩)
    exact ⟨fun ho => Run.endsWith_unique (Run.expr _) ho hcall, fun ho => ho ▸ hcall⟩
  · have hinner := bindsParams_bindAll (hlen.trans hvs.length_eq.symm) s.vars
    exact ⟨_, hinner, Run.endsWith_call_iff hf hd hlen hvs hinner⟩
  · intro s' t' hd' hagree hvs' hfunctions hsink o ho
    have hinner := bindsParams_bindAll (hlen.trans hvs.length_eq.symm) s.vars
    -- The variables of both activations are the same.
    have hinner' : BindsParams d.params vs s'.vars (s.vars.bindAll (d.params.zip vs)) :=
      ⟨hinner.param, fun x hx => (hinner.other x hx).trans (hagree x hx).symm⟩
    obtain ⟨o', ho', rfl⟩ := (Run.endsWith_call_iff hf hd hlen hvs hinner o).1 ho
    refine ⟨o'.returnTo s', ?_, Outcome.alike_returnTo s s'⟩
    refine (Run.endsWith_call_iff hf hd' hlen hvs' hinner' _).2 ⟨o', ?_, rfl⟩
    rwa [hfunctions, hsink]

/-- The call `f(g(), 2)` of a function that has two parameters `x` and a body that registers `f` anew,
after `g` has printed and has registered `f` anew. Two callers with other values of `x` get the last
argument, and their `y` is printed. -/
theorem evalExpr_call_redeclared :
    let f : FunDef := ⟨["x", "x"],
      [.function "f" ["z"] [], .expr (.call printName [.ident "y"]), .ret (.ident "x")]⟩
    let g : FunDef := ⟨[],
      [.function "f" [] [], .expr (.call printName [.lit 7]), .ret (.lit 1)]⟩
    let es : List Expr := [.call "g" [], .lit 2]
    let s (x : Int64) : State Buffer := ⟨((∅ : Vars).insert "x" x).insert "y" 10, none,
      ((∅ : FunTable).insert "f" f).insert "g" g, .empty⟩
    "f" ≠ printName ∧ (s 5).functions["f"]? = some f ∧ f.params.length = es.length ∧
      (∀ x, x ∉ f.params → (s 6).vars[x]? = (s 5).vars[x]?) ∧
      ∃ t t' u o', Evaluated es (s 5) [1, 2] t ∧ Evaluated es (s 6) [1, 2] t' ∧
        EndsWith (evalExpr · (.call "f" es)) (s 5) (.done 2 u) ∧ u.sink.text = "7\n10\n" ∧
        (∃ inner o, BindsParams f.params [1, 2] (s 5).vars inner ∧
          EndsWith (runBlock · f.body) ⟨inner, none, t.functions, t.sink⟩ o ∧
          .done 2 u = o.returnTo (s 5)) ∧
        EndsWith (evalExpr · (.call "f" es)) (s 6) o' ∧
        Outcome.Alike id (fun u u' => u'.functions = u.functions ∧ u'.sink = u.sink) Eq
          (.done 2 u) o' := by
  intro f g es s
  have hargs : ∃ t t', Evaluated es (s 5) [1, 2] t ∧ Evaluated es (s 6) [1, 2] t' ∧
      t'.functions = t.functions ∧ t'.sink = t.sink :=
    ⟨_, _, .cons ⟨Outcome.ended_done _ _, 9, rfl⟩ (.cons ⟨Outcome.ended_done _ _, 9, rfl⟩ (.nil _)),
      .cons ⟨Outcome.ended_done _ _, 9, rfl⟩ (.cons ⟨Outcome.ended_done _ _, 9, rfl⟩ (.nil _)),
      rfl, rfl⟩
  have hrun : ∃ u, evalExpr 20 (.call "f" es) (s 5) = .done 2 u ∧ u.sink.text = "7\n10\n" := by
    simp only [s, es, f, g]
    exact ⟨_, rfl, by decide⟩
  have hagree : ∀ x, x ∉ f.params → (s 6).vars[x]? = (s 5).vars[x]? := by
    intro x hx
    have hne : "x" ≠ x := fun h => hx (h ▸ List.mem_cons_self)
    simp [s, Std.ExtTreeMap.getElem?_insert, hne]
  obtain ⟨t, t', ht, ht', hfunctions, hsink⟩ := hargs
  obtain ⟨u, hrun, htext⟩ := hrun
  have hu : EndsWith (evalExpr · (.call "f" es)) (s 5) (.done 2 u) :=
    ⟨Outcome.ended_done 2 u, 20, hrun⟩
  obtain ⟨-, -, hcall⟩ := evalExpr_call (f := "f") (by decide) (s 5) es
  obtain ⟨⟨inner, hinner, hends⟩, hsame⟩ := (hcall f rfl rfl).2 [1, 2] t ht
  obtain ⟨o, ho, hreturn⟩ := (hends _).1 hu
  obtain ⟨o', ho', halike⟩ := hsame (s 6) t' rfl hagree ht' hfunctions hsink _ hu
  exact ⟨by decide, rfl, rfl, hagree, t, t', u, o', ht, ht', hu, htext, ⟨inner, o, hinner, ho, hreturn⟩,
    ho', halike⟩

end IntScript
