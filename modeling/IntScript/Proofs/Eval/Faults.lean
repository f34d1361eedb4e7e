import IntScript.Proofs.Eval.Events
import IntScript.Proofs.Parts
import IntScript.Run

/-!
# What a fault says about the program

* `Fault.Witnessed b known e` : the block `b` has what the fault `e` is about, and `known` says of
  which functions there is a declaration that was executed;
* `Declared b t` : every function in the table `t` is declared in `b`;
* `Exec.Accounted b x` : if the registered functions are declared in `b`, then `x` keeps it that way,
  and a fault of `x` is witnessed by `b`;
* `Accounted.At b n`, `Accounted.all` : so is the evaluation of what is in `b`, with any fuel;
* `runBlock_fault` : the fault of a run is witnessed by the program and by what was executed of it.
-/

namespace IntScript

variable {σ α β : Type}

/-- What a program has in it that a fault is about. A missing function is one that is not known. -/
def Fault.Witnessed (b : Block) (known : String → Prop) : Fault → Prop
  | .variableNotFound x => .ident x ∈ Block.exprs b ∨ ∃ e, .assign x e ∈ Block.parts b
  | .functionNotFound f => f ≠ printName ∧ (∃ args, .call f args ∈ Block.exprs b) ∧ ¬known f
  | .argumentCountMismatch f expected found =>
    (∃ ps body, .function f ps body ∈ Block.parts b ∧ ps.length = expected) ∧
      (∃ args, .call f args ∈ Block.exprs b ∧ args.length = found) ∧
      expected ≠ found ∧ f ≠ printName
  | .divisionByZero => ∃ o l r, .bin o l r ∈ Block.exprs b ∧ (o = .div ∨ o = .mod)

theorem Fault.Witnessed.mono {b : Block} {known known' : String → Prop} {e : Fault}
    (h : e.Witnessed b known) (hk : ∀ f, known' f → known f) : e.Witnessed b known' := by
  cases e with
  | functionNotFound f => exact ⟨h.1, h.2.1, fun hf => h.2.2 (hk f hf)⟩
  | variableNotFound | divisionByZero | argumentCountMismatch => exact h

/-- The registered functions are declared in the block. -/
def Declared (b : Block) (t : FunTable) : Prop :=
  ∀ f d, t[f]? = some d → .function f d.params d.body ∈ Block.parts b

/-- From a state in which the registered functions are declared in the block, the run comes to such
a state, and if it faults, then the block has what the fault is about. -/
structure Exec.AccountedAt (b : Block) (x : Exec σ α) (s : State σ) : Prop where
  declared : Declared b (x s).state.functions
  fault : ∀ e t, x s = .fault e t → e.Witnessed b (· ∈ t.functions)

/-- The same from every state in which the registered functions are declared in the block. -/
def Exec.Accounted (b : Block) (x : Exec σ α) : Prop :=
  ∀ s, Declared b s.functions → x.AccountedAt b s

namespace Exec.Accounted

variable {b : Block}

/-- A run that does not fault and registers nothing. -/
theorem of_done {x : Exec σ α} (h : ∀ s, ∃ a t, x s = .done a t ∧ t.functions = s.functions) :
    Accounted b x := by
  intro s hs
  obtain ⟨a, t, hx, ht⟩ := h s
  refine ⟨?_, fun e u hu => ?_⟩
  · rw [hx, Outcome.state, ht]
    exact hs
  · rw [hx] at hu
    cases hu

theorem pure (a : α) : Accounted b (Pure.pure a : Exec σ α) := of_done fun s => ⟨a, s, rfl, rfl⟩

theorem outOfFuel : Accounted b (Exec.outOfFuel : Exec σ α) :=
  fun _ hs => ⟨hs, fun _ _ h => nomatch h⟩

/-- A fault that is witnessed whatever functions are known. -/
theorem fail {e : Fault} (he : e.Witnessed b fun _ => True) :
    Accounted b (Exec.fail e : Exec σ α) := by
  refine fun s hs => ⟨hs, fun e' t h => ?_⟩
  cases h
  exact he.mono fun _ _ => trivial

theorem emit [Sink σ] (e : Event) : Accounted b (Exec.emit e : Exec σ Unit) :=
  of_done fun _ => ⟨(), _, rfl, rfl⟩

theorem isBound (x : String) : Accounted b (Exec.isBound x : Exec σ Bool) :=
  of_done fun s => ⟨_, s, rfl, rfl⟩

theorem hasResult : Accounted b (Exec.hasResult : Exec σ Bool) := of_done fun s => ⟨_, s, rfl, rfl⟩

theorem bindVar [Sink σ] (x : String) (v : Int64) :
    Accounted b (Exec.bindVar x v : Exec σ Unit) :=
  of_done fun _ => ⟨(), _, rfl, rfl⟩

theorem finish [Sink σ] (v : Int64) : Accounted b (Exec.finish v : Exec σ Unit) :=
  of_done fun _ => ⟨(), _, rfl, rfl⟩

theorem lookup {x : String} (hx : .ident x ∈ Block.exprs b) :
    Accounted b (Exec.lookup x : Exec σ Int64) := by
  refine fun s hs => ⟨by rwa [state_lookup], fun e t h => ?_⟩
  unfold Exec.lookup at h
  split at h
  · cases h
  · cases h
    exact .inl hx

theorem apply {o : Op} {l r : Expr} (ho : .bin o l r ∈ Block.exprs b) (v w : Int64) :
    Accounted b (Exec.apply o v w : Exec σ Int64) := by
  refine fun s hs => ⟨by rwa [state_apply], fun e t h => ?_⟩
  unfold Exec.apply at h
  split at h
  · cases h
  · next hnone =>
    cases h
    exact ⟨o, l, r, ho, (Op.apply_eq_none_iff.1 hnone).1⟩

/-- The execution of a declaration of the block. -/
theorem register [Sink σ] {f : String} {d : FunDef}
    (hf : .function f d.params d.body ∈ Block.parts b) :
    Accounted b (Exec.register f d : Exec σ Unit) := by
  refine fun s hs => ⟨fun f' d' h => ?_, fun _ _ h => nomatch h⟩
  change (s.functions.insert f d)[f']? = some d' at h
  rw [Std.ExtTreeMap.getElem?_insert] at h
  split at h
  · next heq =>
    cases h
    rwa [← Std.LawfulEqCmp.eq_of_compare heq]
  · exact hs f' d' h

theorem bind {x : Exec σ α} {g : α → Exec σ β} (hx : Accounted b x)
    (hg : ∀ a, Accounted b (g a)) : Accounted b (x >>= g) := by
  intro s hs
  obtain ⟨hdecl, hfault⟩ := hx s hs
  change (Exec.bind x g).AccountedAt b s
  cases hxs : x s with
  | done a t =>
    rw [hxs] at hdecl
    have hb : Exec.bind x g s = g a t := by simp only [Exec.bind, hxs]
    have h := hg a t hdecl
    exact ⟨hb ▸ h.declared, hb ▸ h.fault⟩
  | fault e t =>
    rw [hxs] at hdecl
    have hb : Exec.bind x g s = .fault e t := by simp only [Exec.bind, hxs]
    refine ⟨by rwa [hb], fun e' t' h => ?_⟩
    rw [hb] at h
    cases h
    exact hfault e t hxs
  | unfinished t =>
    rw [hxs] at hdecl
    have hb : Exec.bind x g s = .unfinished t := by simp only [Exec.bind, hxs]
    refine ⟨by rwa [hb], fun e' t' h => ?_⟩
    rw [hb] at h
    cases h

theorem ite {c : Prop} [Decidable c] {x y : Exec σ α} (hx : c → Accounted b x)
    (hy : ¬c → Accounted b y) : Accounted b (if c then x else y) := by
  split
  · next hc => exact hx hc
  · next hc => exact hy hc

/-- A function that was found is declared in the block. -/
theorem resolve {f : String} {args : List Expr} {g : FunDef → Exec σ α} (hf : f ≠ printName)
    (hcall : .call f args ∈ Block.exprs b)
    (hg : ∀ d, .function f d.params d.body ∈ Block.parts b → Accounted b (g d)) :
    Accounted b (Exec.resolve f >>= g) := by
  intro s hs
  change (Exec.bind (Exec.resolve f) g).AccountedAt b s
  cases hd : s.functions[f]? with
  | some d =>
    have hb : Exec.bind (Exec.resolve f) g s = g d s := by simp only [Exec.bind, Exec.resolve, hd]
    have h := hg d (hs f d hd) s hs
    exact ⟨hb ▸ h.declared, hb ▸ h.fault⟩
  | none =>
    have hb : Exec.bind (Exec.resolve f) g s = .fault (.functionNotFound f) s := by
      simp only [Exec.bind, Exec.resolve, hd]
    refine ⟨?_, fun e t h => ?_⟩
    · rwa [hb]
    · rw [hb] at h
      cases h
      refine ⟨hf, ⟨args, hcall⟩, fun hmem : f ∈ s.functions => ?_⟩
      rw [Std.ExtTreeMap.mem_iff_isSome_getElem?, hd] at hmem
      cases hmem

theorem assign [Sink σ] {x : String} {e : Expr} (hx : .assign x e ∈ Block.parts b) (v : Int64) :
    Accounted b (Exec.assign x v : Exec σ Unit) :=
  .bind (isBound x) fun _ => .ite (fun _ => bindVar x v) fun _ => fail (.inr ⟨e, hx⟩)

/-- The functions and the fault of an activation are those of its body. -/
theorem activate (bindings : List (String × Int64)) {x : Exec σ Unit} (h : Accounted b x) :
    Accounted b (Exec.activate bindings x) := by
  intro s hs
  have hx := h ⟨s.vars.bindAll bindings, none, s.functions, s.sink⟩ hs
  refine ⟨by rw [state_activate]; exact hx.declared, fun e t ht => ?_⟩
  unfold Exec.activate at ht
  cases hbody : x ⟨s.vars.bindAll bindings, none, s.functions, s.sink⟩ with
  | fault e u =>
    simp only [hbody] at ht
    cases ht
    exact hx.fault e u hbody
  | done | unfinished => simp [hbody] at ht

end Exec.Accounted

/-! ## Evaluation -/

namespace Accounted

/-- What the evaluation of parts of a block accounts for with a given fuel. -/
structure At (σ : Type) [Sink σ] (b : Block) (n : Nat) : Prop where
  expr : ∀ e, e.parts ⊆ Block.exprs b → Exec.Accounted b (evalExpr n e : Exec σ Int64)
  printed : ∀ es, Expr.listParts es ⊆ Block.exprs b →
    Exec.Accounted b (callPrint n es : Exec σ Int64)
  called : ∀ f es, f ≠ printName → (Expr.call f es).parts ⊆ Block.exprs b →
    Exec.Accounted b (callFunction n f es : Exec σ Int64)
  args : ∀ es, Expr.listParts es ⊆ Block.exprs b →
    Exec.Accounted b (evalArgs n es : Exec σ (List Int64))
  block : ∀ b', Block.parts b' ⊆ Block.parts b → Exec.Accounted b (execBlock n b' : Exec σ Unit)
  stmt : ∀ s, s.parts ⊆ Block.parts b → Exec.Accounted b (execStmt n s : Exec σ Unit)
  loop : ∀ c b', c.parts ⊆ Block.exprs b → Block.parts b' ⊆ Block.parts b →
    Exec.Accounted b (execLoop n c b' : Exec σ Unit)

variable [Sink σ] {b : Block}

theorem at_zero : At σ b 0 :=
  ⟨fun _ _ => .outOfFuel, fun _ _ => .outOfFuel, fun _ _ _ _ => .outOfFuel, fun _ _ => .outOfFuel,
    fun _ _ => .outOfFuel, fun _ _ => .outOfFuel, fun _ _ _ _ => .outOfFuel⟩

section Fuel

variable {n : Nat} (ih : At σ b n)
include ih

theorem expr_succ (e : Expr) (he : e.parts ⊆ Block.exprs b) :
    Exec.Accounted b (evalExpr (n + 1) e : Exec σ Int64) := by
  cases e with
  | ident x => exact .lookup (he (Expr.self_mem_parts _))
  | lit v => exact .pure v
  | bin o l r =>
    rw [Expr.parts, List.cons_subset, List.append_subset] at he
    exact .bind (ih.expr l he.2.1) fun v => .bind (ih.expr r he.2.2) fun w => .apply he.1 v w
  | call f args =>
    exact .ite (fun _ => ih.printed args (List.cons_subset.1 he).2) fun hf => ih.called f args hf he

theorem printed_succ (es : List Expr) (hes : Expr.listParts es ⊆ Block.exprs b) :
    Exec.Accounted b (callPrint (n + 1) es : Exec σ Int64) := by
  cases es with
  | nil => exact .pure 0
  | cons e es =>
    rw [Expr.listParts, List.append_subset] at hes
    exact .bind (ih.expr e hes.1) fun _ => .bind (.emit _) fun _ => ih.printed es hes.2

/-- The body of a registered function is one of the block's. -/
theorem called_succ (f : String) (es : List Expr) (hf : f ≠ printName)
    (hes : (Expr.call f es).parts ⊆ Block.exprs b) :
    Exec.Accounted b (callFunction (n + 1) f es : Exec σ Int64) := by
  rw [Expr.parts, List.cons_subset] at hes
  refine .resolve hf hes.1 fun d hd => .ite (fun _ => ?_) fun hne => ?_
  · have hbody : Block.parts d.body ⊆ Block.parts b :=
      List.Subset.trans (List.subset_cons_self _ _) (Block.parts_subset b hd)
    refine .bind (ih.args es hes.2) fun vs => .bind (.emit _) fun _ => ?_
    exact .bind (.activate _ (ih.block d.body hbody)) fun v => .bind (.emit _) fun _ => .pure v
  · exact .fail ⟨⟨d.params, d.body, hd, rfl⟩, ⟨es, hes.1, rfl⟩, hne, hf⟩

theorem args_succ (es : List Expr) (hes : Expr.listParts es ⊆ Block.exprs b) :
    Exec.Accounted b (evalArgs (n + 1) es : Exec σ (List Int64)) := by
  cases es with
  | nil => exact .pure []
  | cons e es =>
    rw [Expr.listParts, List.append_subset] at hes
    exact .bind (ih.expr e hes.1) fun v => .bind (ih.args es hes.2) fun vs => .pure (v :: vs)

theorem block_succ (b' : Block) (hb : Block.parts b' ⊆ Block.parts b) :
    Exec.Accounted b (execBlock (n + 1) b' : Exec σ Unit) := by
  cases b' with
  | nil => exact .pure ()
  | cons s b' =>
    rw [Block.parts, List.append_subset] at hb
    refine .bind .hasResult fun _ => .ite (fun _ => .pure ()) fun _ => ?_
    exact .bind (ih.stmt s hb.1) fun _ => ih.block b' hb.2

theorem stmt_succ (s : Stmt) (hs : s.parts ⊆ Block.parts b) :
    Exec.Accounted b (execStmt (n + 1) s : Exec σ Unit) := by
  have hself : s ∈ Block.parts b := hs s.self_mem_parts
  have hexprs : s.exprs ⊆ Block.exprs b := Stmt.exprs_subset hself
  refine .bind (.emit _) fun _ => ?_
  match s with
  | .function f ps body => exact .register (d := ⟨ps, body⟩) hself
  | .var x none => exact .bindVar x 0
  | .var x (some e) => exact .bind (ih.expr e hexprs) fun v => .bindVar x v
  | .assign x e =>
    refine .bind (.isBound x) fun _ => .ite (fun _ => ?_) fun _ => .fail (.inr ⟨e, hself⟩)
    exact .bind (ih.expr e hexprs) fun v => .assign hself v
  | .loop c body => exact ih.loop c body hexprs (List.cons_subset.1 hs).2
  | .ifThen c a =>
    refine .bind (ih.expr c hexprs) fun _ => .ite (fun _ => ?_) fun _ => .pure ()
    exact ih.block a (List.cons_subset.1 hs).2
  | .ifElse c a a' =>
    rw [Stmt.parts, List.cons_subset, List.append_subset] at hs
    refine .bind (ih.expr c hexprs) fun _ => .ite (fun _ => ?_) fun _ => ?_
    · exact ih.block a hs.2.1
    · exact ih.block a' hs.2.2
  | .ret e => exact .bind (ih.expr e hexprs) fun v => .finish v
  | .expr e => exact .bind (ih.expr e hexprs) fun _ => .pure ()

theorem loop_succ (c : Expr) (b' : Block) (hc : c.parts ⊆ Block.exprs b)
    (hb : Block.parts b' ⊆ Block.parts b) :
    Exec.Accounted b (execLoop (n + 1) c b' : Exec σ Unit) := by
  refine .bind (ih.expr c hc) fun v => .bind (.emit _) fun _ => .ite (fun _ => ?_) fun _ => .pure ()
  exact .bind (ih.block b' hb) fun _ => ih.loop c b' hc hb

end Fuel

theorem all (σ : Type) [Sink σ] (b : Block) (n : Nat) : At σ b n := by
  induction n with
  | zero => exact at_zero
  | succ n ih =>
    exact ⟨expr_succ ih, printed_succ ih, called_succ ih, args_succ ih, block_succ ih, stmt_succ ih,
      loop_succ ih⟩

end Accounted

/-! ## Runs -/

/-- A function whose declaration was executed is registered. -/
theorem mem_functions_of_began [Sink σ] {n : Nat} {b : Block} {s : State σ} {f : String}
    {ps : List String} {body : Block}
    (h : Event.began (.function f ps body) ∈ runEvents n b s) :
    f ∈ (runBlock n b s).state.functions := by
  rw [(runBlock_reports n b s).functions, Std.ExtTreeMap.mem_iff_isSome_getElem?,
    FunTable.getElem?_registerAll, Option.isSome_or, Bool.or_eq_true]
  refine .inl ?_
  rw [latest, Option.isSome_map, List.find?_isSome]
  exact ⟨(f, ⟨ps, body⟩), List.mem_reverse.2 (List.mem_filterMap.2 ⟨_, h, rfl⟩), by simp⟩

/-- **Faults** are witnessed by the program text: a variable that is not found is read or assigned
to in it; a function that is not found is called in it and not the builtin, and no declaration of it
was executed before the fault in any activation; a mismatch has a declaration and a call with these
numbers of parameters and arguments; a division by zero has a division or a remainder. -/
theorem runBlock_fault [Sink σ] {n : Nat} {b : Block} {k : σ} {e : Fault} {t : State σ}
    (h : runBlock n b (.fresh k) = .fault e t) :
    e.Witnessed b fun f => ∃ ps body, Event.began (.function f ps body) ∈
      runEvents n b (.fresh k) := by
  have hrun : Exec.Accounted b (runBlock n b : Exec σ (Option Int64)) :=
    .bind ((Accounted.all σ b n).block b fun _ h => h) fun _ => .of_done fun s => ⟨_, s, rfl, rfl⟩
  have hfresh : Declared b (State.fresh k).functions := by
    intro f d hd
    simp [State.fresh] at hd
  refine ((hrun _ hfresh).fault e t h).mono ?_
  rintro f ⟨ps, body, hf⟩
  have hmem := mem_functions_of_began hf
  rwa [h] at hmem

/-- A function that redeclares itself with another number of parameters: its second call does not
match. -/
theorem runBlock_fault_redeclared :
    let call : Stmt := .expr (.call "f" [])
    let b : Block := [.function "f" [] [.function "f" ["x"] []], call, call]
    ∃ t, runBlock 20 b (State.fresh Buffer.empty) = .fault (.argumentCountMismatch "f" 1 0) t ∧
      (Fault.argumentCountMismatch "f" 1 0).Witnessed b fun f => ∃ ps body,
        Event.began (.function f ps body) ∈ runEvents 20 b (State.fresh Buffer.empty) := by
  intro call b
  have h : ∃ t, runBlock 20 b (State.fresh Buffer.empty) =
      .fault (.argumentCountMismatch "f" 1 0) t := ⟨_, rfl⟩
  obtain ⟨t, ht⟩ := h
  exact ⟨t, ht, runBlock_fault ht⟩

end IntScript
