import IntScript.Proofs.Eval.Simulation
import IntScript.Proofs.Output
import Mathlib.Logic.Equiv.Basic

/-!
# Programs under other names

* `Renaming` : new names for the variables and, independently, for the functions;
* `Block.rename`, `Fault.rename`, `Event.rename` : programs, faults and events under the new names;
* `Along g k m m'` : the map `m'` has for the name `g x` what `m` has for `x`, changed by `k`;
* `State.Renamed ρ`, `Exec.Renamed ρ` : states and runs that differ by the names only;
* `Renaming.At ρ n`, `Renaming.all` : evaluation under the new names, with any fuel;
* `runEvents_rename` : the events of a renamed program are the renamed events;
* `runBuffered_rename` : a renamed program has the same output and the same end.
-/

namespace IntScript

variable {α β : Type}

/-! ## Renamings -/

/-- New names for variables and, apart from these, for functions. Different names stay different, and
the builtin keeps its name. -/
structure Renaming where
  onVar : String → String
  onFun : String → String
  onVar_injective : Function.Injective onVar
  onFun_injective : Function.Injective onFun
  onFun_print : onFun printName = printName

namespace Renaming

variable (ρ : Renaming)

/-- Only the builtin gets the name of the builtin. -/
theorem onFun_eq_print_iff (f : String) : ρ.onFun f = printName ↔ f = printName :=
  ⟨fun h => ρ.onFun_injective (h.trans ρ.onFun_print.symm), fun h => h ▸ ρ.onFun_print⟩

end Renaming

mutual

/-- The expression under the new names. -/
def Expr.rename (ρ : Renaming) : Expr → Expr
  | .ident x => .ident (ρ.onVar x)
  | .lit v => .lit v
  | .bin o l r => .bin o (l.rename ρ) (r.rename ρ)
  | .call f args => .call (ρ.onFun f) (Expr.listRename ρ args)

/-- The expressions under the new names. -/
def Expr.listRename (ρ : Renaming) : List Expr → List Expr
  | [] => []
  | e :: es => e.rename ρ :: Expr.listRename ρ es

end

mutual

/-- The statement under the new names. -/
def Stmt.rename (ρ : Renaming) : Stmt → Stmt
  | .function f ps body => .function (ρ.onFun f) (ps.map ρ.onVar) (Block.rename ρ body)
  | .var x e => .var (ρ.onVar x) (e.map (Expr.rename ρ))
  | .assign x e => .assign (ρ.onVar x) (e.rename ρ)
  | .loop c body => .loop (c.rename ρ) (Block.rename ρ body)
  | .ifThen c a => .ifThen (c.rename ρ) (Block.rename ρ a)
  | .ifElse c a b => .ifElse (c.rename ρ) (Block.rename ρ a) (Block.rename ρ b)
  | .ret e => .ret (e.rename ρ)
  | .expr e => .expr (e.rename ρ)

/-- The block under the new names. -/
def Block.rename (ρ : Renaming) : List Stmt → List Stmt
  | [] => []
  | s :: b => s.rename ρ :: Block.rename ρ b

end

/-- The function under the new names. -/
def FunDef.rename (ρ : Renaming) (d : FunDef) : FunDef :=
  ⟨d.params.map ρ.onVar, Block.rename ρ d.body⟩

/-- The fault under the new names. -/
def Fault.rename (ρ : Renaming) : Fault → Fault
  | .variableNotFound x => .variableNotFound (ρ.onVar x)
  | .divisionByZero => .divisionByZero
  | .functionNotFound f => .functionNotFound (ρ.onFun f)
  | .argumentCountMismatch f expected found => .argumentCountMismatch (ρ.onFun f) expected found

/-- The event under the new names. -/
def Event.rename (ρ : Renaming) : Event → Event
  | .began s => .began (s.rename ρ)
  | .tested c v => .tested (c.rename ρ) v
  | .bound x v => .bound (ρ.onVar x) v
  | .registered f d => .registered (ρ.onFun f) (d.rename ρ)
  | .returned v => .returned v
  | .printed v => .printed v
  | .entered f vs => .entered (ρ.onFun f) vs
  | .left f => .left (ρ.onFun f)

@[simp] theorem Expr.length_listRename (ρ : Renaming) (es : List Expr) :
    (Expr.listRename ρ es).length = es.length := by
  induction es with
  | nil => rfl
  | cons e es ih => simp [Expr.listRename, ih]

/-- A renaming changes nothing about what is printed. -/
@[simp] theorem Event.printed?_rename (ρ : Renaming) (e : Event) :
    (e.rename ρ).printed? = e.printed? := by
  cases e <;> rfl

/-! ## Renamed states -/

/-- What the one map has for a name, the other one has for the new name. -/
def Along (g : String → String) (k : α → β) (m : Std.ExtTreeMap String α)
    (m' : Std.ExtTreeMap String β) : Prop :=
  ∀ x, m'[g x]? = m[x]?.map k

namespace Along

variable {g : String → String} {k : α → β} {m : Std.ExtTreeMap String α}
  {m' : Std.ExtTreeMap String β}

theorem empty : Along g k (∅ : Std.ExtTreeMap String α) (∅ : Std.ExtTreeMap String β) := by
  intro x
  simp

theorem insert (hg : Function.Injective g) (h : Along g k m m') (x : String) (v : α) :
    Along g k (m.insert x v) (m'.insert (g x) (k v)) := by
  intro y
  rw [Std.ExtTreeMap.getElem?_insert, Std.ExtTreeMap.getElem?_insert, h y]
  by_cases hxy : x = y
  · simp [hxy]
  · simp [hxy, hg.eq_iff]

theorem mem_iff (h : Along g k m m') (x : String) : g x ∈ m' ↔ x ∈ m := by
  rw [Std.ExtTreeMap.mem_iff_isSome_getElem?, Std.ExtTreeMap.mem_iff_isSome_getElem?, h x,
    Option.isSome_map]

theorem bindAll {vars vars' : Vars} (hg : Function.Injective g) (h : Along g id vars vars')
    (xs : List String) (vs : List Int64) :
    Along g id (vars.bindAll (xs.zip vs)) (vars'.bindAll ((xs.map g).zip vs)) := by
  induction xs generalizing vars vars' vs with
  | nil => exact h
  | cons x xs ih =>
    cases vs with
    | nil => exact h
    | cons v vs => exact ih (h.insert hg x v) vs

end Along

/-- The second state is the first one under the new names. -/
structure State.Renamed (ρ : Renaming) (s t : State Trace) : Prop where
  vars : Along ρ.onVar id s.vars t.vars
  result : t.result = s.result
  functions : Along ρ.onFun (FunDef.rename ρ) s.functions t.functions
  sink : t.sink.events = s.sink.events.map (Event.rename ρ)

theorem State.Renamed.fresh (ρ : Renaming) : Renamed ρ (.fresh ⟨[]⟩) (.fresh ⟨[]⟩) :=
  ⟨.empty, rfl, .empty, rfl⟩

/-! ## Renamed runs -/

/-- From a renamed state, the second run is the first one under the new names. -/
abbrev Exec.Renamed (ρ : Renaming) (Q : α → β → Prop) (x : Exec Trace α) (y : Exec Trace β) : Prop :=
  Exec.Simulates (Fault.rename ρ) (State.Renamed ρ) Q x y

namespace Exec.Renamed

variable (ρ : Renaming)

theorem emit (e : Event) : Exec.Renamed ρ Eq (Exec.emit e) (Exec.emit (e.rename ρ)) :=
  fun _ _ h => .done rfl ⟨h.vars, h.result, h.functions, congrArg (e.rename ρ :: ·) h.sink⟩

theorem isBound (x : String) : Exec.Renamed ρ Eq (Exec.isBound x) (Exec.isBound (ρ.onVar x)) :=
  fun _ _ h => .done (decide_eq_decide.2 (h.vars.mem_iff x).symm) h

theorem hasResult : Exec.Renamed ρ Eq Exec.hasResult Exec.hasResult :=
  fun _ _ h => .done (congrArg Option.isSome h.result.symm) h

theorem lookup (x : String) : Exec.Renamed ρ Eq (Exec.lookup x) (Exec.lookup (ρ.onVar x)) := by
  intro s t h
  unfold Exec.lookup
  rw [h.vars x, Option.map_id]
  cases s.vars[x]? with
  | some v => exact .done rfl h
  | none => exact .fault (.variableNotFound x) h

/-- What is found under the new name is the function under the new names. -/
theorem resolve (f : String) :
    Exec.Renamed ρ (fun d d' => d' = d.rename ρ) (Exec.resolve f) (Exec.resolve (ρ.onFun f)) := by
  intro s t h
  unfold Exec.resolve
  rw [h.functions f]
  cases s.functions[f]? with
  | some d => exact .done rfl h
  | none => exact .fault (.functionNotFound f) h

theorem apply (o : Op) (a b : Int64) : Exec.Renamed ρ Eq (Exec.apply o a b) (Exec.apply o a b) := by
  intro s t h
  unfold Exec.apply
  cases o.apply a b with
  | some v => exact .done rfl h
  | none => exact .fault .divisionByZero h

theorem bindVar (x : String) (v : Int64) :
    Exec.Renamed ρ Eq (Exec.bindVar x v) (Exec.bindVar (ρ.onVar x) v) :=
  fun _ _ h => .done rfl ⟨h.vars.insert ρ.onVar_injective x v, h.result, h.functions,
    congrArg (Event.bound (ρ.onVar x) v :: ·) h.sink⟩

theorem register (f : String) (d : FunDef) :
    Exec.Renamed ρ Eq (Exec.register f d) (Exec.register (ρ.onFun f) (d.rename ρ)) :=
  fun _ _ h => .done rfl ⟨h.vars, h.result, h.functions.insert ρ.onFun_injective f d,
    congrArg (Event.registered (ρ.onFun f) (d.rename ρ) :: ·) h.sink⟩

theorem finish (v : Int64) : Exec.Renamed ρ Eq (Exec.finish v) (Exec.finish v) :=
  fun _ _ h => .done rfl ⟨h.vars, rfl, h.functions, congrArg (Event.returned v :: ·) h.sink⟩

theorem assign (x : String) (v : Int64) :
    Exec.Renamed ρ Eq (Exec.assign x v) (Exec.assign (ρ.onVar x) v) := by
  refine .bindSame (isBound ρ x) fun _ => ?_
  exact .ite Iff.rfl (bindVar ρ x v) (.fail (.variableNotFound x))

/-- The bindings of an activation are those of the new names. -/
theorem activate (ps : List String) (vs : List Int64) {x y : Exec Trace Unit}
    (h : Exec.Renamed ρ Eq x y) :
    Exec.Renamed ρ Eq (Exec.activate (ps.zip vs) x)
      (Exec.activate ((ps.map ρ.onVar).zip vs) y) := by
  intro s t hst
  have hbody := h ⟨s.vars.bindAll (ps.zip vs), none, s.functions, s.sink⟩
    ⟨t.vars.bindAll ((ps.map ρ.onVar).zip vs), none, t.functions, t.sink⟩
    ⟨hst.vars.bindAll ρ.onVar_injective ps vs, rfl, hst.functions, hst.sink⟩
  simp only [Exec.activate]
  generalize x _ = o at hbody ⊢
  generalize y _ = o' at hbody ⊢
  cases hbody with
  | done _ hs' =>
    exact .done (by rw [hs'.result]) ⟨hst.vars, hst.result, hs'.functions, hs'.sink⟩
  | fault e hs' => exact .fault e ⟨hst.vars, hst.result, hs'.functions, hs'.sink⟩
  | unfinished hs' => exact .unfinished ⟨hst.vars, hst.result, hs'.functions, hs'.sink⟩

end Exec.Renamed

namespace Renaming

/-- What goes the same way under the new names, with a given fuel. -/
structure At (ρ : Renaming) (n : Nat) : Prop where
  expr : ∀ e, Exec.Renamed ρ Eq (evalExpr n e) (evalExpr n (e.rename ρ))
  printed : ∀ es, Exec.Renamed ρ Eq (callPrint n es) (callPrint n (Expr.listRename ρ es))
  called : ∀ f es, Exec.Renamed ρ Eq (callFunction n f es)
    (callFunction n (ρ.onFun f) (Expr.listRename ρ es))
  args : ∀ es, Exec.Renamed ρ Eq (evalArgs n es) (evalArgs n (Expr.listRename ρ es))
  block : ∀ b, Exec.Renamed ρ Eq (execBlock n b) (execBlock n (Block.rename ρ b))
  stmt : ∀ s, Exec.Renamed ρ Eq (execStmt n s) (execStmt n (s.rename ρ))
  loop : ∀ c b, Exec.Renamed ρ Eq (execLoop n c b)
    (execLoop n (c.rename ρ) (Block.rename ρ b))

variable {ρ : Renaming}

theorem at_zero : At ρ 0 :=
  ⟨fun _ => .outOfFuel, fun _ => .outOfFuel, fun _ _ => .outOfFuel, fun _ => .outOfFuel,
    fun _ => .outOfFuel, fun _ => .outOfFuel, fun _ _ => .outOfFuel⟩

section Fuel

open Exec.Renamed

variable {n : Nat} (ih : At ρ n)
include ih

theorem expr_succ (e : Expr) :
    Exec.Renamed ρ Eq (evalExpr (n + 1) e) (evalExpr (n + 1) (e.rename ρ)) := by
  cases e with
  | ident x => exact lookup ρ x
  | lit v => exact .pure rfl
  | bin o l r => exact .bindSame (ih.expr l) fun a => .bindSame (ih.expr r) fun b => apply ρ o a b
  | call f args => exact .ite (ρ.onFun_eq_print_iff f) (ih.printed args) (ih.called f args)

theorem printed_succ (es : List Expr) :
    Exec.Renamed ρ Eq (callPrint (n + 1) es) (callPrint (n + 1) (Expr.listRename ρ es)) := by
  cases es with
  | nil => exact .pure rfl
  | cons e es =>
    exact .bindSame (ih.expr e) fun v => .bindSame (emit ρ (.printed v)) fun _ => ih.printed es

/-- The function that is found has as many parameters under the new names. -/
theorem called_succ (f : String) (es : List Expr) :
    Exec.Renamed ρ Eq (callFunction (n + 1) f es)
      (callFunction (n + 1) (ρ.onFun f) (Expr.listRename ρ es)) := by
  refine .bind (resolve ρ f) ?_
  rintro d _ rfl
  have hparams : (d.rename ρ).params.length = d.params.length := List.length_map _
  rw [hparams, Expr.length_listRename]
  refine .ite Iff.rfl ?_ (.fail (.argumentCountMismatch f d.params.length es.length))
  refine .bindSame (ih.args es) fun vs => .bindSame (emit ρ (.entered f vs)) fun _ => ?_
  refine .bindSame (activate ρ d.params vs (ih.block d.body)) fun v => ?_
  exact .bindSame (emit ρ (.left f)) fun _ => .pure rfl

theorem args_succ (es : List Expr) :
    Exec.Renamed ρ Eq (evalArgs (n + 1) es) (evalArgs (n + 1) (Expr.listRename ρ es)) := by
  cases es with
  | nil => exact .pure rfl
  | cons e es => exact .bindSame (ih.expr e) fun v => .bindSame (ih.args es) fun vs => .pure rfl

theorem block_succ (b : Block) :
    Exec.Renamed ρ Eq (execBlock (n + 1) b) (execBlock (n + 1) (Block.rename ρ b)) := by
  cases b with
  | nil => exact .pure rfl
  | cons s b =>
    refine .bindSame (hasResult ρ) fun _ => .ite Iff.rfl (.pure rfl) ?_
    exact .bindSame (ih.stmt s) fun _ => ih.block b

theorem stmt_succ (s : Stmt) :
    Exec.Renamed ρ Eq (execStmt (n + 1) s) (execStmt (n + 1) (s.rename ρ)) := by
  refine .bindSame (emit ρ (.began s)) fun _ => ?_
  match s with
  | .function f ps body => exact register ρ f ⟨ps, body⟩
  | .var x none => exact bindVar ρ x 0
  | .var x (some e) => exact .bindSame (ih.expr e) fun v => bindVar ρ x v
  | .assign x e =>
    refine .bindSame (isBound ρ x) fun _ => .ite Iff.rfl ?_ (.fail (.variableNotFound x))
    exact .bindSame (ih.expr e) fun v => assign ρ x v
  | .loop c body => exact ih.loop c body
  | .ifThen c a => exact .bindSame (ih.expr c) fun _ => .ite Iff.rfl (ih.block a) (.pure rfl)
  | .ifElse c a b => exact .bindSame (ih.expr c) fun _ => .ite Iff.rfl (ih.block a) (ih.block b)
  | .ret e => exact .bindSame (ih.expr e) fun v => finish ρ v
  | .expr e => exact .bindSame (ih.expr e) fun _ => .pure rfl

theorem loop_succ (c : Expr) (b : Block) :
    Exec.Renamed ρ Eq (execLoop (n + 1) c b)
      (execLoop (n + 1) (c.rename ρ) (Block.rename ρ b)) := by
  refine .bindSame (ih.expr c) fun v => .bindSame (emit ρ (.tested c v)) fun _ => ?_
  refine .ite Iff.rfl ?_ (.pure rfl)
  exact .bindSame (ih.block b) fun _ => ih.loop c b

end Fuel

/-- Evaluation goes the same way under the new names. -/
theorem all (ρ : Renaming) (n : Nat) : At ρ n := by
  induction n with
  | zero => exact at_zero
  | succ n ih =>
    exact ⟨expr_succ ih, printed_succ ih, called_succ ih, args_succ ih, block_succ ih, stmt_succ ih,
      loop_succ ih⟩

end Renaming

/-! ## Renamed programs -/

section Program

variable (ρ : Renaming) (n : Nat) (b : Block)

theorem runBlock_renamed :
    Exec.Renamed ρ Eq (runBlock n b) (runBlock n (Block.rename ρ b)) :=
  .bindSame ((Renaming.all ρ n).block b) fun _ _ _ h => .done h.result.symm h

/-- A renamed program reports the events of the program under the new names. -/
theorem runEvents_rename {σ : Type} (k : σ) :
    runEvents n (Block.rename ρ b) (.fresh k) =
      (runEvents n b (.fresh k)).map (Event.rename ρ) := by
  have h := (runBlock_renamed ρ n b _ _ (State.Renamed.fresh ρ)).state.sink
  change List.reverse _ = (List.reverse _).map _
  rw [List.map_reverse]
  exact congrArg List.reverse h

/-- The new names are not printed. -/
theorem output_rename {σ : Type} (k : σ) :
    output n (Block.rename ρ b) (.fresh k) = output n b (.fresh k) := by
  unfold output printedValues
  rw [runEvents_rename, List.filterMap_map]
  congr 2
  funext e
  exact e.printed?_rename ρ

/-- From a fresh state, the two programs end in the same way with the same output. -/
theorem runBuffered_alike :
    Outcome.Alike (Fault.rename ρ) (fun s t => t.sink = s.sink) Eq (runBuffered n b)
      (runBuffered n (Block.rename ρ b)) := by
  rw [runBuffered_eq n b (⟨[]⟩ : Trace), runBuffered_eq n (Block.rename ρ b) (⟨[]⟩ : Trace),
    output_rename]
  exact (runBlock_renamed ρ n b _ _ (State.Renamed.fresh ρ)).withSink _

end Program

/-- **Renaming**: if a program ends, then under other names, chosen for the variables and apart from
these for the functions, it ends with the same output, and with the same terminal value or with the
same fault under the new names. -/
theorem runBuffered_rename (ρ : Renaming) (n : Nat) (b : Block) :
    (∀ v s, runBuffered n b = .done v s →
      ∃ t, runBuffered n (Block.rename ρ b) = .done v t ∧ t.sink.text = s.sink.text) ∧
    ∀ e s, runBuffered n b = .fault e s →
      ∃ t, runBuffered n (Block.rename ρ b) = .fault (e.rename ρ) t ∧
        t.sink.text = s.sink.text := by
  have h := runBuffered_alike ρ n b
  refine ⟨fun v s hs => ?_, fun e s hs => ?_⟩
  · rw [hs] at h
    obtain ⟨_, t, ht, rfl, hsink⟩ := h.of_done
    exact ⟨t, ht, by rw [hsink]⟩
  · rw [hs] at h
    obtain ⟨t, ht, hsink⟩ := h.of_fault
    exact ⟨t, ht, by rw [hsink]⟩

/-- A variable may have the name of the builtin, and a function that of a variable. -/
theorem runBuffered_rename_swapped :
    let ρ : Renaming := ⟨Equiv.swap "x" "println", Equiv.swap "f" "x", Equiv.injective _,
      Equiv.injective _, by decide⟩
    let body : Block := [.expr (.call "println" [.ident "x"]), .ret (.call "x" [.lit 1])]
    let b : Block := [.function "f" ["x"] body, .expr (.call "f" [.lit 7])]
    let body' : Block :=
      [.expr (.call "println" [.ident "println"]), .ret (.call "f" [.lit 1])]
    Block.rename ρ b = [.function "x" ["println"] body', .expr (.call "x" [.lit 7])] ∧
      ∃ s t, runBuffered 20 b = .fault (.functionNotFound "x") s ∧
        runBuffered 20 (Block.rename ρ b) = .fault (.functionNotFound "f") t ∧
        s.sink.text = "7\n" ∧ t.sink.text = s.sink.text := by
  intro ρ body b body'
  have h : ∃ s, runBuffered 20 b = .fault (.functionNotFound "x") s ∧ s.sink.text = "7\n" :=
    ⟨_, rfl, by decide⟩
  obtain ⟨s, hs, htext⟩ := h
  obtain ⟨t, ht, hout⟩ := (runBuffered_rename ρ 20 b).2 _ s hs
  exact ⟨by decide, s, t, hs, ht, htext, hout⟩

end IntScript
