import IntScript.Proofs.Eval.Branches
import IntScript.Proofs.Eval.Matching
import IntScript.Proofs.Parts

/-!
# Functions that are not used

To declare a function does nothing until it is called, and a function with the name of the builtin is
never called. So the declarations of functions that are not called can be left out.

* `Uncalled N es` : among the names in `N`, only that of the builtin is called in `es`;
* `Stmt.without N`, `Block.without N` : programs without the declarations of functions in `N`;
* `Stmt.SameUpTo N`, `Block.SameUpTo N`, `State.SameUpTo N` : programs and states that differ in such
  functions only (`Block.sameUpTo_without`);
* `Unused.At N n`, `Unused.all` : evaluation goes the same way in both, though with different fuel;
* `Block.EndsAs k p q` : where the run of a block ends, that of another one ends in the same way;
* `runBlock_without` : the run of a block without the functions that it does not use.
-/

namespace IntScript

variable {σ : Type} {N : String → Prop}

/-! ## Programs without some functions -/

/-- No function with a name in `N` is called in the expressions, unless by the name of the builtin. -/
def Uncalled (N : String → Prop) (es : List Expr) : Prop :=
  ∀ f args, Expr.call f args ∈ es → N f → f = printName

theorem uncalled_append {es es' : List Expr} :
    Uncalled N (es ++ es') ↔ Uncalled N es ∧ Uncalled N es' := by
  constructor
  · exact fun h => ⟨fun f args hf => h f args (List.mem_append_left _ hf),
      fun f args hf => h f args (List.mem_append_right _ hf)⟩
  · rintro ⟨h, h'⟩ f args hf
    exact (List.mem_append.1 hf).elim (h f args) (h' f args)

theorem uncalled_cons {e : Expr} {es : List Expr} :
    Uncalled N (e :: es) ↔ Uncalled N [e] ∧ Uncalled N es := by
  rw [← uncalled_append, List.singleton_append]

section Without

variable (N) [DecidablePred N]

mutual

/-- What is left of the statement: nothing of a function in `N`. -/
def Stmt.without : Stmt → Block
  | .function f ps b => if N f then [] else [.function f ps (Block.without b)]
  | .var x e => [.var x e]
  | .assign x e => [.assign x e]
  | .loop c b => [.loop c (Block.without b)]
  | .ifThen c a => [.ifThen c (Block.without a)]
  | .ifElse c a b => [.ifElse c (Block.without a) (Block.without b)]
  | .ret e => [.ret e]
  | .expr e => [.expr e]

/-- The block without the functions in `N`, at any depth and in the bodies of functions as well. -/
def Block.without : List Stmt → Block
  | [] => []
  | s :: b => s.without ++ Block.without b

end

end Without

mutual

/-- The statements are the same up to declarations of functions in `N`, which are not called there. -/
inductive Stmt.SameUpTo (N : String → Prop) : Stmt → Stmt → Prop where
  | function (f : String) (ps : List String) {b b' : List Stmt} (body : Block.SameUpTo N b b') :
    Stmt.SameUpTo N (.function f ps b) (.function f ps b')
  | declare (x : String) : Stmt.SameUpTo N (.var x none) (.var x none)
  | var (x : String) {e : Expr} (init : Uncalled N e.parts) :
    Stmt.SameUpTo N (.var x (some e)) (.var x (some e))
  | assign (x : String) {e : Expr} (value : Uncalled N e.parts) :
    Stmt.SameUpTo N (.assign x e) (.assign x e)
  | loop {c : Expr} {b b' : List Stmt} (cond : Uncalled N c.parts) (body : Block.SameUpTo N b b') :
    Stmt.SameUpTo N (.loop c b) (.loop c b')
  | ifThen {c : Expr} {a a' : List Stmt} (cond : Uncalled N c.parts)
    (thenBody : Block.SameUpTo N a a') : Stmt.SameUpTo N (.ifThen c a) (.ifThen c a')
  | ifElse {c : Expr} {a a' b b' : List Stmt} (cond : Uncalled N c.parts)
    (thenBody : Block.SameUpTo N a a') (elseBody : Block.SameUpTo N b b') :
    Stmt.SameUpTo N (.ifElse c a b) (.ifElse c a' b')
  | ret {e : Expr} (value : Uncalled N e.parts) : Stmt.SameUpTo N (.ret e) (.ret e)
  | expr {e : Expr} (value : Uncalled N e.parts) : Stmt.SameUpTo N (.expr e) (.expr e)

/-- The blocks are the same up to declarations of functions in `N`, which are not called there. -/
inductive Block.SameUpTo (N : String → Prop) : List Stmt → List Stmt → Prop where
  | nil : Block.SameUpTo N [] []
  | cons {s s' : Stmt} {b b' : List Stmt} (head : Stmt.SameUpTo N s s')
    (tail : Block.SameUpTo N b b') : Block.SameUpTo N (s :: b) (s' :: b')
  | left {f : String} (ps : List String) (body : List Stmt) {b b' : List Stmt} (unused : N f)
    (tail : Block.SameUpTo N b b') : Block.SameUpTo N (.function f ps body :: b) b'
  | right {f : String} (ps : List String) (body : List Stmt) {b b' : List Stmt} (unused : N f)
    (tail : Block.SameUpTo N b b') : Block.SameUpTo N b (.function f ps body :: b')

end

mutual

theorem Stmt.SameUpTo.symm {s s' : Stmt} : s.SameUpTo N s' → s'.SameUpTo N s
  | .function f ps h => .function f ps h.symm
  | .declare x => .declare x
  | .var x h => .var x h
  | .assign x h => .assign x h
  | .loop hc h => .loop hc h.symm
  | .ifThen hc h => .ifThen hc h.symm
  | .ifElse hc h h' => .ifElse hc h.symm h'.symm
  | .ret h => .ret h
  | .expr h => .expr h

theorem Block.SameUpTo.symm {b b' : List Stmt} : Block.SameUpTo N b b' → Block.SameUpTo N b' b
  | .nil => .nil
  | .cons h h' => .cons h.symm h'.symm
  | .left ps body hf h => .right ps body hf h.symm
  | .right ps body hf h => .left ps body hf h.symm

end

section Without

variable [DecidablePred N]

mutual

/-- What is left of a statement, and of what follows it. -/
theorem Stmt.sameUpTo_without {r r' : Block} (hr : Block.SameUpTo N r r') : ∀ (s : Stmt),
    Uncalled N (s.parts.flatMap Stmt.exprs) → Block.SameUpTo N (s :: r) (s.without N ++ r')
  | .function f ps b, h => by
    unfold Stmt.without
    by_cases hf : N f
    · rw [if_pos hf]
      exact .left ps b hf hr
    · rw [if_neg hf]
      exact .cons (.function f ps (Block.sameUpTo_without b h)) hr
  | .var x none, _ => .cons (.declare x) hr
  | .var x (some e), h => .cons (.var x (uncalled_append.1 h).1) hr
  | .assign x e, h => .cons (.assign x (uncalled_append.1 h).1) hr
  | .loop c b, h =>
    .cons (.loop (uncalled_append.1 h).1 (Block.sameUpTo_without b (uncalled_append.1 h).2)) hr
  | .ifThen c a, h =>
    .cons (.ifThen (uncalled_append.1 h).1 (Block.sameUpTo_without a (uncalled_append.1 h).2)) hr
  | .ifElse c a b, h => by
    obtain ⟨hc, hab⟩ : Uncalled N c.parts ∧
        Uncalled N ((Block.parts a ++ Block.parts b).flatMap Stmt.exprs) := uncalled_append.1 h
    rw [List.flatMap_append] at hab
    obtain ⟨ha, hb⟩ := uncalled_append.1 hab
    exact .cons (.ifElse hc (Block.sameUpTo_without a ha) (Block.sameUpTo_without b hb)) hr
  | .ret e, h => .cons (.ret (uncalled_append.1 h).1) hr
  | .expr e, h => .cons (.expr (uncalled_append.1 h).1) hr

/-- The functions that are left out are not called. -/
theorem Block.sameUpTo_without : ∀ (b : List Stmt), Uncalled N (Block.exprs b) →
    Block.SameUpTo N b (Block.without N b)
  | [], _ => .nil
  | s :: b, h => by
    rw [Block.exprs, Block.parts, List.flatMap_append] at h
    obtain ⟨hs, hb⟩ := uncalled_append.1 h
    exact s.sameUpTo_without (Block.sameUpTo_without b hb) hs

end

end Without

/-! ## States without some functions -/

/-- The functions are the same up to declarations of functions in `N`. -/
inductive FunDef.SameUpTo (N : String → Prop) : FunDef → FunDef → Prop where
  | mk (ps : List String) {b b' : Block} (body : Block.SameUpTo N b b') :
    FunDef.SameUpTo N ⟨ps, b⟩ ⟨ps, b'⟩

/-- The tables have the same functions for names that are not in `N`. -/
def FunTable.SameUpTo (N : String → Prop) (t t' : FunTable) : Prop :=
  ∀ f, ¬N f → Option.Rel (FunDef.SameUpTo N) t[f]? t'[f]?

/-- The states differ in their functions only, and in these up to `N`. -/
def State.SameUpTo (N : String → Prop) (s s' : State σ) : Prop :=
  ∃ t, s' = { s with functions := t } ∧ FunTable.SameUpTo N s.functions t

namespace FunTable.SameUpTo

variable {t t' : FunTable}

theorem symm (h : t.SameUpTo N t') : t'.SameUpTo N t := by
  intro f hf
  have hrel := h f hf
  generalize t[f]? = o at hrel ⊢
  generalize t'[f]? = o' at hrel ⊢
  cases hrel with
  | none => exact .none
  | some hd =>
    obtain ⟨ps, hb⟩ := hd
    exact .some ⟨ps, hb.symm⟩

theorem insert (h : t.SameUpTo N t') (f : String) {d d' : FunDef} (hd : d.SameUpTo N d') :
    FunTable.SameUpTo N (t.insert f d) (t'.insert f d') := by
  intro g hg
  rw [Std.ExtTreeMap.getElem?_insert, Std.ExtTreeMap.getElem?_insert]
  split
  · exact .some hd
  · exact h g hg

/-- A function in `N` does not count. -/
theorem insert_left (h : t.SameUpTo N t') {f : String} (hf : N f) (d : FunDef) :
    FunTable.SameUpTo N (t.insert f d) t' := by
  intro g hg
  have hne : f ≠ g := by
    rintro rfl
    exact hg hf
  rw [getElem?_insert_of_ne hne]
  exact h g hg

end FunTable.SameUpTo

namespace State.SameUpTo

variable {s s' : State σ}

theorem result (h : s.SameUpTo N s') : s'.result = s.result := by
  obtain ⟨t, rfl, -⟩ := h
  rfl

theorem symm (h : s.SameUpTo N s') : s'.SameUpTo N s := by
  obtain ⟨t, rfl, ht⟩ := h
  exact ⟨s.functions, rfl, ht.symm⟩

/-- To register a function in `N` does not count. -/
theorem insert_left (h : s.SameUpTo N s') {f : String} (hf : N f) (d : FunDef) :
    State.SameUpTo N { s with functions := s.functions.insert f d } s' := by
  obtain ⟨t, rfl, ht⟩ := h
  exact ⟨t, rfl, ht.insert_left hf d⟩

theorem insert_right (h : s.SameUpTo N s') {f : String} (hf : N f) (d : FunDef) :
    s.SameUpTo N { s' with functions := s'.functions.insert f d } :=
  (h.symm.insert_left hf d).symm

end State.SameUpTo

/-! ## Steps -/

/-- The outcome with other functions. -/
def Outcome.withFunctions {α : Type} (t : FunTable) : Outcome σ α → Outcome σ α
  | .done a s => .done a { s with functions := t }
  | .fault e s => .fault e { s with functions := t }
  | .unfinished s => .unfinished { s with functions := t }

/-- The runs do the same step, in states that are the same up to functions in `N`. -/
abbrev Exec.SameUpTo {α β : Type} (N : String → Prop) (Q : α → β → Prop) (x : Exec σ α)
    (y : Exec σ β) : Prop :=
  Exec.Simulates id (State.SameUpTo N) Q x y

namespace Exec.SameUpTo

/-- A step that does the same whatever the functions are, and leaves them as they are. -/
theorem of_eq {α : Type} {x : Exec σ α}
    (h : ∀ (s : State σ) t, x { s with functions := t } = (x s).withFunctions t) :
    Exec.SameUpTo N Eq x x := by
  rintro s _ ⟨t, rfl, ht⟩
  have hs : x s = (x s).withFunctions s.functions := h s s.functions
  rw [h s t, hs]
  cases x s with
  | done a u => exact .done rfl ⟨t, rfl, ht⟩
  | fault e u => exact .fault e ⟨t, rfl, ht⟩
  | unfinished u => exact .unfinished ⟨t, rfl, ht⟩

theorem hasResult : Exec.SameUpTo N Eq (Exec.hasResult : Exec σ Bool) Exec.hasResult :=
  of_eq fun _ _ => rfl

theorem isBound (x : String) :
    Exec.SameUpTo N Eq (Exec.isBound x : Exec σ Bool) (Exec.isBound x) :=
  of_eq fun _ _ => rfl

theorem lookup (x : String) :
    Exec.SameUpTo N Eq (Exec.lookup x : Exec σ Int64) (Exec.lookup x) := by
  refine of_eq fun s t => ?_
  unfold Exec.lookup
  cases s.vars[x]? <;> rfl

theorem apply (o : Op) (a b : Int64) :
    Exec.SameUpTo N Eq (Exec.apply o a b : Exec σ Int64) (Exec.apply o a b) := by
  refine of_eq fun s t => ?_
  unfold Exec.apply
  cases o.apply a b <;> rfl

/-- A name that is not in `N` is found in both tables or in none of them. -/
theorem resolve {f : String} (hf : ¬N f) :
    Exec.SameUpTo N (FunDef.SameUpTo N) (Exec.resolve f : Exec σ FunDef) (Exec.resolve f) := by
  rintro s _ ⟨t, rfl, ht⟩
  have hrel := ht f hf
  simp only [Exec.resolve]
  generalize s.functions[f]? = o at hrel ⊢
  generalize t[f]? = o' at hrel ⊢
  cases hrel with
  | some hd => exact .done hd ⟨t, rfl, ht⟩
  | none => exact .fault _ ⟨t, rfl, ht⟩

section Sinks

variable [Sink σ]

theorem print (v : Int64) : Exec.SameUpTo N Eq (Exec.print v : Exec σ Unit) (Exec.print v) :=
  of_eq fun _ _ => rfl

theorem finish (v : Int64) : Exec.SameUpTo N Eq (Exec.finish v : Exec σ Unit) (Exec.finish v) :=
  of_eq fun _ _ => rfl

theorem bindVar (x : String) (v : Int64) :
    Exec.SameUpTo N Eq (Exec.bindVar x v : Exec σ Unit) (Exec.bindVar x v) :=
  of_eq fun _ _ => rfl

theorem assign (x : String) (v : Int64) :
    Exec.SameUpTo N Eq (Exec.assign x v : Exec σ Unit) (Exec.assign x v) :=
  .bindSame (isBound x) fun _ => .ite Iff.rfl (bindVar x v) (.fail _)

variable [OutputOnly σ]

/-- The events of different statements make no difference to the output. -/
theorem emit {e e' : Event} (he : e.printed? = none) (he' : e'.printed? = none) :
    Exec.SameUpTo N Eq (Exec.emit e : Exec σ Unit) (Exec.emit e') := by
  rw [Exec.emit_eq_pure he, Exec.emit_eq_pure he']
  exact .pure rfl

/-- Where only output counts, to register a function does nothing else. -/
theorem register_eq (f : String) (d : FunDef) (s : State σ) :
    Exec.register f d s = .done () { s with functions := s.functions.insert f d } := by
  change Outcome.done () ⟨s.vars, s.result, _, Sink.receive s.sink (.registered f d)⟩ = _
  rw [OutputOnly.receive_eq rfl]

theorem register (f : String) {d d' : FunDef} (hd : d.SameUpTo N d') :
    Exec.SameUpTo N Eq (Exec.register f d : Exec σ Unit) (Exec.register f d') := by
  rintro s _ ⟨t, rfl, ht⟩
  rw [register_eq, register_eq]
  exact .done rfl ⟨_, rfl, ht.insert f hd⟩

end Sinks

end Exec.SameUpTo

/-! ## Evaluation -/

/-- The second run ends as the first one does, with enough fuel. -/
abbrev Exec.MatchesUpTo {α : Type} (N : String → Prop) (x : Exec σ α) (y : Nat → Exec σ α) : Prop :=
  Exec.Matches id (State.SameUpTo N) Eq x y

/-- An activation has the functions and the output of its body. -/
theorem Exec.MatchesUpTo.activate {x : Exec σ Unit} {y : Nat → Exec σ Unit}
    (h : Exec.MatchesUpTo N x y) (bindings : List (String × Int64)) :
    Exec.MatchesUpTo N (Exec.activate bindings x) fun m => Exec.activate bindings (y m) := by
  rintro s _ ⟨t, rfl, ht⟩ hs
  have hbody := h ⟨s.vars.bindAll bindings, none, s.functions, s.sink⟩
    ⟨s.vars.bindAll bindings, none, t, s.sink⟩ ⟨t, rfl, ht⟩
  simp only [Exec.activate] at hs ⊢
  cases hx : x ⟨s.vars.bindAll bindings, none, s.functions, s.sink⟩ with
  | done a u =>
    rw [hx] at hbody
    obtain ⟨o, ho, n, hn⟩ := hbody (Outcome.ended_done a u)
    obtain ⟨_, _, rfl, -, t', rfl, ht'⟩ := ho.of_done
    exact ⟨_, .done rfl ⟨t', rfl, ht'⟩, n, fun m hm => by rw [hn m hm]⟩
  | fault e u =>
    rw [hx] at hbody
    obtain ⟨o, ho, n, hn⟩ := hbody (Outcome.ended_fault e u)
    obtain ⟨_, rfl, t', rfl, ht'⟩ := ho.of_fault
    exact ⟨_, .fault e ⟨t', rfl, ht'⟩, n, fun m hm => by rw [hn m hm]⟩
  | unfinished u =>
    simp only [hx] at hs
    exact absurd hs (Outcome.not_ended_unfinished _)

namespace Unused

/-- What goes the same way up to functions in `N`, with a given fuel for the first run. -/
structure At (σ : Type) [Sink σ] (N : String → Prop) (n : Nat) : Prop where
  expr : ∀ e : Expr, Uncalled N e.parts →
    Exec.MatchesUpTo N (evalExpr n e : Exec σ Int64) (evalExpr · e)
  printed : ∀ es, Uncalled N (Expr.listParts es) →
    Exec.MatchesUpTo N (callPrint n es : Exec σ Int64) (callPrint · es)
  called : ∀ f es, ¬N f → Uncalled N (Expr.listParts es) →
    Exec.MatchesUpTo N (callFunction n f es : Exec σ Int64) (callFunction · f es)
  args : ∀ es, Uncalled N (Expr.listParts es) →
    Exec.MatchesUpTo N (evalArgs n es : Exec σ (List Int64)) (evalArgs · es)
  block : ∀ {b b'}, Block.SameUpTo N b b' →
    Exec.MatchesUpTo N (execBlock n b : Exec σ Unit) (execBlock · b')
  stmt : ∀ {s s' : Stmt}, s.SameUpTo N s' →
    Exec.MatchesUpTo N (execStmt n s : Exec σ Unit) (execStmt · s')
  loop : ∀ c {b b'}, Uncalled N c.parts → Block.SameUpTo N b b' →
    Exec.MatchesUpTo N (execLoop n c b : Exec σ Unit) (execLoop · c b')

variable [Sink σ]

open Exec.SameUpTo

theorem at_zero : At σ N 0 :=
  ⟨fun _ _ => .outOfFuel _, fun _ _ => .outOfFuel _, fun _ _ _ _ => .outOfFuel _,
    fun _ _ => .outOfFuel _, fun _ => .outOfFuel _, fun _ => .outOfFuel _,
    fun _ _ _ _ _ => .outOfFuel _⟩

section Fuel

variable {n : Nat} (ih : At σ N n)
include ih

/-- What is called is the builtin, or it is not in `N`. -/
theorem expr_succ (e : Expr) (he : Uncalled N e.parts) :
    Exec.MatchesUpTo N (evalExpr (n + 1) e : Exec σ Int64) (evalExpr · e) := by
  refine .succ ?_
  cases e with
  | ident x => exact .of_simulates (lookup x)
  | lit v => exact .of_simulates (.pure rfl)
  | bin o l r =>
    obtain ⟨-, he⟩ := uncalled_cons.1 he
    obtain ⟨hl, hr⟩ := uncalled_append.1 he
    refine .bindSame (ih.expr l hl) fun a => .bindSame (ih.expr r hr) fun b => ?_
    exact .of_simulates (apply o a b)
  | call f es =>
    have hes : Uncalled N (Expr.listParts es) := (uncalled_cons.1 he).2
    refine .ite (fun _ => ih.printed es hes) fun hf => ih.called f es (fun hN => ?_) hes
    exact hf (he f es List.mem_cons_self hN)

theorem printed_succ (es : List Expr) (hes : Uncalled N (Expr.listParts es)) :
    Exec.MatchesUpTo N (callPrint (n + 1) es : Exec σ Int64) (callPrint · es) := by
  refine .succ ?_
  cases es with
  | nil => exact .of_simulates (.pure rfl)
  | cons e es =>
    obtain ⟨he, hes⟩ := uncalled_append.1 hes
    refine .bindSame (ih.expr e he) fun v => ?_
    exact .bindSame (.of_simulates (print v)) fun _ => ih.printed es hes

theorem args_succ (es : List Expr) (hes : Uncalled N (Expr.listParts es)) :
    Exec.MatchesUpTo N (evalArgs (n + 1) es : Exec σ (List Int64)) (evalArgs · es) := by
  refine .succ ?_
  cases es with
  | nil => exact .of_simulates (.pure rfl)
  | cons e es =>
    obtain ⟨he, hes⟩ := uncalled_append.1 hes
    refine .bindSame (ih.expr e he) fun v => ?_
    exact .bindSame (ih.args es hes) fun vs => .of_simulates (.pure rfl)

variable [OutputOnly σ]

theorem called_succ (f : String) (es : List Expr) (hf : ¬N f) (hes : Uncalled N (Expr.listParts es)) :
    Exec.MatchesUpTo N (callFunction (n + 1) f es : Exec σ Int64) (callFunction · f es) := by
  refine .succ (.bind (.of_simulates (resolve hf)) ?_)
  rintro _ _ ⟨ps, hb⟩
  refine .ite (fun _ => ?_) fun _ => .of_simulates (.fail _)
  refine .bindSame (ih.args es hes) fun vs => .bindSame (.of_simulates (emit rfl rfl)) fun _ => ?_
  refine .bindSame ((ih.block hb).activate (ps.zip vs)) fun v => ?_
  exact .bindSame (.of_simulates (emit rfl rfl)) fun _ => .of_simulates (.pure rfl)

theorem stmt_succ {s s' : Stmt} (h : s.SameUpTo N s') :
    Exec.MatchesUpTo N (execStmt (n + 1) s : Exec σ Unit) (execStmt · s') := by
  refine .succ (.bindSame (.of_simulates (emit rfl rfl)) fun _ => ?_)
  cases h with
  | function f ps hb => exact .of_simulates (register f ⟨ps, hb⟩)
  | declare x => exact .of_simulates (bindVar x 0)
  | @var x e he => exact .bindSame (ih.expr e he) fun v => .of_simulates (bindVar x v)
  | @assign x e he =>
    refine .bindSame (.of_simulates (isBound x)) fun _ => ?_
    refine .ite (fun _ => ?_) fun _ => .of_simulates (.fail _)
    exact .bindSame (ih.expr e he) fun v => .of_simulates (assign x v)
  | loop hc hb => exact ih.loop _ hc hb
  | ifThen hc ha =>
    refine .bindSame (ih.expr _ hc) fun _ => ?_
    exact .ite (fun _ => ih.block ha) fun _ => .of_simulates (.pure rfl)
  | ifElse hc ha hb =>
    refine .bindSame (ih.expr _ hc) fun _ => ?_
    exact .ite (fun _ => ih.block ha) fun _ => ih.block hb
  | @ret e he => exact .bindSame (ih.expr e he) fun v => .of_simulates (finish v)
  | @expr e he => exact .bindSame (ih.expr e he) fun _ => .of_simulates (.pure rfl)

theorem loop_succ (c : Expr) {b b' : Block} (hc : Uncalled N c.parts) (hb : Block.SameUpTo N b b') :
    Exec.MatchesUpTo N (execLoop (n + 1) c b : Exec σ Unit) (execLoop · c b') := by
  refine .succ (.bindSame (ih.expr c hc) fun v => ?_)
  refine .bindSame (.of_simulates (emit rfl rfl)) fun _ => ?_
  refine .ite (fun _ => ?_) fun _ => .of_simulates (.pure rfl)
  exact .bindSame (ih.block hb) fun _ => ih.loop c hc hb

end Fuel

/-! ## Blocks -/

/-- With a terminal value, blocks do nothing, so it remains how they end without one. -/
theorem matches_block {n : Nat} {b b' : Block}
    (h : ∀ s t : State σ, s.SameUpTo N t → s.result = none → (execBlock (n + 1) b s).Ended →
      ∃ o, Outcome.Alike id (State.SameUpTo N) Eq (execBlock (n + 1) b s) o ∧
        ∃ k, ∀ m ≥ k, execBlock m b' t = o) :
    Exec.MatchesUpTo N (execBlock (n + 1) b : Exec σ Unit) (execBlock · b') := by
  intro s t hst hs
  by_cases hresult : s.result = none
  · exact h s t hst hresult hs
  · refine ⟨.done () t, ?_, 1, fun m hm => ?_⟩
    · rw [execBlock_of_result hresult]
      exact .done rfl hst
    · obtain ⟨m, rfl⟩ := Nat.exists_eq_add_of_le' hm
      exact execBlock_of_result (hst.result ▸ hresult) m b'

variable [OutputOnly σ]

/-- A declaration takes two units of fuel and changes the functions. -/
theorem execBlock_function {s : State σ} (hs : s.result = none) (n : Nat) (f : String)
    (ps : List String) (body b : Block) :
    execBlock (n + 2) (.function f ps body :: b) s =
      execBlock (n + 1) b { s with functions := s.functions.insert f ⟨ps, body⟩ } := by
  change (if s.result.isSome then pure () else
    (Exec.emit (.began _) >>= fun _ => Exec.register f ⟨ps, body⟩) >>= fun _ =>
      execBlock (n + 1) b : Exec σ Unit) s = _
  rw [if_neg (by simp [hs]), Exec.emit_eq_pure rfl, pure_bind]
  change Exec.bind (Exec.register f ⟨ps, body⟩) _ s = _
  simp only [Exec.bind, register_eq]

/-- In the first block, a declaration is executed with less fuel for what follows. -/
theorem block_left {n : Nat} (ih : At σ N n) {f : String} (hf : N f) (ps : List String)
    (body : Block) {b b' : Block} (h : Block.SameUpTo N b b') :
    Exec.MatchesUpTo N (execBlock (n + 1) (.function f ps body :: b) : Exec σ Unit)
      (execBlock · b') := by
  refine matches_block fun s _ hst hresult hs => ?_
  cases n with
  | zero =>
    obtain ⟨u, hu⟩ : ∃ u, execBlock 1 (.function f ps body :: b) s = .unfinished u := by
      change ∃ u, (if s.result.isSome then _ else _ : Exec σ Unit) s = .unfinished u
      rw [if_neg (by simp [hresult])]
      exact ⟨_, rfl⟩
    exact absurd hu (hs u)
  | succ n =>
    rw [execBlock_function hresult] at hs ⊢
    exact ih.block h _ _ (hst.insert_left hf _) hs

/-- In the second block, a declaration takes more fuel. -/
theorem block_right {n : Nat} {b b' : Block}
    (h : Exec.MatchesUpTo N (execBlock (n + 1) b : Exec σ Unit) (execBlock · b')) {f : String}
    (hf : N f) (ps : List String) (body : Block) :
    Exec.MatchesUpTo N (execBlock (n + 1) b : Exec σ Unit)
      (execBlock · (.function f ps body :: b')) := by
  refine matches_block fun s t hst hresult hs => ?_
  obtain ⟨o, ho, k, hk⟩ := h s { t with functions := t.functions.insert f ⟨ps, body⟩ }
    (hst.insert_right hf _) hs
  refine ⟨o, ho, k + 2, fun m hm => ?_⟩
  obtain ⟨m, rfl⟩ := Nat.exists_eq_add_of_le' (Nat.le_of_add_left_le hm)
  rw [execBlock_function (hst.result ▸ hresult)]
  exact hk (m + 1) (by omega)

/-- The induction is on the second block: a declaration less in the first one leaves less fuel, but
one less in the second one does not. -/
theorem block_succ {n : Nat} (ih : At σ N n) {b b' : Block} (h : Block.SameUpTo N b b') :
    Exec.MatchesUpTo N (execBlock (n + 1) b : Exec σ Unit) (execBlock · b') := by
  induction b' generalizing b with
  | nil =>
    cases h with
    | nil => exact .succ (.of_simulates (.pure rfl))
    | left ps body hf h => exact block_left ih hf ps body h
  | cons s' b' ih' =>
    cases h with
    | cons hs hb =>
      refine .succ (.bindSame (.of_simulates hasResult) fun _ => ?_)
      refine .ite (fun _ => .of_simulates (.pure rfl)) fun _ => ?_
      exact .bindSame (ih.stmt hs) fun _ => ih.block hb
    | left ps body hf h => exact block_left ih hf ps body h
    | right ps body hf h => exact block_right (ih' h) hf ps body

theorem all (σ : Type) [Sink σ] [OutputOnly σ] (N : String → Prop) (n : Nat) : At σ N n := by
  induction n with
  | zero => exact at_zero
  | succ n ih =>
    exact ⟨expr_succ ih, printed_succ ih, called_succ ih, args_succ ih, block_succ ih, stmt_succ ih,
      loop_succ ih⟩

end Unused

/-! ## Runs -/

/-- From a fresh state, where the run of the first block ends, that of the second one does so too, with
the same terminal value or the same fault, the same output and the same variables. -/
def Block.EndsAs [Sink σ] (k : σ) (p q : Block) : Prop :=
  ∀ o, EndsWith (runBlock · p) (.fresh k) o →
    ∃ o', EndsWith (runBlock · q) (.fresh k) o' ∧
      Outcome.Alike id (fun s t => t.sink = s.sink ∧ t.vars = s.vars) Eq o o'

section EndsAs

variable [Sink σ] {k : σ} {p q r : Block}

theorem Block.EndsAs.trans (h : EndsAs k p q) (h' : EndsAs k q r) : EndsAs k p r := by
  intro o ho
  obtain ⟨o', ho', halike⟩ := h o ho
  obtain ⟨o'', ho'', halike'⟩ := h' o' ho'
  exact ⟨o'', ho'', halike.trans (fun _ _ _ h h' => ⟨h'.1.trans h.1, h'.2.trans h.2⟩) halike'⟩

theorem Block.SameUpTo.endsAs [OutputOnly σ] (h : SameUpTo N p q) : EndsAs k p q := by
  have hresult : Exec.SameUpTo N Eq (fun s => .done s.result s : Exec σ (Option Int64))
      (fun s => .done s.result s) :=
    .of_eq fun _ _ => rfl
  have hrun : ∀ n, Exec.MatchesUpTo N (runBlock n p : Exec σ (Option Int64)) (runBlock · q) :=
    fun n => .bindSame ((Unused.all σ N n).block h) fun _ => .of_simulates hresult
  have hfresh : State.SameUpTo N (.fresh k) (.fresh k) := ⟨∅, rfl, fun _ _ => .none⟩
  intro o ho
  obtain ⟨o', ho', halike⟩ := Exec.Matches.endsWith hrun hfresh ho
  refine ⟨o', ho', halike.mono ?_⟩
  rintro s _ ⟨t, rfl, -⟩
  exact ⟨rfl, rfl⟩

end EndsAs

/-- **Functions that are not used** do not matter. Let no function in `N` be called in the block `b`,
unless it has the name of the builtin. Then the run of `b` from a fresh state and that of `b` without
these functions, also where they are declared in other functions, end in the same way: if one of them
ends then the other one does, with the same terminal value or the same fault, the same output and the
same variables.

In particular the declaration of a function that has the name of the builtin changes nothing: blocks
that are the same without such declarations end in the same way. -/
theorem runBlock_without [Sink σ] [OutputOnly σ] (k : σ) :
    (∀ (N : String → Prop) [DecidablePred N] (b : Block), Uncalled N (Block.exprs b) →
      Block.EndsAs k b (Block.without N b) ∧ Block.EndsAs k (Block.without N b) b) ∧
    ∀ b b' : Block, Block.without (· = printName) b = Block.without (· = printName) b' →
      Block.EndsAs k b b' := by
  have hall : ∀ (N : String → Prop) [DecidablePred N] (b : Block), Uncalled N (Block.exprs b) →
      Block.EndsAs k b (Block.without N b) ∧ Block.EndsAs k (Block.without N b) b := by
    intro N _ b hb
    have h := Block.sameUpTo_without b hb
    exact ⟨h.endsAs, h.symm.endsAs⟩
  refine ⟨hall, fun b b' heq => ?_⟩
  obtain ⟨hb, -⟩ := hall (· = printName) b fun _ _ _ hf => hf
  obtain ⟨-, hb'⟩ := hall (· = printName) b' fun _ _ _ hf => hf
  exact (heq ▸ hb).trans hb'

/-- A program that faults. It declares a function with the name of the builtin, and one in another
function that is not used, though it calls that function itself. -/
theorem runBlock_without_fault :
    let N : String → Prop := fun f => f = "g" ∨ f = printName
    let g : Stmt := .function "g" ["n"] [.expr (.call "f" [.ident "n"])]
    let body : Block := [.expr (.call printName [.ident "n"]), .ret (.bin .div (.lit 1) (.ident "n"))]
    let main : Block := [.expr (.call printName [.call "f" [.lit 0]])]
    let b : Block := .function "f" ["n"] (g :: body) :: .function printName [] [] :: main
    let b' : Block := .function "f" ["n"] body :: main
    Uncalled N (Block.exprs b) ∧ Block.without N b = b' ∧
      ∃ t t' : State Buffer, EndsWith (runBlock · b) (.fresh .empty) (.fault .divisionByZero t) ∧
        EndsWith (runBlock · b') (.fresh .empty) (.fault .divisionByZero t') ∧
        t.sink.text = "0\n" ∧ t'.sink = t.sink ∧
        Block.EndsAs Buffer.empty (.function printName ["x"] [] :: b) b := by
  intro N g body main b b'
  have hb : Uncalled N (Block.exprs b) := by
    intro f args hf
    simp [b, g, body, main, Block.exprs, Block.parts, Stmt.parts, Stmt.exprs, Expr.parts,
      Expr.listParts] at hf
    rcases hf with ⟨rfl, -⟩ | ⟨rfl, -⟩ | ⟨rfl, -⟩ | ⟨rfl, -⟩
    all_goals decide
  have hwithout : Block.without N b = b' := by
    simp [b, b', g, body, main, N, Block.without, Stmt.without, printName]
  have hrun : ∃ t : State Buffer,
      EndsWith (runBlock · b) (.fresh .empty) (.fault .divisionByZero t) ∧ t.sink.text = "0\n" := by
    simp only [b, g, body, main]
    exact ⟨_, ⟨Outcome.ended_fault _ _, 20, rfl⟩, by decide⟩
  obtain ⟨t, ht, htext⟩ := hrun
  obtain ⟨hall, hprint⟩ := runBlock_without Buffer.empty
  obtain ⟨o', ho', halike⟩ := (hall N b hb).1 _ ht
  obtain ⟨t', rfl, hsink, -⟩ := halike.of_fault
  refine ⟨hb, hwithout, t, t', ht, hwithout ▸ ho', htext, hsink, hprint _ _ ?_⟩
  simp [Block.without, Stmt.without]

end IntScript
