import IntScript.Proofs.Eval.Faults
import IntScript.Proofs.Eval.Fuel

/-!
# Programs that always end

* `Block.LoopFree b` : no loop stands in the block, also not in the body of a function;
* `Ranked rank b` : what is called in the body of a function ranks below the function;
* `Exec.Ends b x` : if the registered functions are declared in `b`, then `x` ends;
* `Termination.At`, `Termination.all` : evaluation ends with fuel for its own size and for one size of
  the program per rank, since a call goes down in rank, whatever the table has for the name then;
* `runBlock_ends` : a program without loops and with ranks ends.
-/

namespace IntScript

variable {σ α β : Type}

/-- No loop stands in the block at any depth. -/
def Block.LoopFree (b : Block) : Prop := ∀ c body, .loop c body ∉ Block.parts b

/-- The functions that are called in the expressions rank below `r`. -/
def CallsBelow (rank : String → Nat) (r : Nat) (es : List Expr) : Prop :=
  ∀ f args, .call f args ∈ es → f ≠ printName → rank f < r

/-- In the body of each function of the block, only functions of a smaller rank are called; the
functions that are declared in that body have bodies of their own. -/
def Ranked (rank : String → Nat) (b : Block) : Prop :=
  ∀ f ps body, .function f ps body ∈ Block.parts b → CallsBelow rank (rank f) (Block.ownExprs body)

namespace CallsBelow

variable {rank : String → Nat} {r : Nat} {es es' : List Expr}

theorem append : CallsBelow rank r (es ++ es') ↔ CallsBelow rank r es ∧ CallsBelow rank r es' := by
  simp only [CallsBelow, List.mem_append, or_imp, forall_and]

theorem subset (h : CallsBelow rank r es') (hes : es ⊆ es') : CallsBelow rank r es :=
  fun f args hf => h f args (hes hf)

theorem mono {r' : Nat} (h : CallsBelow rank r es) (hr : r ≤ r') : CallsBelow rank r' es :=
  fun f args hf hp => Nat.lt_of_lt_of_le (h f args hf hp) hr

/-- The functions that are called in some expressions rank below a number. -/
theorem exists_rank (rank : String → Nat) (es : List Expr) : ∃ r, CallsBelow rank r es := by
  induction es with
  | nil => exact ⟨0, nofun⟩
  | cons e es ih =>
    obtain ⟨r, hr⟩ := ih
    have he : ∃ r, CallsBelow rank r [e] := by
      cases e with
      | call f args => exact ⟨rank f + 1, by simp [CallsBelow]⟩
      | ident | lit | bin => exact ⟨0, by simp [CallsBelow]⟩
    obtain ⟨q, hq⟩ := he
    exact ⟨max q r, append.2 ⟨hq.mono (Nat.le_max_left q r), hr.mono (Nat.le_max_right q r)⟩⟩

end CallsBelow

/-! ## Sizes -/

mutual

theorem Stmt.sizeOf_le : ∀ {s t : Stmt}, t ∈ s.parts → sizeOf t ≤ sizeOf s
  | .function _ _ b, _, h | .loop _ b, _, h | .ifThen _ b, _, h => by
    rcases List.mem_cons.1 h with rfl | h
    · exact Nat.le_refl _
    · have := Block.sizeOf_lt b h
      simp only [Stmt.function.sizeOf_spec, Stmt.loop.sizeOf_spec, Stmt.ifThen.sizeOf_spec]
      omega
  | .ifElse _ a b, _, h => by
    rcases List.mem_cons.1 h with rfl | h
    · exact Nat.le_refl _
    · simp only [Stmt.ifElse.sizeOf_spec]
      rcases List.mem_append.1 h with h | h
      · have := Block.sizeOf_lt a h
        omega
      · have := Block.sizeOf_lt b h
        omega
  | .var _ _, _, h | .assign _ _, _, h | .ret _, _, h | .expr _, _, h => by
    cases List.mem_singleton.1 h
    exact Nat.le_refl _

/-- What stands in a block is smaller. -/
theorem Block.sizeOf_lt : ∀ (b : List Stmt) {t : Stmt}, t ∈ Block.parts b → sizeOf t < sizeOf b
  | s :: b, _, h => by
    simp only [List.cons.sizeOf_spec]
    rcases List.mem_append.1 h with h | h
    · have := Stmt.sizeOf_le h
      omega
    · have := Block.sizeOf_lt b h
      omega

end

/-! ## Runs that end -/

/-- The run ends if the registered functions are declared in the block. -/
def Exec.Ends (b : Block) (x : Exec σ α) : Prop := ∀ s, Declared b s.functions → (x s).Ended

namespace Exec.Ends

variable {b : Block}

theorem of_done {x : Exec σ α} (h : ∀ s, ∃ a t, x s = .done a t) : Ends b x := by
  intro s _
  obtain ⟨a, t, hx⟩ := h s
  exact hx ▸ Outcome.ended_done a t

theorem pure (a : α) : Ends b (Pure.pure a : Exec σ α) := of_done fun s => ⟨a, s, rfl⟩

theorem fail (e : Fault) : Ends b (Exec.fail e : Exec σ α) := fun s _ => Outcome.ended_fault e s

theorem emit [Sink σ] (e : Event) : Ends b (Exec.emit e : Exec σ Unit) :=
  of_done fun _ => ⟨(), _, rfl⟩

theorem isBound (x : String) : Ends b (Exec.isBound x : Exec σ Bool) :=
  of_done fun s => ⟨_, s, rfl⟩

theorem bindVar [Sink σ] (x : String) (v : Int64) : Ends b (Exec.bindVar x v : Exec σ Unit) :=
  of_done fun _ => ⟨(), _, rfl⟩

theorem lookup (x : String) : Ends b (Exec.lookup x : Exec σ Int64) := by
  intro s _
  unfold Exec.lookup
  split
  · exact Outcome.ended_done _ s
  · exact Outcome.ended_fault _ s

theorem apply (o : Op) (v w : Int64) : Ends b (Exec.apply o v w : Exec σ Int64) := by
  intro s _
  unfold Exec.apply
  split
  · exact Outcome.ended_done _ s
  · exact Outcome.ended_fault _ s

/-- What follows begins with the functions that the first run leaves, which are still declared. -/
theorem bind {x : Exec σ α} {g : α → Exec σ β} (hx : Ends b x) (hacc : Exec.Accounted b x)
    (hg : ∀ a, Ends b (g a)) : Ends b (x >>= g) := by
  intro s hs
  have hend := hx s hs
  have hdecl := (hacc s hs).declared
  change (Exec.bind x g s).Ended
  unfold Exec.bind
  cases hxs : x s with
  | done a t =>
    rw [hxs] at hdecl
    exact hg a t hdecl
  | fault e t => exact Outcome.ended_fault e t
  | unfinished t =>
    rw [hxs] at hend
    exact absurd hend (Outcome.not_ended_unfinished t)

theorem ite {c : Prop} [Decidable c] {x y : Exec σ α} (hx : c → Ends b x) (hy : ¬c → Ends b y) :
    Ends b (if c then x else y) := by
  split
  · next hc => exact hx hc
  · next hc => exact hy hc

/-- A function that was found is declared in the block. -/
theorem resolve {f : String} {g : FunDef → Exec σ α}
    (hg : ∀ d, .function f d.params d.body ∈ Block.parts b → Ends b (g d)) :
    Ends b (Exec.resolve f >>= g) := by
  intro s hs
  change (Exec.bind (Exec.resolve f) g s).Ended
  unfold Exec.bind Exec.resolve
  cases hd : s.functions[f]? with
  | some d => exact hg d (hs f d hd) s hs
  | none => exact Outcome.ended_fault _ s

theorem activate (bindings : List (String × Int64)) {x : Exec σ Unit} (h : Ends b x) :
    Ends b (Exec.activate bindings x) := by
  intro s hs
  have hx := h ⟨s.vars.bindAll bindings, none, s.functions, s.sink⟩ hs
  unfold Exec.activate
  dsimp only
  split
  · exact Outcome.ended_done _ _
  · exact Outcome.ended_fault _ _
  · next t ht => exact absurd ht (hx t)

end Exec.Ends

/-! ## Evaluation -/

namespace Termination

/-- With a given fuel, evaluation ends of what takes less, where functions below a rank are called:
its own size, and the size of the program for each rank. -/
structure At (σ : Type) [Sink σ] (p : Block) (rank : String → Nat) (n : Nat) : Prop where
  expr : ∀ r e, e.parts ⊆ Block.exprs p → CallsBelow rank r e.parts →
    sizeOf e + r * sizeOf p < n → Exec.Ends p (evalExpr n e : Exec σ Int64)
  printed : ∀ r es, Expr.listParts es ⊆ Block.exprs p → CallsBelow rank r (Expr.listParts es) →
    sizeOf es + r * sizeOf p < n → Exec.Ends p (callPrint n es : Exec σ Int64)
  called : ∀ r f es, rank f < r → Expr.listParts es ⊆ Block.exprs p →
    CallsBelow rank r (Expr.listParts es) →
    sizeOf es + r * sizeOf p + 1 < n → Exec.Ends p (callFunction n f es : Exec σ Int64)
  args : ∀ r es, Expr.listParts es ⊆ Block.exprs p → CallsBelow rank r (Expr.listParts es) →
    sizeOf es + r * sizeOf p < n → Exec.Ends p (evalArgs n es : Exec σ (List Int64))
  block : ∀ r b, Block.parts b ⊆ Block.parts p → CallsBelow rank r (Block.ownExprs b) →
    sizeOf b + r * sizeOf p < n → Exec.Ends p (execBlock n b : Exec σ Unit)
  stmt : ∀ r s, s.parts ⊆ Block.parts p → CallsBelow rank r (s.ownParts.flatMap Stmt.exprs) →
    sizeOf s + r * sizeOf p < n → Exec.Ends p (execStmt n s : Exec σ Unit)

variable [Sink σ] {p : Block} {rank : String → Nat}

theorem at_zero : At σ p rank 0 :=
  ⟨nofun, nofun, nofun, nofun, nofun, nofun⟩

section Fuel

variable {n : Nat} (ih : At σ p rank n) {r : Nat}
include ih

theorem expr_succ (e : Expr) (he : e.parts ⊆ Block.exprs p) (hr : CallsBelow rank r e.parts)
    (hn : sizeOf e + r * sizeOf p < n + 1) :
    Exec.Ends p (evalExpr (n + 1) e : Exec σ Int64) := by
  have acc := Accounted.all σ p n
  cases e with
  | ident x => exact .lookup x
  | lit v => exact .pure v
  | bin o l r =>
    rw [Expr.parts, List.cons_subset, List.append_subset] at he
    rw [Expr.parts, ← List.singleton_append, CallsBelow.append, CallsBelow.append] at hr
    rw [Expr.bin.sizeOf_spec] at hn
    have hl := ih.expr _ l he.2.1 hr.2.1 (by omega)
    have hr := ih.expr _ r he.2.2 hr.2.2 (by omega)
    exact .bind hl (acc.expr l he.2.1) fun v => .bind hr (acc.expr r he.2.2) fun w => .apply o v w
  | call f args =>
    rw [Expr.parts, List.cons_subset] at he
    rw [Expr.parts, ← List.singleton_append, CallsBelow.append] at hr
    rw [Expr.call.sizeOf_spec] at hn
    refine .ite (fun _ => ih.printed r args he.2 hr.2 (by omega)) fun hf => ?_
    have hsize : 0 < sizeOf f := by
      cases f
      rw [String.ofByteArray.sizeOf_spec]
      omega
    exact ih.called r f args (hr.1 f args (List.mem_singleton_self _) hf) he.2 hr.2 (by omega)

theorem printed_succ (es : List Expr) (hes : Expr.listParts es ⊆ Block.exprs p)
    (hr : CallsBelow rank r (Expr.listParts es)) (hn : sizeOf es + r * sizeOf p < n + 1) :
    Exec.Ends p (callPrint (n + 1) es : Exec σ Int64) := by
  cases es with
  | nil => exact .pure 0
  | cons e es =>
    rw [Expr.listParts, List.append_subset] at hes
    rw [Expr.listParts, CallsBelow.append] at hr
    rw [List.cons.sizeOf_spec] at hn
    refine .bind (ih.expr r e hes.1 hr.1 (by omega)) ((Accounted.all σ p n).expr e hes.1) fun v => ?_
    exact .bind (.emit _) (.emit _) fun _ => ih.printed r es hes.2 hr.2 (by omega)

theorem args_succ (es : List Expr) (hes : Expr.listParts es ⊆ Block.exprs p)
    (hr : CallsBelow rank r (Expr.listParts es)) (hn : sizeOf es + r * sizeOf p < n + 1) :
    Exec.Ends p (evalArgs (n + 1) es : Exec σ (List Int64)) := by
  have acc := Accounted.all σ p n
  cases es with
  | nil => exact .pure []
  | cons e es =>
    rw [Expr.listParts, List.append_subset] at hes
    rw [Expr.listParts, CallsBelow.append] at hr
    rw [List.cons.sizeOf_spec] at hn
    have he := ih.expr r e hes.1 hr.1 (by omega)
    have hes' := ih.args r es hes.2 hr.2 (by omega)
    exact .bind he (acc.expr e hes.1) fun v => .bind hes' (acc.args es hes.2) fun vs => .pure (v :: vs)

/-- Whatever body the table has for the name, it is one of the program's, and calls functions of
smaller rank only: the size of the program pays for it. -/
theorem called_succ (hranked : Ranked rank p) (f : String) (es : List Expr) (hf : rank f < r)
    (hes : Expr.listParts es ⊆ Block.exprs p) (hr : CallsBelow rank r (Expr.listParts es))
    (hn : sizeOf es + r * sizeOf p + 1 < n + 1) :
    Exec.Ends p (callFunction (n + 1) f es : Exec σ Int64) := by
  have acc := Accounted.all σ p n
  refine .resolve fun d hd => .ite (fun _ => ?_) fun _ => .fail _
  have hparts : Block.parts d.body ⊆ Block.parts p :=
    List.Subset.trans (List.subset_cons_self _ _) (Block.parts_subset p hd)
  have hsize : sizeOf d.body < sizeOf p := by
    have := Block.sizeOf_lt p hd
    rw [Stmt.function.sizeOf_spec] at this
    omega
  have hrank : rank f * sizeOf p + sizeOf p ≤ r * sizeOf p := by
    rw [← Nat.succ_mul]
    exact Nat.mul_le_mul_right _ hf
  have hbody := ih.block (rank f) d.body hparts (hranked f d.params d.body hd) (by omega)
  refine .bind (ih.args r es hes hr (by omega)) (acc.args es hes) fun vs => ?_
  refine .bind (.emit _) (.emit _) fun _ => ?_
  refine .bind (.activate _ hbody) (.activate _ (acc.block d.body hparts)) fun v => ?_
  exact .bind (.emit _) (.emit _) fun _ => .pure v

theorem block_succ (b : Block) (hb : Block.parts b ⊆ Block.parts p)
    (hr : CallsBelow rank r (Block.ownExprs b)) (hn : sizeOf b + r * sizeOf p < n + 1) :
    Exec.Ends p (execBlock (n + 1) b : Exec σ Unit) := by
  cases b with
  | nil => exact .pure ()
  | cons s b =>
    rw [Block.parts, List.append_subset] at hb
    rw [Block.ownExprs, Block.ownParts, List.flatMap_append, CallsBelow.append] at hr
    rw [List.cons.sizeOf_spec] at hn
    have hs := ih.stmt r s hb.1 hr.1 (by omega)
    refine .bind (.of_done fun s => ⟨_, s, rfl⟩) .hasResult fun _ => ?_
    refine .ite (fun _ => .pure ()) fun _ => ?_
    exact .bind hs ((Accounted.all σ p n).stmt s hb.1) fun _ => ih.block r b hb.2 hr.2 (by omega)

theorem stmt_succ (hloop : Block.LoopFree p) (s : Stmt) (hs : s.parts ⊆ Block.parts p)
    (hr : CallsBelow rank r (s.ownParts.flatMap Stmt.exprs)) (hn : sizeOf s + r * sizeOf p < n + 1) :
    Exec.Ends p (execStmt (n + 1) s : Exec σ Unit) := by
  have hself : s ∈ Block.parts p := hs s.self_mem_parts
  have hexprs : s.exprs ⊆ Block.exprs p := Stmt.exprs_subset hself
  have hcalls : CallsBelow rank r s.exprs :=
    hr.subset fun e he => List.mem_flatMap.2 ⟨s, s.self_mem_ownParts, he⟩
  -- A statement evaluates at most one expression itself.
  have bindExpr : ∀ {e : Expr} {g : Int64 → Exec σ Unit}, s.exprs = e.parts → sizeOf e < sizeOf s →
      (∀ v, Exec.Ends p (g v)) → Exec.Ends p (evalExpr n e >>= g) := by
    intro e g he hlt hg
    rw [he] at hexprs hcalls
    exact .bind (ih.expr r e hexprs hcalls (by omega)) ((Accounted.all σ p n).expr e hexprs) hg
  refine .bind (.emit _) (.emit _) fun _ => ?_
  match s with
  | .function f ps body => exact .of_done fun _ => ⟨(), _, rfl⟩
  | .var x none => exact .bindVar x 0
  | .var x (some e) =>
    have hsize : sizeOf e < sizeOf (Stmt.var x (some e)) := by
      rw [Stmt.var.sizeOf_spec, Option.some.sizeOf_spec]
      omega
    exact bindExpr rfl hsize fun v => .bindVar x v
  | .assign x e =>
    have hset : ∀ v, Exec.Ends p (Exec.assign x v : Exec σ Unit) := fun v =>
      .bind (.isBound x) (.isBound x) fun _ => .ite (fun _ => .bindVar x v) fun _ => .fail _
    refine .bind (.isBound x) (.isBound x) fun _ => .ite (fun _ => ?_) fun _ => .fail _
    exact bindExpr rfl (by rw [Stmt.assign.sizeOf_spec]; omega) hset
  | .loop c body => exact absurd hself (hloop c body)
  | .ifThen c a =>
    rw [Stmt.parts, List.cons_subset] at hs
    rw [Stmt.ownParts, List.flatMap_cons, CallsBelow.append] at hr
    rw [Stmt.ifThen.sizeOf_spec] at hn
    have ha := ih.block r a hs.2 hr.2 (by omega)
    exact bindExpr rfl (by rw [Stmt.ifThen.sizeOf_spec]; omega) fun _ =>
      .ite (fun _ => ha) fun _ => .pure ()
  | .ifElse c a b =>
    rw [Stmt.parts, List.cons_subset, List.append_subset] at hs
    rw [Stmt.ownParts, List.flatMap_cons, List.flatMap_append, CallsBelow.append, CallsBelow.append]
      at hr
    rw [Stmt.ifElse.sizeOf_spec] at hn
    have ha := ih.block r a hs.2.1 hr.2.1 (by omega)
    have hb := ih.block r b hs.2.2 hr.2.2 (by omega)
    exact bindExpr rfl (by rw [Stmt.ifElse.sizeOf_spec]; omega) fun _ =>
      .ite (fun _ => ha) fun _ => hb
  | .ret e =>
    exact bindExpr rfl (by rw [Stmt.ret.sizeOf_spec]; omega) fun v => .of_done fun _ => ⟨(), _, rfl⟩
  | .expr e => exact bindExpr rfl (by rw [Stmt.expr.sizeOf_spec]; omega) fun _ => .pure ()

end Fuel

theorem all (σ : Type) [Sink σ] (hloop : Block.LoopFree p) (hranked : Ranked rank p) (n : Nat) :
    At σ p rank n := by
  induction n with
  | zero => exact at_zero
  | succ n ih =>
    exact ⟨fun _ => expr_succ ih, fun _ => printed_succ ih, fun _ => called_succ ih hranked,
      fun _ => args_succ ih, fun _ => block_succ ih, fun _ => stmt_succ ih hloop⟩

end Termination

/-! ## Runs -/

/-- **Termination**: let no loop stand in a program, and let the functions have ranks such that
what is called in the body of a function ranks below it. Then the program comes to an end from a
fresh state, with a terminal value, with none or with a fault, and in the same way with any larger
fuel. -/
theorem runBlock_ends {b : Block} {rank : String → Nat} (hloop : b.LoopFree)
    (hranked : Ranked rank b) :
    ∃ n, ∀ {σ : Type} [Sink σ] (k : σ),
      ((∃ v t, runBlock n b (.fresh k) = .done v t) ∨ ∃ e t, runBlock n b (.fresh k) = .fault e t) ∧
      ∀ m ≥ n, runBlock m b (.fresh k) = runBlock n b (.fresh k) := by
  obtain ⟨r, hr⟩ := CallsBelow.exists_rank rank (Block.ownExprs b)
  refine ⟨sizeOf b + r * sizeOf b + 1, fun {σ} _ k => ?_⟩
  have hfresh : Declared b (State.fresh k).functions := by
    intro f d hd
    simp [State.fresh] at hd
  have hends := (Termination.all σ hloop hranked _).block r b (fun _ h => h) hr (Nat.lt_succ_self _)
  have hrun : (runBlock (sizeOf b + r * sizeOf b + 1) b (.fresh k)).Ended :=
    Exec.Ends.bind hends ((Accounted.all σ b _).block b fun _ h => h)
      (fun _ => .of_done fun s => ⟨_, s, rfl⟩) _ hfresh
  exact ⟨hrun.cases, fun m hm => runBlock_approximates b hm _ hrun⟩

/-- A function that is redefined while its argument is evaluated, by a function that calls it. -/
theorem runBlock_ends_redefined :
    let call (f : String) (args : List Expr) : Expr := .call f args
    let b : Block := [.function "f" ["x"] [.ret (.ident "x")], .function "g" [] [.ret (.lit 1)],
      .function "h" [] [.function "f" ["x"] [.ret (call "g" [])], .ret (call "f" [.lit 2])],
      .expr (call "f" [call "h" []]), .ret (call "f" [call printName [.lit 3]])]
    b.LoopFree ∧ Ranked (fun f => if f = "h" then 2 else if f = "f" then 1 else 0) b ∧
      ∃ n, ∀ k : Buffer, (∃ v t, runBlock n b (.fresh k) = .done v t) ∨
        ∃ e t, runBlock n b (.fresh k) = .fault e t := by
  intro call b
  have hloop : b.LoopFree := by simp [Block.LoopFree, b, Block.parts, Stmt.parts]
  have hranked : Ranked (fun f => if f = "h" then 2 else if f = "f" then 1 else 0) b := by
    intro f ps body h
    simp only [b, Block.parts, Stmt.parts, List.mem_append, List.mem_cons, List.not_mem_nil,
      or_false, Stmt.function.injEq, reduceCtorEq] at h
    rcases h with ⟨rfl, rfl, rfl⟩ | ⟨rfl, rfl, rfl⟩ | ⟨rfl, rfl, rfl⟩ | ⟨rfl, rfl, rfl⟩ <;>
      simp [CallsBelow, Block.ownExprs, Block.ownParts, Stmt.ownParts, Stmt.exprs, call, Expr.parts,
        Expr.listParts]
  obtain ⟨n, hn⟩ := runBlock_ends hloop hranked
  exact ⟨hloop, hranked, n, fun k => (hn k).1⟩

end IntScript
