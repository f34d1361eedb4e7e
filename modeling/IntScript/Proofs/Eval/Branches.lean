import IntScript.Proofs.Eval.Sequencing
import IntScript.Proofs.Output

/-!
# Moving statements into branches

What stands behind a conditional is executed after either branch, unless there is a terminal value
then; so it can as well stand at the end of both.

* `Run.stmt_ifThen`, `Run.stmt_ifElse` : what a conditional does, as far as output goes;
* `Run.block_ifElse`, `Run.block_ifThen` : what follows it is moved into its branches;
* `Run.block_ret` : what follows a `return` can be left out;
* `Stmt.followedBy`, `Block.followedBy` : statements and what follows them, where this is done at
  every depth of conditionals (`Run.block_followedBy`);
* `runBlock_branches` : the same for runs.
-/

namespace IntScript

variable {σ : Type} [Sink σ]

/-- Where only output counts, to report another event is nothing. -/
theorem Exec.emit_eq_pure [OutputOnly σ] {e : Event} (he : e.printed? = none) :
    (Exec.emit e : Exec σ Unit) = pure () := by
  funext s
  change Outcome.done () ⟨s.vars, s.result, s.functions, Sink.receive s.sink e⟩ = Outcome.done () s
  rw [OutputOnly.receive_eq he]

namespace Run

/-- Where only output counts, a statement is what it does after it is reported. -/
theorem stmt_of_began [OutputOnly σ] {st : Stmt} {x : Run σ Unit} (s : State σ)
    (h : ∀ n, execStmt (n + 1) st = Exec.emit (.began st) >>= fun _ => x.withFuel n) :
    Same s (stmt st) x := by
  refine .of_succ fun n => ?_
  change execStmt (n + 1) st s = _
  rw [h, Exec.emit_eq_pure rfl, pure_bind]

section Conditionals

variable [OutputOnly σ] (s : State σ) (c : Expr) (a b r : Block)

theorem stmt_ifElse :
    Same s (stmt (.ifElse c a b)) (expr c >>= fun v => if truthy v then block a else block b) := by
  refine stmt_of_began s fun n => ?_
  simp only [withFuel_bind, withFuel_ite]
  rfl

theorem stmt_ifThen :
    Same s (stmt (.ifThen c a)) (expr c >>= fun v => if truthy v then block a else pure ()) := by
  refine stmt_of_began s fun n => ?_
  simp only [withFuel_bind, withFuel_ite]
  rfl

/-- The branches of a conditional can be exchanged for others that end in the same ways. -/
theorem stmt_ifElse_congr {a' b' : Block} (ha : ∀ t : State σ, Same t (block a) (block a'))
    (hb : ∀ t : State σ, Same t (block b) (block b')) :
    Same s (stmt (.ifElse c a b)) (stmt (.ifElse c a' b')) :=
  calc
    Same s (stmt (.ifElse c a b)) (expr c >>= fun v => if truthy v then block a else block b) :=
      stmt_ifElse s c a b
    Same s _ (expr c >>= fun v => if truthy v then block a' else block b') :=
      .bindRight fun _ t => .ite (fun _ => ha t) fun _ => hb t
    Same s _ (stmt (.ifElse c a' b')) := (stmt_ifElse s c a' b').symm

/-- A missing branch is as good as an empty one. -/
theorem stmt_ifThen_eq : Same s (stmt (.ifThen c a)) (stmt (.ifElse c a [])) :=
  calc
    Same s (stmt (.ifThen c a)) (expr c >>= fun v => if truthy v then block a else pure ()) :=
      stmt_ifThen s c a
    Same s _ (expr c >>= fun v => if truthy v then block a else block []) :=
      .bindRight fun _ t => .ite (fun _ => .refl t _) fun _ => (block_nil t).symm
    Same s _ (stmt (.ifElse c a [])) := (stmt_ifElse s c a []).symm

theorem block_ifElse : Same s (block (.ifElse c a b :: r)) (block [.ifElse c (a ++ r) (b ++ r)]) :=
  block_same fun hs =>
    calc
      Same s (block (.ifElse c a b :: r)) (stmt (.ifElse c a b) >>= fun _ => block r) :=
        block_cons hs _ r
      Same s _ ((expr c >>= fun v => if truthy v then block a else block b) >>= fun _ => block r) :=
        (stmt_ifElse s c a b).bindLeft _
      _ = expr c >>= fun v => (if truthy v then block a else block b) >>= fun _ => block r :=
        bind_assoc _ _ _
      Same s _ (expr c >>= fun v => if truthy v then block (a ++ r) else block (b ++ r)) := by
        refine .bindRight fun v t => ?_
        split
        · exact (block_append a r t).symm
        · exact (block_append b r t).symm
      Same s _ (stmt (.ifElse c (a ++ r) (b ++ r))) := (stmt_ifElse s c _ _).symm
      Same s _ (block [.ifElse c (a ++ r) (b ++ r)]) := (block_single hs _).symm

theorem block_ifThen : Same s (block (.ifThen c a :: r)) (block [.ifElse c (a ++ r) r]) :=
  calc
    Same s (block (.ifThen c a :: r)) (block (.ifElse c a [] :: r)) :=
      block_congr_left (stmt_ifThen_eq s c a) r
    Same s _ (block [.ifElse c (a ++ r) r]) := block_ifElse s c a [] r

end Conditionals

/-- A `return` that comes to its end has set the terminal value. -/
theorem result_of_ret {e : Expr} {s t : State σ}
    (h : EndsWith (stmt (.ret e)).withFuel s (.done () t)) : t.result ≠ none := by
  obtain ⟨-, n, hn⟩ := h
  cases n with
  | zero => cases hn
  | succ n =>
    change Exec.bind (evalExpr n e) (fun v => Exec.finish v) _ = _ at hn
    unfold Exec.bind at hn
    split at hn
    · cases hn
      exact nofun
    · cases hn
    · cases hn

/-- What follows a `return` is not executed. -/
theorem block_ret (s : State σ) (e : Expr) (r : Block) :
    Same s (block (.ret e :: r)) (block [.ret e]) :=
  block_congr_right _ fun _ h =>
    (block_of_result (result_of_ret h) r).trans (block_of_result (result_of_ret h) []).symm

end Run

/-! ## Nested conditionals -/

mutual

/-- The statement followed by `r`, where nothing is left behind a conditional or a `return`: what
follows a conditional stands in its branches, what follows a `return` is left out. -/
def Stmt.followedBy : Stmt → Block → Block
  | .ifThen c a, r => [.ifElse c (Block.followedBy a r) r]
  | .ifElse c a b, r => [.ifElse c (Block.followedBy a r) (Block.followedBy b r)]
  | .ret e, _ => [.ret e]
  | s, r => s :: r

/-- The block followed by `r`, where nothing is left behind a conditional or a `return`. -/
def Block.followedBy : List Stmt → Block → Block
  | [], r => r
  | s :: b, r => s.followedBy (Block.followedBy b r)

end

/-- The statement is a conditional or a `return`. -/
def Stmt.isTail : Stmt → Bool
  | .ifThen _ _ | .ifElse _ _ _ | .ret _ => true
  | _ => false

/-- Nothing stands behind a conditional or a `return` of the block, at any depth of conditionals. -/
inductive Block.Tailed : Block → Prop
  | nil : Tailed []
  | ret (e : Expr) : Tailed [.ret e]
  | ifThen (c : Expr) {a : Block} (ha : Tailed a) : Tailed [.ifThen c a]
  | ifElse (c : Expr) {a b : Block} (ha : Tailed a) (hb : Tailed b) : Tailed [.ifElse c a b]
  | cons {s : Stmt} {r : Block} (hs : s.isTail = false) (hr : Tailed r) : Tailed (s :: r)

mutual

theorem Stmt.tailed_followedBy : ∀ (s : Stmt) {r : Block}, r.Tailed → (s.followedBy r).Tailed
  | .ifThen c a, _, hr => .ifElse c (Block.tailed_followedBy a hr) hr
  | .ifElse c a b, _, hr => .ifElse c (Block.tailed_followedBy a hr) (Block.tailed_followedBy b hr)
  | .ret e, _, _ => .ret e
  | .function .., _, hr | .var .., _, hr | .assign .., _, hr | .loop .., _, hr | .expr _, _, hr =>
    .cons rfl hr

theorem Block.tailed_followedBy : ∀ (b : List Stmt) {r : Block}, r.Tailed →
    (Block.followedBy b r).Tailed
  | [], _, hr => hr
  | s :: b, _, hr => s.tailed_followedBy (Block.tailed_followedBy b hr)

end

namespace Run

mutual

/-- What follows a statement is executed as if it stood in the branches of the statement. -/
theorem stmt_followedBy [OutputOnly σ] : ∀ (st : Stmt) (r : Block) (s : State σ),
    Same s (block (st :: r)) (block (st.followedBy r))
  | .ifThen c a, r, s =>
    (block_ifThen s c a r).trans <|
      block_congr_left (stmt_ifElse_congr s c _ _ (block_followedBy a r) fun t => .refl t _) []
  | .ifElse c a b, r, s =>
    (block_ifElse s c a b r).trans <|
      block_congr_left (stmt_ifElse_congr s c _ _ (block_followedBy a r) (block_followedBy b r)) []
  | .ret e, r, s => block_ret s e r
  | .function .., _, s | .var .., _, s | .assign .., _, s | .loop .., _, s | .expr _, _, s =>
    .refl s _

theorem block_followedBy [OutputOnly σ] : ∀ (b : List Stmt) (r : Block) (s : State σ),
    Same s (block (b ++ r)) (block (Block.followedBy b r))
  | [], r, s => .refl s (block r)
  | st :: b, r, s =>
    (block_congr_right st fun t _ => block_followedBy b r t).trans
      (stmt_followedBy st (Block.followedBy b r) s)

end

end Run

/-- **What follows a conditional can be moved into its branches**, in any state `s` of an evaluator:
the outcome, the output, the variables and the functions are the same, and one run ends if and only
if the other one does. An empty branch stands for a missing one.

So what follows can be moved into the branches at every depth, where what follows a `return` is left
out: a `return` in conditionals skips the rest of the blocks around it and nothing else. -/
theorem runBlock_branches [OutputOnly σ] (s : State σ) (o : Outcome σ (Option Int64)) :
    (∀ c a b r, EndsWith (runBlock · (.ifElse c a b :: r)) s o ↔
      EndsWith (runBlock · [.ifElse c (a ++ r) (b ++ r)]) s o) ∧
    (∀ c a r, EndsWith (runBlock · (.ifThen c a :: r)) s o ↔
      EndsWith (runBlock · [.ifElse c (a ++ r) r]) s o) ∧
    (∀ c a, EndsWith (runBlock · [.ifThen c a]) s o ↔ EndsWith (runBlock · [.ifElse c a []]) s o) ∧
    ∀ b r, (EndsWith (runBlock · (b ++ r)) s o ↔ EndsWith (runBlock · (Block.followedBy b r)) s o) ∧
      (Block.Tailed r → (Block.followedBy b r).Tailed) := by
  -- Blocks that end in the same ways do so as programs.
  have program : ∀ {p q : Block}, Run.Same s (Run.block p) (Run.block q) →
      (EndsWith (runBlock · p) s o ↔ EndsWith (runBlock · q) s o) :=
    fun h => h.bindLeft (fun _ => Run.result) o
  refine ⟨fun c a b r => ?_, fun c a r => ?_, fun c a => ?_, fun b r => ⟨?_, ?_⟩⟩
  · exact program (Run.block_ifElse s c a b r)
  · exact program (Run.block_ifThen s c a r)
  · exact program (Run.block_congr_left (Run.stmt_ifThen_eq s c a) [])
  · exact program (Run.block_followedBy b r s)
  · exact Block.tailed_followedBy b

/-- A `return` in two conditionals, of which the inner one binds a variable in its other branch. -/
theorem runBlock_branches_nested :
    let x : Expr := .ident "x"
    let inner : Stmt := .ifElse x [.ret (.lit 1)] [.var "y" (some (.lit 5))]
    let b : Block := [.var "x" none, .ifThen (.lit 1) [inner, .expr (.call printName [x])]]
    let r : Block := [.expr (.call printName [.ident "y"]), .ret x]
    let s : State Buffer := .fresh .empty
    Block.Tailed r ∧ (Block.followedBy b r).Tailed ∧
      ∃ t, EndsWith (runBlock · (b ++ r)) s (.done (some 0) t) ∧
        EndsWith (runBlock · (Block.followedBy b r)) s (.done (some 0) t) ∧
        t.sink.text = "0\n5\n" := by
  intro x inner b r s
  have hr : Block.Tailed r := .cons rfl (.ret x)
  have hrun : ∃ t, EndsWith (runBlock · (b ++ r)) s (.done (some 0) t) ∧ t.sink.text = "0\n5\n" :=
    ⟨_, ⟨Outcome.ended_done _ _, 20, rfl⟩, rfl⟩
  obtain ⟨t, ht, htext⟩ := hrun
  obtain ⟨hends, htailed⟩ := (runBlock_branches s (.done (some 0) t)).2.2.2 b r
  exact ⟨hr, htailed hr, t, ht, hends.1 ht, htext⟩

end IntScript
