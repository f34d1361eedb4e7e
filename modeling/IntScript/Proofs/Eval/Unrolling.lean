import IntScript.Proofs.Eval.Branches
import IntScript.Proofs.Eval.Loops
import IntScript.Proofs.Eval.Returns

/-!
# Unrolling loops

* `Stmt.unrolled c b k` : a loop with its first `k` iterations written out;
* `Run.stmt_loop` : what a loop does, as far as output goes;
* `Run.stmt_unroll` : an iteration that is written out, before a statement that goes on like the
  loop;
* `Run.stmt_loop_of_iteration`, `Run.stmt_ifThen_of_return` : after a `return` in the body, the loop
  tests its condition again, and the iteration that is written out is the last one;
* `execStmt_unroll` : without a `return` in its body, a loop can be unrolled.
-/

namespace IntScript

variable {σ : Type} [Sink σ]

/-- The loop with its first `k` iterations written out. -/
def Stmt.unrolled (c : Expr) (b : Block) : Nat → Stmt
  | 0 => .loop c b
  | k + 1 => .ifThen c (b ++ [Stmt.unrolled c b k])

namespace Run

variable {s t : State σ} {c : Expr} {b : Block}

theorem result_of_expr {v : Int64} (h : EndsWith (expr c).withFuel s (.done v t)) :
    t.result = s.result := by
  obtain ⟨-, n, hn⟩ := h
  exact (Frame.of_evalExpr hn).result

theorem result_of_block (hb : b.ReturnFree) (h : EndsWith (block b).withFuel s (.done () t)) :
    t.result = s.result := by
  obtain ⟨-, n, hn⟩ := h
  have hresult := execBlock_returnFree hb n s
  rwa [show execBlock n b s = .done () t from hn] at hresult

variable [OutputOnly σ]

theorem stmt_loop_eq (s : State σ) (c : Expr) (b : Block) :
    Same s (stmt (.loop c b)) (loop c b) :=
  stmt_of_began s fun _ => rfl

/-- A loop tests its condition, and if that holds, it executes its body and is executed again. -/
theorem stmt_loop (s : State σ) (c : Expr) (b : Block) :
    Same s (stmt (.loop c b)) (expr c >>= fun v =>
      if truthy v then block b >>= fun _ => stmt (.loop c b) else pure ()) :=
  calc
    Same s (stmt (.loop c b)) (loop c b) := stmt_loop_eq s c b
    Same s _ (expr c >>= fun v =>
        if truthy v then block b >>= fun _ => loop c b else pure ()) := by
      refine .of_succ fun n => ?_
      simp only [withFuel_bind, withFuel_ite]
      change (evalExpr n c >>= fun v => Exec.emit (.tested c v) >>= fun _ => _ : Exec σ Unit) s = _
      simp only [Exec.emit_eq_pure (show Event.printed? (.tested c _) = none from rfl), pure_bind]
      rfl
    Same s _ _ := .bindRight fun _ t => .ite
      (fun _ => .bindRight fun _ u => (stmt_loop_eq u c b).symm) fun _ => .refl t _

/-- An iteration that is written out, before a statement that goes on like the loop. -/
theorem stmt_unroll (hb : b.ReturnFree) {st : Stmt}
    (h : ∀ t : State σ, t.result = none → Same t (stmt st) (stmt (.loop c b)))
    (hs : s.result = none) : Same s (stmt (.ifThen c (b ++ [st]))) (stmt (.loop c b)) :=
  calc
    Same s (stmt (.ifThen c (b ++ [st])))
        (expr c >>= fun v => if truthy v then block (b ++ [st]) else pure ()) := stmt_ifThen s c _
    Same s _ (expr c >>= fun v =>
        if truthy v then block b >>= fun _ => stmt (.loop c b) else pure ()) := by
      refine .bind (.refl s _) fun v t ht => .ite (fun _ => ?_) fun _ => .refl t _
      have ht : t.result = none := (result_of_expr ht).trans hs
      refine (block_append b [st] t).trans (.bind (.refl t _) fun _ u hu => ?_)
      have hu : u.result = none := (result_of_block hb hu).trans ht
      exact (block_single hu st).trans (h u hu)
    Same s _ (stmt (.loop c b)) := (stmt_loop s c b).symm

/-- A loop without a `return` in its body goes as it does with some iterations written out. -/
theorem stmt_unrolled (hb : b.ReturnFree) (k : Nat) (hs : s.result = none) :
    Same s (stmt (Stmt.unrolled c b k)) (stmt (.loop c b)) := by
  induction k generalizing s with
  | zero => exact .refl s _
  | succ k ih => exact stmt_unroll hb (fun _ ht => ih ht) hs

/-! ## Bodies with a return -/

variable {v : Int64} {u : State σ}

/-- After an iteration, whatever its body does, a loop is executed again. -/
theorem stmt_loop_of_iteration (hc : EndsWith (expr c).withFuel s (.done v t)) (hv : v ≠ 0)
    (hb : EndsWith (block b).withFuel t (.done () u)) (o : Outcome σ Unit) :
    EndsWith (stmt (.loop c b)).withFuel s o ↔ EndsWith (stmt (.loop c b)).withFuel u o := by
  rw [stmt_loop s c b, endsWith_bind_of_done hc, if_pos (truthy_iff.2 hv)]
  exact endsWith_bind_of_done hb o

/-- After a `return` in its first block, a branch is at its end. -/
theorem stmt_ifThen_of_return (hc : EndsWith (expr c).withFuel s (.done v t)) (hv : v ≠ 0)
    (hb : EndsWith (block b).withFuel t (.done () u)) (hu : u.result ≠ none) (r : Block) :
    EndsWith (stmt (.ifThen c (b ++ r))).withFuel s (.done () u) := by
  rw [stmt_ifThen s c (b ++ r), endsWith_bind_of_done hc, if_pos (truthy_iff.2 hv),
    block_append b r t, endsWith_bind_of_done hb, block_of_result hu r]
  exact endsWith_pure () u

/-- The loop `while (1) { return 5 }` does not end, and with an iteration written out it does. -/
theorem stmt_loop_ret (hs : s.result = none) :
    let b : Block := [.ret (.lit 5)]
    (∃ t, EndsWith (stmt (.ifThen (.lit 1) (b ++ [.loop (.lit 1) b]))).withFuel s (.done () t)) ∧
      ∀ o, ¬EndsWith (stmt (.loop (.lit 1) b)).withFuel s o := by
  intro b
  obtain ⟨vars, result, functions, sink⟩ := s
  obtain rfl : result = none := hs
  have hc : EndsWith (expr (.lit 1)).withFuel ⟨vars, none, functions, sink⟩ (.done 1 _) :=
    ⟨Outcome.ended_done 1 _, 1, rfl⟩
  obtain ⟨u, hb, hu⟩ : ∃ u,
      EndsWith (block b).withFuel ⟨vars, none, functions, sink⟩ (.done () u) ∧ u.result ≠ none :=
    ⟨_, ⟨Outcome.ended_done () _, 9, rfl⟩, nofun⟩
  refine ⟨⟨u, stmt_ifThen_of_return hc (by decide) hb hu _⟩, fun o h => ?_⟩
  rw [stmt_loop_of_iteration hc (by decide) hb, stmt_loop_eq u] at h
  obtain ⟨ho, n, rfl⟩ := h
  exact not_ended_of_callFree rfl hu (m := 1) (v := 1) rfl (by decide) n ho

end Run

/-- **Loops can be unrolled** in a state `s` without terminal value, if no `return` stands in their
body: the outcome, the output, the variables and the functions are the same, and one form ends if
and only if the other one does.

With a `return` in the body this is not so. Where an iteration sets the terminal value, the form
with this iteration written out is at its end, and the loop tests its condition again: it may be
that it never ends. -/
theorem execStmt_unroll [OutputOnly σ] {s : State σ} (hs : s.result = none) :
    (∀ c (b : Block), b.ReturnFree → ∀ o, EndsWith (execStmt · (.loop c b)) s o ↔
      EndsWith (execStmt · (.ifThen c (b ++ [.loop c b]))) s o) ∧
    (∀ c (b : Block), b.ReturnFree → ∀ k o, EndsWith (execStmt · (.loop c b)) s o ↔
      EndsWith (execStmt · (Stmt.unrolled c b k)) s o) ∧
    (∀ c b v (t u : State σ), EndsWith (evalExpr · c) s (.done v t) → v ≠ 0 →
      EndsWith (execBlock · b) t (.done () u) → u.result ≠ none →
      EndsWith (execStmt · (.ifThen c (b ++ [.loop c b]))) s (.done () u) ∧
      ∀ o, EndsWith (execStmt · (.loop c b)) s o ↔ EndsWith (execStmt · (.loop c b)) u o) ∧
    ∃ c b, (∃ t, EndsWith (execStmt · (.ifThen c (b ++ [.loop c b]))) s (.done () t)) ∧
      ∀ o, ¬EndsWith (execStmt · (.loop c b)) s o := by
  refine ⟨fun c b hb o => ?_, fun c b hb k o => ?_, fun c b v t u hc hv hb hu => ⟨?_, ?_⟩, ?_⟩
  · exact (Run.stmt_unrolled hb 1 hs o).symm
  · exact (Run.stmt_unrolled hb k hs o).symm
  · exact Run.stmt_ifThen_of_return hc hv hb hu _
  · exact Run.stmt_loop_of_iteration hc hv hb
  · exact ⟨.lit 1, [.ret (.lit 5)], Run.stmt_loop_ret hs⟩

/-- The loop `while (i < 2) { function f() { return 1 } i = i + f() println(i) }` from zero, with its
first three iterations written out, of which the last one does not take place; and a loop with a
`return` in its body. -/
theorem execStmt_unroll_counter :
    let i : Expr := .ident "i"
    let c : Expr := .bin .lt i (.lit 2)
    let b : Block := [.function "f" [] [.ret (.lit 1)], .assign "i" (.bin .add i (.call "f" [])),
      .expr (.call printName [i])]
    let ret : Block := [.assign "i" (.lit 1), .ret i]
    let s : State Buffer := { State.fresh Buffer.empty with vars := (∅ : Vars).insert "i" 0 }
    s.result = none ∧ b.ReturnFree ∧
      (∃ t, EndsWith (execStmt · (.loop c b)) s (.done () t) ∧
        EndsWith (execStmt · (.ifThen c (b ++ [.loop c b]))) s (.done () t) ∧
        EndsWith (execStmt · (Stmt.unrolled c b 3)) s (.done () t) ∧ t.sink.text = "1\n2\n") ∧
      ∃ u, EndsWith (execStmt · (.ifThen c (ret ++ [.loop c ret]))) s (.done () u) ∧
        u.result = some 1 ∧
        ∀ o, EndsWith (execStmt · (.loop c ret)) s o ↔ EndsWith (execStmt · (.loop c ret)) u o := by
  intro i c b ret s
  obtain ⟨hone, hall, hreturn, -⟩ := execStmt_unroll (s := s) rfl
  have hb : b.ReturnFree := fun e he => by simp [b, Block.ownParts, Stmt.ownParts] at he
  have hrun : ∃ t, EndsWith (execStmt · (.loop c b)) s (.done () t) ∧ t.sink.text = "1\n2\n" :=
    ⟨(execStmt 20 (.loop c b) s).state, ⟨Outcome.ended_done () _, 20, rfl⟩, by decide +kernel⟩
  have hret : ∃ u, EndsWith (execBlock · ret) s (.done () u) ∧ u.result = some 1 :=
    ⟨_, ⟨Outcome.ended_done () _, 20, rfl⟩, rfl⟩
  obtain ⟨t, ht, htext⟩ := hrun
  obtain ⟨u, hu, hresult⟩ := hret
  obtain ⟨hif, hloop⟩ := hreturn c ret 1 s u ⟨Outcome.ended_done 1 _, 20, rfl⟩ (by decide) hu
    (by simp [hresult])
  exact ⟨rfl, hb, ⟨t, ht, (hone c b hb _).1 ht, (hall c b hb 3 _).1 ht, htext⟩, u, hif, hresult,
    hloop⟩

end IntScript
