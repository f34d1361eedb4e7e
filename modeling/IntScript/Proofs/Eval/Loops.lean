import IntScript.Proofs.Eval.Course
import IntScript.Proofs.Eval.Fuel
import Mathlib.Logic.Relation

/-!
# Iterations of loops

* `Iterates c b s t` : one iteration of a loop, from one test of its condition to the next;
* `EndsAt c s o` : the loop ends with the outcome `o` in the test that it makes in the state `s`;
* `Iterates.ends_iff` : before and after iterations, the loop ends in the same ways;
* `Iterates.of_result`, `execLoop_endsAt` : with a terminal value, an iteration is nothing but a test,
  and a loop ends in a test;
* `execLoop_after_return` : what becomes of a loop after a `return` in its body.
-/

namespace IntScript

open Relation

variable {σ : Type} [Sink σ]

/-- The state after an event is received. -/
def State.receive (s : State σ) (e : Event) : State σ := s.withSink (Sink.receive s.sink e)

/-- An iteration of a loop: the condition holds, and the body comes to its end. -/
def Iterates (c : Expr) (b : Block) (s t : State σ) : Prop :=
  ∃ n v u, evalExpr n c s = .done v u ∧ truthy v = true ∧
    execBlock n b (u.receive (.tested c v)) = .done () t

/-- The last test of a loop: the condition faults, or it does not hold. -/
inductive EndsAt (c : Expr) (s : State σ) : Outcome σ Unit → Prop where
  | fault {n : Nat} {e : Fault} {t : State σ} (h : evalExpr n c s = .fault e t) :
    EndsAt c s (.fault e t)
  | done {n : Nat} {t : State σ} (h : evalExpr n c s = .done 0 t) :
    EndsAt c s (.done () (t.receive (.tested c 0)))

variable {c : Expr} {b : Block} {s t u : State σ}

/-- After a test, a loop goes on with its body or ends. -/
theorem execLoop_of_done {n : Nat} {v : Int64} (h : evalExpr n c s = .done v t) :
    execLoop (n + 1) c b s =
      (if truthy v then do execBlock n b; execLoop n c b else pure () : Exec σ Unit)
        (t.receive (.tested c v)) := by
  change Exec.bind (evalExpr n c) _ s = _
  simp only [Exec.bind, h]
  rfl

/-- With enough fuel, what is left after an iteration is the loop again. -/
theorem Iterates.unroll (h : Iterates c b s t) :
    ∃ k, ∀ n ≥ k, execLoop (n + 1) c b s = execLoop n c b t := by
  obtain ⟨k, v, u, hc, hv, hb⟩ := h
  refine ⟨k, fun n hn => ?_⟩
  have hc' : evalExpr n c s = .done v u := by
    rw [evalExpr_approximates c hn s (hc ▸ Outcome.ended_done v u), hc]
  have hb' : execBlock n b (u.receive (.tested c v)) = .done () t := by
    rw [execBlock_approximates b hn _ (hb ▸ Outcome.ended_done () t), hb]
  rw [execLoop_of_done hc', if_pos hv]
  change Exec.bind (execBlock n b) _ _ = _
  simp only [Exec.bind, hb']

/-- Before and after iterations, a loop ends in the same ways. -/
theorem Iterates.ends_iff (h : ReflTransGen (Iterates c b) s t) {o : Outcome σ Unit}
    (ho : o.Ended) :
    (∃ n, execLoop n c b s = o) ↔ ∃ n, execLoop n c b t = o := by
  induction h with
  | refl => rfl
  | @tail t u _ h ih =>
    refine ih.trans ?_
    obtain ⟨k, hk⟩ := h.unroll
    constructor
    · rintro ⟨n, rfl⟩
      refine ⟨max n k, ?_⟩
      rw [← hk _ (Nat.le_max_right n k)]
      exact execLoop_approximates c b (by omega) t ho
    · rintro ⟨n, rfl⟩
      refine ⟨max n k + 1, ?_⟩
      rw [hk _ (Nat.le_max_right n k)]
      exact execLoop_approximates c b (Nat.le_max_left n k) u ho

/-! ## Loops with a terminal value -/

theorem Frame.of_evalExpr {n : Nat} {v : Int64} (h : evalExpr n c s = .done v t) : Frame s t := by
  have hframe := (kept_frame.all n).expr c s
  rwa [h] at hframe

theorem Frame.receive (h : Frame s t) (e : Event) : Frame s (t.receive e) :=
  kept_frame.trans _ _ _ h (kept_frame.emit t e)

/-- With a terminal value, an iteration is a test of the condition. -/
theorem Iterates.of_result (h : Iterates c b s t) (hs : s.result ≠ none) :
    Frame s t ∧ ∃ n v u, evalExpr n c s = .done v u ∧ truthy v = true ∧
      t = u.receive (.tested c v) := by
  obtain ⟨n, v, u, hc, hv, hb⟩ := h
  have hframe : Frame s (u.receive (.tested c v)) := (Frame.of_evalExpr hc).receive _
  cases n with
  | zero => cases hb
  | succ n =>
    rw [execBlock_of_result (hframe.result.symm ▸ hs)] at hb
    cases hb
    exact ⟨hframe, n + 1, v, u, hc, hv, rfl⟩

/-- With a terminal value, a test of the condition that holds is an iteration. -/
theorem Iterates.of_test {n : Nat} {v : Int64} (hs : s.result ≠ none)
    (hc : evalExpr (n + 1) c s = .done v t) (hv : truthy v = true) :
    Iterates c b s (t.receive (.tested c v)) ∧
      execLoop (n + 2) c b s = execLoop (n + 1) c b (t.receive (.tested c v)) := by
  have hframe : Frame s (t.receive (.tested c v)) := (Frame.of_evalExpr hc).receive _
  have hb := execBlock_of_result (hframe.result.symm ▸ hs) n b
  refine ⟨⟨n + 1, v, t, hc, hv, hb⟩, ?_⟩
  rw [execLoop_of_done hc, if_pos hv]
  change Exec.bind (execBlock (n + 1) b) _ _ = _
  simp only [Exec.bind, hb]

theorem Iterates.frame (h : ReflTransGen (Iterates c b) s t) (hs : s.result ≠ none) :
    Frame s t := by
  induction h with
  | refl => exact kept_frame.refl s
  | tail _ h ih => exact kept_frame.trans _ _ _ ih (h.of_result (ih.result.symm ▸ hs)).1

/-- With an empty body, a loop leaves the variables and the terminal value alone. -/
theorem execLoop_nil_frame (n : Nat) (c : Expr) :
    Exec.Keeps Frame (execLoop n c [] : Exec σ Unit) := by
  induction n with
  | zero => exact kept_frame.outOfFuel
  | succ n ih =>
    have hnil : Exec.Keeps Frame (execBlock n [] : Exec σ Unit) := by
      intro s
      rw [state_execBlock_nil]
      exact kept_frame.refl s
    refine kept_frame.bind ((kept_frame.all n).expr c) fun v => ?_
    refine kept_frame.bind (kept_frame.emit_keeps _) fun _ => ?_
    exact .ite (kept_frame.bind hnil fun _ => ih) (kept_frame.pure ())

/-- With a terminal value, a loop that ends does so in a test. -/
theorem execLoop_endsAt {n : Nat} (h : (execLoop n c b s).Ended) (hs : s.result ≠ none) :
    ∃ t, ReflTransGen (Iterates c b) s t ∧ EndsAt c t (execLoop n c b s) := by
  induction n generalizing s with
  | zero => exact absurd h (Outcome.not_ended_unfinished s)
  | succ n ih =>
    cases hc : evalExpr n c s with
    | fault e t =>
      have hloop : execLoop (n + 1) c b s = .fault e t := by
        change Exec.bind (evalExpr n c) _ s = _
        simp only [Exec.bind, hc]
      exact ⟨s, .refl, hloop ▸ .fault hc⟩
    | unfinished t =>
      have hloop : execLoop (n + 1) c b s = .unfinished t := by
        change Exec.bind (evalExpr n c) _ s = _
        simp only [Exec.bind, hc]
      exact absurd (hloop ▸ h) (Outcome.not_ended_unfinished t)
    | done v u =>
      by_cases hv : truthy v = true
      · cases n with
        | zero => cases hc
        | succ n =>
          obtain ⟨hit, hrest⟩ := Iterates.of_test (b := b) hs hc hv
          rw [hrest] at h ⊢
          obtain ⟨t, ht, hend⟩ := ih h ((hit.of_result hs).1.result.symm ▸ hs)
          exact ⟨t, .head hit ht, hend⟩
      · obtain rfl : v = 0 := Decidable.not_not.1 fun hne => hv (truthy_iff.2 hne)
        rw [execLoop_of_done hc, if_neg hv]
        exact ⟨s, .refl, .done hc⟩

/-! ## Conditions without calls -/

/-- Without a call, an expression has the same value whatever the sink has received. -/
theorem evalExpr_withSink (hc : c.callFree = true) {n : Nat} {v : Int64}
    (h : evalExpr n c s = .done v t) (k : σ) :
    evalExpr n c (s.withSink k) = .done v (s.withSink k) := by
  obtain ⟨es, hreport⟩ := (Reported.all σ σ n).expr c s
  have hsame := hreport.same k
  have hstate := evalExpr_callFree hc n (s.withSink k)
  rw [h] at hsame
  rw [hsame] at hstate ⊢
  exact congrArg (Outcome.done v) hstate

/-- With a terminal value, iterations change the sink only, if the condition has no call. -/
theorem Iterates.withSink (hc : c.callFree = true) (h : ReflTransGen (Iterates c b) s t)
    (hs : s.result ≠ none) : ∃ k, t = s.withSink k := by
  induction h with
  | refl => exact ⟨s.sink, rfl⟩
  | @tail t u ht h ih =>
    obtain ⟨k, rfl⟩ := ih
    obtain ⟨-, n, v, w, hw, -, rfl⟩ := h.of_result hs
    have hwt : (Outcome.done v w).state = s.withSink k := hw ▸ evalExpr_callFree hc n (s.withSink k)
    obtain rfl : w = s.withSink k := hwt
    exact ⟨_, rfl⟩

/-- With a terminal value, a loop does not end if its condition has no call and holds. -/
theorem not_ended_of_callFree (hc : c.callFree = true) (hs : s.result ≠ none) {m : Nat} {v : Int64}
    (hv : evalExpr m c s = .done v t) (hv0 : v ≠ 0) (n : Nat) : ¬(execLoop n c b s).Ended := by
  intro h
  obtain ⟨u, hu, hend⟩ := execLoop_endsAt h hs
  obtain ⟨k, rfl⟩ := Iterates.withSink hc hu hs
  have hlast := evalExpr_withSink hc hv k
  -- The value of the last test is the one from before.
  have hunique : ∀ {n} {o : Outcome σ Int64}, evalExpr n c (s.withSink k) = o → o.Ended →
      o = .done v (s.withSink k) := by
    rintro n o rfl ho
    rw [← hlast]
    exact Exec.Approximates.unique (evalExpr_approximates c) ho (hlast ▸ Outcome.ended_done _ _)
  generalize execLoop n c b s = o at hend
  cases hend with
  | fault he => cases hunique he (Outcome.ended_fault _ _)
  | done he =>
    cases hunique he (Outcome.ended_done _ _)
    exact hv0 rfl

/-! ## The rest of a loop -/

/-- If there is a terminal value after iterations, the body of one of them has set it. -/
theorem Iterates.exists_return (h : ReflTransGen (Iterates c b) s t) (hs : s.result = none)
    (ht : t.result ≠ none) :
    ∃ u w, ReflTransGen (Iterates c b) s u ∧ u.result = none ∧ Iterates c b u w ∧
      w.result ≠ none ∧ ReflTransGen (Iterates c b) w t := by
  induction h with
  | refl => exact absurd hs ht
  | @tail t t' h h' ih =>
    by_cases hr : t.result = none
    · exact ⟨t, t', h, hr, h', ht, .refl⟩
    · obtain ⟨u, w, hu, hur, hw, hwr, hwt⟩ := ih hr
      exact ⟨u, w, hu, hur, hw, hwr, hwt.tail h'⟩

/-- **A loop after a `return` in its body**: let a loop be executed in a state `s` without terminal
value, and let its iterations come to a state `t` with one.

* The body of an iteration has set it, and since then there is the same terminal value and there are
  the same variables. What the execution of the loop ends with is what it ends with from `t`.
* From `t` on, the loop goes as one with an empty body, and however far it goes, the variables and
  the terminal value are those of `t`: each further iteration is a test of the condition, and the
  loop ends in a test.
* Without a call in the condition, the test in `t` is the last one of every execution that ends; if
  the condition holds there, then no execution ends. -/
theorem execLoop_after_return (h : ReflTransGen (Iterates c b) s t) (hs : s.result = none)
    (ht : t.result ≠ none) :
    ((∃ u w, ReflTransGen (Iterates c b) s u ∧ u.result = none ∧ Iterates c b u w ∧
        w.result ≠ none ∧ ReflTransGen (Iterates c b) w t ∧ Frame w t) ∧
      ∀ o : Outcome σ Unit, o.Ended →
        ((∃ n, execLoop n c b s = o) ↔ ∃ n, execLoop n c b t = o)) ∧
    ((∀ n, execLoop n c b t = execLoop n c [] t ∧ Frame t (execLoop n c b t).state) ∧
      (∀ u w, ReflTransGen (Iterates c b) t u → Iterates c b u w →
        Frame t w ∧ ∃ n v u', evalExpr n c u = .done v u' ∧ v ≠ 0 ∧ w = u'.receive (.tested c v)) ∧
      ∀ n, (execLoop n c b t).Ended →
        ∃ u, ReflTransGen (Iterates c b) t u ∧ EndsAt c u (execLoop n c b t)) ∧
    (c.callFree = true →
      (∀ n, (execLoop n c b s).Ended → EndsAt c t (execLoop n c b s)) ∧
      ∀ m v u, evalExpr m c t = .done v u → v ≠ 0 → ∀ n, ¬(execLoop n c b s).Ended) := by
  have hends : ∀ o : Outcome σ Unit, o.Ended →
      ((∃ n, execLoop n c b s = o) ↔ ∃ n, execLoop n c b t = o) :=
    fun o ho => Iterates.ends_iff h ho
  have hnever : c.callFree = true → ∀ m v u, evalExpr m c t = .done v u → v ≠ 0 →
      ∀ n, ¬(execLoop n c b s).Ended := by
    intro hc m v u hv hv0 n hn
    obtain ⟨n', hn'⟩ := (hends _ hn).1 ⟨n, rfl⟩
    exact not_ended_of_callFree hc ht hv hv0 n' (hn' ▸ hn)
  refine ⟨⟨?_, hends⟩, ⟨fun n => ⟨execLoop_sameOnceSet n c b t ht, ?_⟩, fun u w hu hw => ?_,
    fun n hn => execLoop_endsAt hn ht⟩, fun hc => ⟨fun n hn => ?_, hnever hc⟩⟩
  · obtain ⟨u, w, hu, hur, hw, hwr, hwt⟩ := Iterates.exists_return h hs ht
    exact ⟨u, w, hu, hur, hw, hwr, hwt, Iterates.frame hwt hwr⟩
  · rw [execLoop_sameOnceSet n c b t ht]
    exact execLoop_nil_frame n c t
  · have hframe := Iterates.frame hu ht
    obtain ⟨hw, n, v, u', hv, hv0, rfl⟩ := hw.of_result (hframe.result.symm ▸ ht)
    exact ⟨kept_frame.trans _ _ _ hframe hw, n, v, u', hv, by simpa [truthy] using hv0, rfl⟩
  · obtain ⟨n', hn'⟩ := (hends _ hn).1 ⟨n, rfl⟩
    obtain ⟨u, hu, hend⟩ := execLoop_endsAt (hn'.symm ▸ hn) ht
    rw [hn'] at hend
    rcases hu.cases_head with rfl | ⟨w, hw, -⟩
    · exact hend
    · obtain ⟨-, m, v, u', hv, hv0, -⟩ := hw.of_result ht
      exact absurd hn (hnever hc m v u' hv (by simpa [truthy] using hv0) n)

/-- The loop `while (i < 3) { i = i + 1 return i }` from zero: the condition still holds after the
return, so the loop does not end. -/
theorem execLoop_after_return_counter :
    let c : Expr := .bin .lt (.ident "i") (.lit 3)
    let b : Block := [.assign "i" (.bin .add (.ident "i") (.lit 1)), .ret (.ident "i")]
    let s : State Buffer := { State.fresh Buffer.empty with vars := (∅ : Vars).insert "i" 0 }
    ∃ t, Iterates c b s t ∧ s.result = none ∧ t.result = some 1 ∧
      (∀ n, ¬(execLoop n c b s).Ended) ∧ ∀ n, (execLoop n c b t).state.result = some 1 := by
  intro c b s
  have h : ∃ t, Iterates c b s t ∧ t.result = some 1 ∧ evalExpr 9 c t = .done 1 t :=
    ⟨_, ⟨9, 1, s, rfl, rfl, rfl⟩, rfl, rfl⟩
  obtain ⟨t, hst, ht, hc⟩ := h
  obtain ⟨-, ⟨hframe, -⟩, hfree⟩ := execLoop_after_return (.single hst) rfl (by simp [ht])
  exact ⟨t, hst, rfl, ht, (hfree rfl).2 9 1 t hc (by decide),
    fun n => (hframe n).2.result.trans ht⟩

end IntScript
