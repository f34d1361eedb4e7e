import IntScript.Proofs.Eval.Keeps
import IntScript.Run

/-!
# What an expression leaves alone

* `Extends k k'` : the sink `k'` is `k` with further events; then its output begins with that of `k`
  (`Extends.text`, `Extends.accepted`);
* `Frame s t` : the variables and the terminal value are the same, the sink has received more;
* `evalExpr_frame` : an expression can change the functions and the output only, and without a call
  not even those.
-/

namespace IntScript

variable {σ : Type}

/-! ## Output -/

/-- The second sink is the first one with further events. -/
def Extends [Sink σ] (k k' : σ) : Prop := ∃ es : List Event, k' = es.foldl Sink.receive k

namespace Extends

theorem refl [Sink σ] (k : σ) : Extends k k := ⟨[], rfl⟩

theorem trans [Sink σ] {k k' k'' : σ} (h : Extends k k') (h' : Extends k' k'') :
    Extends k k'' := by
  obtain ⟨es, rfl⟩ := h
  obtain ⟨es', rfl⟩ := h'
  exact ⟨es ++ es', by rw [List.foldl_append]⟩

theorem receive [Sink σ] (k : σ) (e : Event) : Extends k (Sink.receive k e) := ⟨[e], rfl⟩

/-- What every event keeps, further events keep. -/
theorem mono [Sink σ] {R : σ → σ → Prop} (hrefl : ∀ k, R k k)
    (htrans : ∀ k k' k'', R k k' → R k' k'' → R k k'') (h : ∀ k e, R k (Sink.receive k e))
    {k k' : σ} (hk : Extends k k') : R k k' := by
  obtain ⟨es, rfl⟩ := hk
  induction es generalizing k with
  | nil => exact hrefl k
  | cons e es ih => exact htrans _ _ _ (h k e) (ih (k := Sink.receive k e))

/-- The text of a buffer goes on. -/
theorem text {k k' : Buffer} (h : Extends k k') : k.text.toList <+: k'.text.toList := by
  refine h.mono (R := fun k k' : Buffer => k.text.toList <+: k'.text.toList)
    (fun _ => List.prefix_refl _) (fun _ _ _ => List.IsPrefix.trans) fun k e => ?_
  cases e with
  | printed v =>
    change k.text.toList <+: (k.text ++ printedLine v).toList
    rw [String.toList_append]
    exact List.prefix_append _ _
  | _ => exact List.prefix_refl _

/-- A writer keeps what it has accepted. -/
theorem write (w : Writer) (bytes : ByteArray) :
    w.accepted.data.toList <+: (w.write bytes).2.accepted.data.toList := by
  unfold Writer.write
  split <;> simp

theorem writeAll (w : Writer) (pieces : List ByteArray) :
    w.accepted.data.toList <+: (w.writeAll pieces).2.accepted.data.toList := by
  induction pieces generalizing w with
  | nil => exact List.prefix_refl _
  | cons piece pieces ih =>
    have h := write w piece
    unfold Writer.writeAll
    split
    · next w' hw =>
      rw [hw] at h
      exact h.trans (ih w')
    · next w' hw => rwa [hw] at h

/-- The bytes that a stream has got rid of go on. -/
theorem accepted {k k' : Stream} (h : Extends k k') :
    k.out.accepted.data.toList <+: k'.out.accepted.data.toList := by
  refine h.mono (R := fun k k' : Stream =>
    k.out.accepted.data.toList <+: k'.out.accepted.data.toList)
    (fun _ => List.prefix_refl _) (fun _ _ _ => List.IsPrefix.trans) fun k e => ?_
  cases e with
  | printed v => exact writeAll k.out _
  | _ => exact List.prefix_refl _

end Extends

/-! ## Frames -/

/-- The variables and the terminal value are the same, and the sink has received more. -/
structure Frame [Sink σ] (s t : State σ) : Prop where
  vars : t.vars = s.vars
  result : t.result = s.result
  sink : Extends s.sink t.sink

/-- An activation gives the variables and the terminal value back; whatever its statements do, they
only add to the output. -/
theorem kept_frame [Sink σ] :
    Kept (σ := σ) Frame fun s t => Extends s.sink t.sink where
  refl _ := ⟨rfl, rfl, .refl _⟩
  trans _ _ _ h h' := ⟨h'.vars.trans h.vars, h'.result.trans h.result, h.sink.trans h'.sink⟩
  weaken _ _ h := h.sink
  transStmt _ _ _ := Extends.trans
  emit s e := ⟨rfl, rfl, .receive s.sink e⟩
  bindVar _ _ _ := .refl _
  register _ _ _ := .refl _
  finish _ _ := .refl _
  activate _ _ _ h := ⟨rfl, rfl, h⟩

/-- No function is called. -/
def Expr.callFree : Expr → Bool
  | .ident _ | .lit _ => true
  | .bin _ l r => l.callFree && r.callFree
  | .call _ _ => false

theorem evalExpr_callFree [Sink σ] {e : Expr} (h : e.callFree = true) (n : Nat) :
    Exec.Keeps (fun s t => t = s) (evalExpr n e : Exec σ Int64) := by
  induction e using Expr.callFree.induct generalizing n with
  | case1 x =>
    intro s
    cases n with
    | zero => rfl
    | succ n =>
      change (Exec.lookup x s).state = s
      unfold Exec.lookup
      split <;> rfl
  | case2 v =>
    intro s
    cases n <;> rfl
  | case3 o l r ihl ihr =>
    rw [Expr.callFree, Bool.and_eq_true] at h
    have htrans : ∀ s t u : State σ, t = s → u = t → u = s := fun _ _ _ h h' => h'.trans h
    cases n with
    | zero => exact fun _ => rfl
    | succ n =>
      refine .bind htrans (ihl h.1 n) fun a => .bind htrans (ihr h.2 n) fun b s => ?_
      unfold Exec.apply
      split <;> rfl
  | case4 => cases h

/-- **Frame**: however the evaluation of an expression ends, the variables and the terminal value of
its activation are those from before, and the output begins with that from before. Without a call,
the state is the same. -/
theorem evalExpr_frame (n : Nat) (e : Expr) :
    (∀ {σ : Type} [Sink σ] (s : State σ), Frame s (evalExpr n e s).state ∧
      (e.callFree = true → (evalExpr n e s).state = s)) ∧
    (∀ s : State Buffer,
      s.sink.text.toList <+: (evalExpr n e s).state.sink.text.toList) ∧
    ∀ s : State Stream, s.sink.out.accepted.data.toList <+:
      (evalExpr n e s).state.sink.out.accepted.data.toList := by
  have h : ∀ {σ : Type} [Sink σ] (s : State σ), Frame s (evalExpr n e s).state :=
    fun s => (kept_frame.all n).expr e s
  exact ⟨fun s => ⟨h s, fun he => evalExpr_callFree he n s⟩, fun s => (h s).sink.text,
    fun s => (h s).sink.accepted⟩

/-- A division by zero changes nothing. -/
theorem evalExpr_frame_division :
    let e : Expr := .bin .div (.lit 1) (.lit 0)
    e.callFree = true ∧ (evalExpr 2 e (State.fresh Buffer.empty)).state = .fresh .empty :=
  ⟨rfl, ((evalExpr_frame 2 _).1 _).2 rfl⟩

end IntScript
