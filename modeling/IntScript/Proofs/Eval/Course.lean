import IntScript.Proofs.Eval.Frame
import IntScript.Proofs.Eval.Progress

/-!
# The course of an activation

* `Exec.SameOnceSet x y` : with a terminal value, `x` and `y` are the same run; a block is then as
  good as empty, and so is the body of a loop (`execLoop_sameOnceSet`);
* `retest` : what is left of loops then, the tests of their conditions;
* `Leads s ls es t ls'` : by the events `es`, an activation comes from the state `s` to `t`, and from
  the loops `ls` that are being executed to `ls'`;
* `Exec.Passes` : a run that does so and leaves the terminal value as it is;
* `Exec.Course` : a run that does so, or sets the terminal value and then goes on with `retest`.
-/

namespace IntScript

variable {σ α β : Type}

/-- Of two runs, either the second one follows the first one, or both end where that ends. -/
theorem Exec.bind_cases (x : Exec σ α) (f : α → Exec σ β) (s : State σ) :
    (∃ a t, x s = .done a t ∧ (x >>= f) s = f a t) ∨
      ((x >>= f) s).state = (x s).state ∧ ∀ b t, (x >>= f) s ≠ .done b t := by
  change (∃ a t, x s = .done a t ∧ Exec.bind x f s = f a t) ∨
    (Exec.bind x f s).state = (x s).state ∧ ∀ b t, Exec.bind x f s ≠ .done b t
  unfold Exec.bind
  cases x s with
  | done a t => exact .inl ⟨a, t, rfl, rfl⟩
  | fault e t | unfinished t => exact .inr ⟨rfl, nofun⟩

/-- The two runs are the same from every state with a terminal value. -/
def Exec.SameOnceSet (x y : Exec σ α) : Prop := ∀ s, s.result ≠ none → x s = y s

theorem Exec.SameOnceSet.refl (x : Exec σ α) : SameOnceSet x x := fun _ _ => rfl

variable [Sink σ]

theorem Exec.SameOnceSet.bind {x y : Exec σ α} {f g : α → Exec σ β} (h : SameOnceSet x y)
    (hy : Keeps Frame y) (hf : ∀ a, SameOnceSet (f a) (g a)) :
    SameOnceSet (x >>= f) (y >>= g) := by
  intro s hs
  have hframe := hy s
  change Exec.bind x f s = Exec.bind y g s
  simp only [Exec.bind, h s hs]
  cases hys : y s with
  | done a t =>
    rw [hys] at hframe
    exact hf a t (hframe.result.symm ▸ hs)
  | fault e t | unfinished t => rfl

/-! ## Blocks and loops with a terminal value -/

/-- With a terminal value, no statement of a block begins. -/
theorem execBlock_of_result {s : State σ} (hs : s.result ≠ none) (n : Nat) (b : Block) :
    execBlock (n + 1) b s = .done () s := by
  cases b with
  | nil => rfl
  | cons st b =>
    change (if s.result.isSome then pure () else do execStmt n st; execBlock n b : Exec σ Unit) s = _
    rw [if_pos (Option.isSome_iff_ne_none.2 hs)]
    rfl

/-- The empty block takes nothing but fuel. -/
theorem state_execBlock_nil (n : Nat) (s : State σ) : (execBlock n [] s).state = s := by
  cases n <;> rfl

/-- With a terminal value, a block is as good as empty. -/
theorem execBlock_sameOnceSet (n : Nat) (b : Block) :
    Exec.SameOnceSet (execBlock n b : Exec σ Unit) (execBlock n []) := by
  intro s hs
  cases n with
  | zero => rfl
  | succ n => rw [execBlock_of_result hs, execBlock_of_result hs]

/-- With a terminal value, a loop does nothing but test its condition. -/
theorem execLoop_sameOnceSet (n : Nat) (c : Expr) (b : Block) :
    Exec.SameOnceSet (execLoop n c b : Exec σ Unit) (execLoop n c []) := by
  induction n with
  | zero => exact .refl _
  | succ n ih =>
    have hempty : Exec.Keeps Frame (execBlock n [] : Exec σ Unit) := by
      intro s
      rw [state_execBlock_nil]
      exact kept_frame.refl s
    refine .bind (.refl _) ((kept_frame.all n).expr c) fun v => ?_
    refine .bind (.refl _) (kept_frame.emit_keeps _) fun _ => ?_
    cases truthy v with
    | true => exact .bind (execBlock_sameOnceSet n b) hempty fun _ => ih
    | false => exact .refl _

/-- Tests the conditions of loops until they fail, the first loop first, each with the fuel that it
has left. The bodies are empty. -/
def retest : List (Nat × Expr) → Exec σ Unit
  | [] => pure ()
  | (n, c) :: loops => do
    execLoop n c []
    retest loops

theorem retest_single (n : Nat) (c : Expr) : (retest [(n, c)] : Exec σ Unit) = execLoop n c [] :=
  bind_pure_unit

theorem retest_append (loops loops' : List (Nat × Expr)) :
    (retest (loops ++ loops') : Exec σ Unit) = retest loops >>= fun _ => retest loops' := by
  induction loops with
  | nil => rfl
  | cons l loops ih =>
    change (execLoop l.1 l.2 [] >>= fun _ => retest (loops ++ loops') : Exec σ Unit) =
      (execLoop l.1 l.2 [] >>= fun _ => retest loops) >>= fun _ => retest loops'
    rw [ih, bind_assoc]

/-! ## From state to state -/

/-- The progress of an activation in a state, with the loops that are being executed. -/
def State.progress (s : State σ) (ls : List Expr) : Progress := ⟨s.vars, s.result, ls⟩

/-- By the events `es`, an activation comes from `s` to `t`, and from the loops `ls` that are being
executed to `ls'`. -/
structure Leads (s : State σ) (ls : List Expr) (es : List Event) (t : State σ)
    (ls' : List Expr) : Prop where
  sink : t.sink = es.foldl Sink.receive s.sink
  /-- No event is one of the activation around it. -/
  inner : ∀ d, ownEvents (d + 1) es = []
  admits : (s.progress ls).Admits (ownEvents 0 es)
  after : (s.progress ls).afterAll (ownEvents 0 es) = t.progress ls'

namespace Leads

variable {s t u : State σ} {ls ls' ls'' : List Expr} {es es' : List Event}

theorem refl (s : State σ) (ls : List Expr) : Leads s ls [] s ls :=
  ⟨rfl, fun _ => rfl, trivial, rfl⟩

theorem trans (h : Leads s ls es t ls') (hb : Balanced es) (h' : Leads t ls' es' u ls'') :
    Leads s ls (es ++ es') u ls'' where
  sink := by rw [h'.sink, h.sink, List.foldl_append]
  inner d := by rw [hb.ownEvents_append, h.inner, h'.inner, List.append_nil]
  admits := by
    rw [hb.ownEvents_append, Progress.admits_append, h.after]
    exact ⟨h.admits, h'.admits⟩
  after := by rw [hb.ownEvents_append, Progress.afterAll_append, h.after, h'.after]

end Leads

/-! ## Runs without a return -/

/-- A run that leaves the terminal value as it is, and comes from the loops `ls` to the loops `ls'`
if it comes to its end. -/
def Exec.Passes (x : Exec σ α) (s : State σ) (ls ls' : List Expr) : Prop :=
  ∃ es ls'', Leads s ls es (x s).state ls'' ∧ (x s).state.result = s.result ∧
    ∀ a t, x s = .done a t → Balanced es ∧ ls'' = ls'

namespace Exec.Passes

variable {s : State σ} {ls ls' ls'' : List Expr}

/-- A run that only looks at the state. -/
theorem silent {x : Exec σ α} (h : (x s).state = s) : Passes x s ls ls :=
  ⟨[], ls, h.symm ▸ .refl s ls, by rw [h], fun _ _ _ => ⟨.nil, rfl⟩⟩

theorem lookup (x : String) : Passes (Exec.lookup x : Exec σ Int64) s ls ls :=
  silent (state_lookup x s)

theorem resolve (f : String) : Passes (Exec.resolve f : Exec σ FunDef) s ls ls :=
  silent (state_resolve f s)

theorem apply (o : Op) (a b : Int64) : Passes (Exec.apply o a b : Exec σ Int64) s ls ls :=
  silent (state_apply o a b s)

/-- A run that comes to its end. -/
theorem of_done {x : Exec σ α} (hx : Passes x s ls ls') {a : α} {t : State σ}
    (hs : x s = .done a t) : ∃ es, Leads s ls es t ls' ∧ Balanced es ∧ t.result = s.result := by
  obtain ⟨es, ks, h, hr, hd⟩ := hx
  obtain ⟨hes, rfl⟩ := hd a t hs
  rw [hs] at h hr
  exact ⟨es, h, hes, hr⟩

/-- Another run after one that comes to its end. -/
theorem bind_done {x : Exec σ α} {f : α → Exec σ β} (hx : Passes x s ls ls') {a : α} {t : State σ}
    (hs : x s = .done a t) (hf : Passes (f a) t ls' ls'') : Passes (x >>= f) s ls ls'' := by
  obtain ⟨es, h, hes, hr⟩ := hx.of_done hs
  obtain ⟨es', ks, h', hr', hd⟩ := hf
  have hb : (x >>= f) s = f a t := by
    change Exec.bind x f s = f a t
    simp only [Exec.bind, hs]
  unfold Passes
  rw [hb]
  refine ⟨es ++ es', ks, h.trans hes h', hr'.trans hr, fun b u hu => ?_⟩
  exact ⟨hes.append (hd b u hu).1, (hd b u hu).2⟩

/-- No other run after one that does not come to its end. -/
theorem bind_stop {x : Exec σ α} {f : α → Exec σ β} (hx : Passes x s ls ls')
    (hs : ((x >>= f) s).state = (x s).state) (hn : ∀ b t, (x >>= f) s ≠ .done b t) :
    Passes (x >>= f) s ls ls'' := by
  obtain ⟨es, ks, h, hr, -⟩ := hx
  exact ⟨es, ks, hs ▸ h, by rwa [hs], fun b t hbt => absurd hbt (hn b t)⟩

theorem bind {x : Exec σ α} {f : α → Exec σ β} (hx : Passes x s ls ls')
    (hf : ∀ a t, t.result = s.result → Passes (f a) t ls' ls'') : Passes (x >>= f) s ls ls'' := by
  rcases Exec.bind_cases x f s with ⟨a, t, hs, -⟩ | ⟨hb, hn⟩
  · obtain ⟨-, -, -, hr⟩ := hx.of_done hs
    exact hx.bind_done hs (hf a t hr)
  · exact hx.bind_stop hb hn

theorem ite {c : Prop} [Decidable c] {x y : Exec σ α} (hx : Passes x s ls ls')
    (hy : Passes y s ls ls') : Passes (if c then x else y) s ls ls' := by
  split
  · exact hx
  · exact hy

/-- An event that changes at most which loops are being executed. -/
theorem emit {e : Event} (hn : ∀ d, e.nesting d = d) (ha : (s.progress ls).Allows e)
    (hp : (s.progress ls).after e = s.progress ls') :
    Passes (Exec.emit e : Exec σ Unit) s ls ls' := by
  refine ⟨[e], ls', ⟨rfl, fun d => ?_, ⟨ha, trivial⟩, hp⟩, rfl, fun _ _ _ => ⟨hn, rfl⟩⟩
  simp [ownEvents]

/-- The condition of the innermost loop is tested. If it fails, the loop has come to its end. -/
theorem tested (s : State σ) (ls : List Expr) (c : Expr) (v : Int64) :
    Passes (Exec.emit (.tested c v) : Exec σ Unit) s (c :: ls)
      (if truthy v then c :: ls else ls) := by
  refine emit (fun _ => rfl) rfl ?_
  simp only [Progress.after, State.progress]
  split <;> rfl

theorem print (v : Int64) : Passes (Exec.print v : Exec σ Unit) s ls ls :=
  emit (fun _ => rfl) trivial rfl

theorem bindVar (hs : s.result = none) (x : String) (v : Int64) :
    Passes (Exec.bindVar x v : Exec σ Unit) s ls ls := by
  refine ⟨[.bound x v], ls, ⟨rfl, fun d => ?_, ⟨hs, trivial⟩, rfl⟩, rfl,
    fun _ _ _ => ⟨fun _ => rfl, rfl⟩⟩
  simp [ownEvents]

theorem register (hs : s.result = none) (f : String) (d : FunDef) :
    Passes (Exec.register f d : Exec σ Unit) s ls ls := by
  refine ⟨[.registered f d], ls, ⟨rfl, fun d => ?_, ⟨hs, trivial⟩, rfl⟩, rfl,
    fun _ _ _ => ⟨fun _ => rfl, rfl⟩⟩
  simp [ownEvents]

theorem assign (hs : s.result = none) (x : String) (v : Int64) :
    Passes (Exec.assign x v : Exec σ Unit) s ls ls :=
  bind (silent rfl) fun _ _ ht => ite (bindVar (ht.trans hs) x v) (silent rfl)

/-- A call: whatever the events of the body are, they are not those of the caller. -/
theorem call (f : String) (vs : List Int64) (bindings : List (String × Int64)) {body : Exec σ Unit}
    (h : ∀ t, t.result = none → ∃ es ls, Leads t [] es (body t).state ls ∧
      ∀ a u, body t = .done a u → Balanced es) :
    Passes (do
      Exec.emit (.entered f vs)
      let v ← Exec.activate bindings body
      Exec.emit (.left f)
      pure v : Exec σ Int64) s ls ls := by
  let s₀ : State σ :=
    ⟨s.vars.bindAll bindings, none, s.functions, Sink.receive s.sink (.entered f vs)⟩
  obtain ⟨es, ks, h, hd⟩ := h s₀ rfl
  have hinner : ∀ d, ownEvents (d + 1) (.entered f vs :: es) = [] := fun d => h.inner (d + 1)
  have hown : ownEvents 0 (.entered f vs :: es) = [.entered f vs] :=
    congrArg (Event.entered f vs :: ·) (h.inner 0)
  have hsink := h.sink
  change Passes (Exec.bind (Exec.emit (.entered f vs)) fun _ =>
    Exec.bind (Exec.activate bindings body) fun v =>
      Exec.bind (Exec.emit (.left f)) fun _ => Exec.pure v) s ls ls
  unfold Passes
  cases hb : body s₀ with
  | done a u =>
    have hes : Balanced es := hd a u hb
    have hleft : ∀ d, ownEvents d (.entered f vs :: es ++ [.left f]) =
        ownEvents d (.entered f vs :: es) := by
      intro d
      rw [ownEvents_append]
      change _ ++ ownEvents (nesting (d + 1) es) [.left f] = _
      rw [hes]
      exact List.append_nil _
    rw [hb] at hsink
    simp only [Exec.bind, Exec.emit, Exec.activate, Exec.pure, s₀] at hb ⊢
    rw [hb]
    refine ⟨.entered f vs :: es ++ [.left f], ls, ⟨?_, fun d => ?_, ?_, ?_⟩, rfl,
      fun _ _ _ => ⟨hes.call f vs, rfl⟩⟩
    · change Sink.receive u.sink _ = _
      rw [List.foldl_append, show u.sink = _ from hsink]
      rfl
    · rw [hleft, hinner]
    · rw [hleft, hown]
      exact ⟨trivial, trivial⟩
    · rw [hleft, hown]
      rfl
  | fault e u | unfinished u =>
    rw [hb] at hsink
    simp only [Exec.bind, Exec.emit, Exec.activate, s₀] at hb ⊢
    rw [hb]
    refine ⟨.entered f vs :: es, ls, ⟨hsink, hinner, ?_, ?_⟩, rfl, fun _ _ hd => by cases hd⟩
    · rw [hown]
      exact ⟨trivial, trivial⟩
    · rw [hown]
      rfl

end Exec.Passes

/-! ## Runs with a return -/

/-- A run that comes from the loops `ls` to the loops `ls'` if it comes to its end: either without a
return, or with one after which it only tests the conditions of the loops that are left. -/
inductive Exec.Course (x : Exec σ Unit) (s : State σ) (ls ls' : List Expr) : Prop where
  | passes (h : Passes x s ls ls')
  | returned (es : List Event) (v : Int64) (t : State σ) (loops : List (Nat × Expr))
    (leads : Leads s ls (es ++ [.returned v]) t (loops.map Prod.snd ++ ls'))
    (balanced : Balanced es) (result : t.result = some v)
    (rest : x s = retest loops t)
    (passes : Passes (retest loops : Exec σ Unit) t (loops.map Prod.snd ++ ls') ls')

namespace Exec.Course

variable {s : State σ} {ls ls' ls'' : List Expr}

/-- A run without a return, and then one that may have one. -/
theorem bind {x : Exec σ α} {f : α → Exec σ Unit} (hx : Passes x s ls ls')
    (hf : ∀ a t, t.result = s.result → Course (f a) t ls' ls'') : Course (x >>= f) s ls ls'' := by
  rcases Exec.bind_cases x f s with ⟨a, t, hs, hb⟩ | ⟨hb, hn⟩
  · obtain ⟨es, h, hes, hr⟩ := hx.of_done hs
    cases hf a t hr with
    | passes h' => exact .passes (hx.bind_done hs h')
    | returned es' v u loops h' hes' hv hrest hp =>
      rw [← hb] at hrest
      refine .returned (es ++ es') v u loops ?_ (hes.append hes') hv hrest hp
      rw [List.append_assoc]
      exact h.trans hes h'
  · exact .passes (hx.bind_stop hb hn)

theorem ite {c : Prop} [Decidable c] {x y : Exec σ Unit} (hx : Course x s ls ls')
    (hy : Course y s ls ls') : Course (if c then x else y) s ls ls' := by
  split
  · exact hx
  · exact hy

/-- A return. -/
theorem finish (hs : s.result = none) (v : Int64) : Course (Exec.finish v : Exec σ Unit) s ls ls := by
  let t : State σ := ⟨s.vars, some v, s.functions, Sink.receive s.sink (.returned v)⟩
  have h : Leads s ls ([] ++ [.returned v]) t ls :=
    ⟨rfl, fun d => by simp [ownEvents], ⟨hs, trivial⟩, rfl⟩
  exact .returned [] v t [] h .nil rfl rfl (.silent rfl)

/-- Two runs, of which the first one may have a return. If it has, what is left of the second one is
to test the conditions of loops. -/
theorem andThen {x y : Exec σ Unit} (hx : Course x s ls ls')
    (hy : ∀ t, t.result = s.result → Course y t ls' ls'') (loops : List (Nat × Expr))
    (hloops : loops.map Prod.snd ++ ls'' = ls') (hrest : Exec.SameOnceSet y (retest loops))
    (hp : ∀ t, Exec.Passes (retest loops : Exec σ Unit) t ls' ls'') :
    Course (x >>= fun _ => y) s ls ls'' := by
  cases hx with
  | passes h => exact bind h fun _ t ht => hy t ht
  | returned es v t loops' h hes hv hx hp' =>
    -- `x` goes on with `retest loops'` from `t`, which keeps the terminal value, so that `y` is
    -- `retest loops` from wherever that ends.
    have hls : (loops' ++ loops).map Prod.snd ++ ls'' = loops'.map Prod.snd ++ ls' := by
      rw [List.map_append, List.append_assoc, hloops]
    have hbind : (x >>= fun _ => y) s = retest (loops' ++ loops) t := by
      rw [retest_append]
      change Exec.bind x (fun _ => y) s = Exec.bind (retest loops') (fun _ => retest loops) t
      simp only [Exec.bind, hx]
      cases ht : retest loops' t with
      | done a u =>
        obtain ⟨-, -, -, hr⟩ := hp'.of_done ht
        exact hrest u (by simp [hr, hv])
      | fault e u | unfinished u => rfl
    refine .returned es v t (loops' ++ loops) (hls ▸ h) hes hv hbind ?_
    rw [hls, retest_append]
    exact hp'.bind fun _ u _ => hp u

/-- However the run ends, its events lead to the state that it reaches. -/
theorem leads {x : Exec σ Unit} (h : Course x s ls ls') : ∃ es ls'', Leads s ls es (x s).state ls'' ∧
    ∀ a t, x s = .done a t → Balanced es ∧ ls'' = ls' := by
  cases h with
  | passes h =>
    obtain ⟨es, ls'', h, -, hd⟩ := h
    exact ⟨es, ls'', h, hd⟩
  | returned es v t loops h hes hv hx hp =>
    obtain ⟨es', ls'', h', -, hd⟩ := hp
    have hes : Balanced (es ++ [.returned v]) := hes.append fun _ => rfl
    rw [hx]
    exact ⟨_, ls'', h.trans hes h', fun a u hu => ⟨hes.append (hd a u hu).1, (hd a u hu).2⟩⟩

end Exec.Course

end IntScript
