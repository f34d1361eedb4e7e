import IntScript.Proofs.Eval.Events

/-!
# Runs that go alike

* `Outcome.Alike φ R Q` : two outcomes are of the same kind, with values in the relation `Q`, or with
  faults that `φ` leads from one to the other, and with states in the relation `R`;
* `Exec.Simulates φ R Q x y` : from states in the relation `R`, the runs `x` and `y` have such
  outcomes.

The combinators of runs keep the simulation, so that it goes through evaluation step by step.
-/

namespace IntScript

variable {σ τ α α' β β' : Type}

/-- Two runs ended in the same way. -/
inductive Outcome.Alike (φ : Fault → Fault) (R : State σ → State τ → Prop) (Q : α → β → Prop) :
    Outcome σ α → Outcome τ β → Prop
  | done {a b s t} (value : Q a b) (state : R s t) : Alike φ R Q (.done a s) (.done b t)
  | fault (e) {s t} (state : R s t) : Alike φ R Q (.fault e s) (.fault (φ e) t)
  | unfinished {s t} (state : R s t) : Alike φ R Q (.unfinished s) (.unfinished t)

namespace Outcome.Alike

variable {φ : Fault → Fault} {R : State σ → State τ → Prop} {Q : α → β → Prop} {x : Outcome σ α}
  {y : Outcome τ β}

theorem state (h : Alike φ R Q x y) : R x.state y.state := by
  cases h with
  | done _ h | fault _ h | unfinished h => exact h

theorem of_done {a : α} {s : State σ} (h : Alike φ R Q (.done a s) y) :
    ∃ b t, y = .done b t ∧ Q a b ∧ R s t := by
  cases h with
  | done hab h => exact ⟨_, _, rfl, hab, h⟩

theorem of_fault {e : Fault} {s : State σ} (h : Alike φ R Q (.fault e s) y) :
    ∃ t, y = .fault (φ e) t ∧ R s t := by
  cases h with
  | fault _ h => exact ⟨_, rfl, h⟩

/-- Less can be asked of the states. -/
theorem mono {R' : State σ → State τ → Prop} (h : Alike φ R Q x y) (hR : ∀ s t, R s t → R' s t) :
    Alike φ R' Q x y := by
  cases h with
  | done hab h => exact .done hab (hR _ _ h)
  | fault e h => exact .fault e (hR _ _ h)
  | unfinished h => exact .unfinished (hR _ _ h)

/-- With equal values and the same faults, the relation of the states is carried on. -/
theorem trans {R : State σ → State σ → Prop} {x y z : Outcome σ α}
    (hR : ∀ s t u, R s t → R t u → R s u) (h : Alike id R Eq x y) (h' : Alike id R Eq y z) :
    Alike id R Eq x z := by
  cases h with
  | done hab h => cases h' with
    | done hbc h' => exact .done (hab.trans hbc) (hR _ _ _ h h')
  | fault e h => cases h' with
    | fault _ h' => exact .fault e (hR _ _ _ h h')
  | unfinished h => cases h' with
    | unfinished h' => exact .unfinished (hR _ _ _ h h')

/-- Outcomes that are alike stay so when both get the same sink. -/
theorem withSink {ρ : Type} (h : Alike φ R Q x y) (k : ρ) :
    Alike φ (fun s t => t.sink = s.sink) Q (x.withSink k) (y.withSink k) := by
  cases h with
  | done hab _ => exact .done hab rfl
  | fault e _ => exact .fault e rfl
  | unfinished _ => exact .unfinished rfl

end Outcome.Alike

/-- From related states, the two runs end in the same way. -/
def Exec.Simulates (φ : Fault → Fault) (R : State σ → State τ → Prop) (Q : α → β → Prop)
    (x : Exec σ α) (y : Exec τ β) : Prop :=
  ∀ s t, R s t → Outcome.Alike φ R Q (x s) (y t)

namespace Exec.Simulates

variable {φ : Fault → Fault} {R : State σ → State τ → Prop} {Q : α → β → Prop} {P : α' → β' → Prop}

theorem pure {a : α} {b : β} (h : Q a b) :
    Simulates φ R Q (Pure.pure a : Exec σ α) (Pure.pure b : Exec τ β) :=
  fun _ _ hst => .done h hst

theorem outOfFuel : Simulates φ R Q (Exec.outOfFuel : Exec σ α) (Exec.outOfFuel : Exec τ β) :=
  fun _ _ hst => .unfinished hst

theorem fail (e : Fault) :
    Simulates φ R Q (Exec.fail e : Exec σ α) (Exec.fail (φ e) : Exec τ β) :=
  fun _ _ hst => .fault e hst

/-- What follows is run with related values in related states. -/
theorem bind {x : Exec σ α} {y : Exec τ β} {f : α → Exec σ α'} {g : β → Exec τ β'}
    (hx : Simulates φ R Q x y) (hf : ∀ a b, Q a b → Simulates φ R P (f a) (g b)) :
    Simulates φ R P (x >>= f) (y >>= g) := by
  intro s t hst
  have h := hx s t hst
  change Outcome.Alike φ R P (Exec.bind x f s) (Exec.bind y g t)
  unfold Exec.bind
  generalize x s = o at h ⊢
  generalize y t = o' at h ⊢
  cases h with
  | done hab h => exact hf _ _ hab _ _ h
  | fault e h => exact .fault e h
  | unfinished h => exact .unfinished h

/-- With equal values, what follows has to go the same way for each value. -/
theorem bindSame {x : Exec σ α} {y : Exec τ α} {f : α → Exec σ α'} {g : α → Exec τ β'}
    (hx : Simulates φ R Eq x y) (hf : ∀ a, Simulates φ R P (f a) (g a)) :
    Simulates φ R P (x >>= f) (y >>= g) := by
  refine bind hx ?_
  rintro a _ rfl
  exact hf a

theorem ite {c d : Prop} [Decidable c] [Decidable d] {x x' : Exec σ α} {y y' : Exec τ β}
    (hcd : d ↔ c) (h : Simulates φ R Q x y) (h' : Simulates φ R Q x' y') :
    Simulates φ R Q (if c then x else x') (if d then y else y') := by
  by_cases hc : c
  · rwa [if_pos hc, if_pos (hcd.2 hc)]
  · rwa [if_neg hc, if_neg (mt hcd.1 hc)]

end Exec.Simulates

end IntScript
