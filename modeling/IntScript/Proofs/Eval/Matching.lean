import IntScript.Proofs.Eval.Endings
import IntScript.Proofs.Eval.Simulation

/-!
# Runs that end alike with different fuel

Where one of two runs has more to do than the other, they do not end alike with the same fuel.

* `Exec.Matches φ R Q x y` : from states in the relation `R`, where the run `x` ends, `y` ends alike
  with enough fuel (`Outcome.Alike`);
* `Exec.Matches.succ` : fuel for a step that only the second run makes;
* `Exec.Matches.of_simulates`, `Exec.Matches.bind`, `Exec.Matches.ite` : runs are put together;
* `Exec.Matches.endsWith` : the ends of the two runs.
-/

namespace IntScript

variable {σ τ α α' β β' : Type}

theorem Outcome.Alike.ended {φ : Fault → Fault} {R : State σ → State τ → Prop} {Q : α → β → Prop}
    {x : Outcome σ α} {y : Outcome τ β} (h : Alike φ R Q x y) (hx : x.Ended) : y.Ended := by
  cases h with
  | done _ _ => exact ended_done _ _
  | fault _ _ => exact ended_fault _ _
  | unfinished _ => exact absurd hx (not_ended_unfinished _)

/-- From related states, where the first run ends, the second one ends in the same way with any fuel
from some amount on. -/
def Exec.Matches (φ : Fault → Fault) (R : State σ → State τ → Prop) (Q : α → β → Prop)
    (x : Exec σ α) (y : Nat → Exec τ β) : Prop :=
  ∀ s t, R s t → (x s).Ended → ∃ o, Outcome.Alike φ R Q (x s) o ∧ ∃ n, ∀ m ≥ n, y m t = o

namespace Exec.Matches

variable {φ : Fault → Fault} {R : State σ → State τ → Prop} {Q : α → β → Prop} {P : α' → β' → Prop}

theorem outOfFuel (y : Nat → Exec τ β) : Matches φ R Q (Exec.outOfFuel : Exec σ α) y :=
  fun s _ _ hs => absurd hs (Outcome.not_ended_unfinished s)

theorem of_simulates {x : Exec σ α} {y : Exec τ β} (h : Exec.Simulates φ R Q x y) :
    Matches φ R Q x fun _ => y :=
  fun s t hst _ => ⟨y t, h s t hst, 0, fun _ _ => rfl⟩

/-- A unit of fuel for a step of the second run. -/
theorem succ {x : Exec σ α} {y : Nat → Exec τ β} (h : Matches φ R Q x fun m => y (m + 1)) :
    Matches φ R Q x y := by
  intro s t hst hs
  obtain ⟨o, ho, n, hn⟩ := h s t hst hs
  refine ⟨o, ho, n + 1, fun m hm => ?_⟩
  obtain ⟨m, rfl⟩ := Nat.exists_eq_add_of_le' (Nat.le_of_add_left_le hm)
  exact hn m (Nat.le_of_add_le_add_right hm)

/-- What follows is run with related values in related states. -/
theorem bind {x : Exec σ α} {y : Nat → Exec τ β} {f : α → Exec σ α'} {g : Nat → β → Exec τ β'}
    (hx : Matches φ R Q x y) (hf : ∀ a b, Q a b → Matches φ R P (f a) fun m => g m b) :
    Matches φ R P (x >>= f) fun m => y m >>= g m := by
  intro s t hst hs
  change (Exec.bind x f s).Ended at hs
  change ∃ o, Outcome.Alike φ R P (Exec.bind x f s) o ∧ ∃ n, ∀ m ≥ n, Exec.bind (y m) (g m) t = o
  have h := hx s t hst
  unfold Exec.bind at hs ⊢
  cases hxs : x s with
  | done a u =>
    rw [hxs] at h hs
    obtain ⟨o, ho, n, hn⟩ := h (Outcome.ended_done a u)
    obtain ⟨b, u', rfl, hab, hu⟩ := ho.of_done
    obtain ⟨o, ho, n', hn'⟩ := hf a b hab u u' hu hs
    refine ⟨o, ho, max n n', fun m hm => ?_⟩
    rw [hn m (Nat.le_trans (Nat.le_max_left n n') hm)]
    exact hn' m (Nat.le_trans (Nat.le_max_right n n') hm)
  | fault e u =>
    rw [hxs] at h
    obtain ⟨o, ho, n, hn⟩ := h (Outcome.ended_fault e u)
    obtain ⟨u', rfl, hu⟩ := ho.of_fault
    exact ⟨_, .fault e hu, n, fun m hm => by rw [hn m hm]⟩
  | unfinished u =>
    rw [hxs] at hs
    exact absurd hs (Outcome.not_ended_unfinished u)

/-- With equal values, what follows has to match for each value. -/
theorem bindSame {x : Exec σ α} {y : Nat → Exec τ α} {f : α → Exec σ α'} {g : Nat → α → Exec τ β'}
    (hx : Matches φ R Eq x y) (hf : ∀ a, Matches φ R P (f a) fun m => g m a) :
    Matches φ R P (x >>= f) fun m => y m >>= g m := by
  refine bind hx ?_
  rintro a _ rfl
  exact hf a

theorem ite {c : Prop} [Decidable c] {x x' : Exec σ α} {y y' : Nat → Exec τ β}
    (h : c → Matches φ R Q x y) (h' : ¬c → Matches φ R Q x' y') :
    Matches φ R Q (if c then x else x') fun m => if c then y m else y' m := by
  by_cases hc : c
  · simpa only [if_pos hc] using h hc
  · simpa only [if_neg hc] using h' hc

/-- The ends of two runs, the second of which ends where the first one does. -/
theorem endsWith {x : Nat → Exec σ α} {y : Nat → Exec τ β} (h : ∀ n, Matches φ R Q (x n) y)
    {s : State σ} {t : State τ} (hst : R s t) {o : Outcome σ α} (ho : EndsWith x s o) :
    ∃ o', EndsWith y t o' ∧ Outcome.Alike φ R Q o o' := by
  obtain ⟨ho, n, rfl⟩ := ho
  obtain ⟨o', halike, m, hm⟩ := h n s t hst ho
  exact ⟨o', ⟨halike.ended ho, m, hm m (Nat.le_refl m)⟩, halike⟩

end Exec.Matches

end IntScript
