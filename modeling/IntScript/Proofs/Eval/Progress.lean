import IntScript.Proofs.Eval.Events

/-!
# The progress of an activation

The events of a run are those of many activations, nested in each other. The events of one of them
say which variables are bound, whether the terminal value is set, and which loops are being executed.

* `ownEvents` : the events of the activation itself, without those of the functions that it calls;
* `Progress` : what they account for, `Progress.after` one of them, `Progress.afterAll` several;
* `Progress.Admits` : events can come in this order. Statements begin, variables are bound and the
  terminal value is set only as long as there is none; a condition is tested only if its loop is the
  innermost one that is being executed;
* `Progress.Admits.frozen` : then the first terminal value remains, and so do the variables.
-/

namespace IntScript

/-! ## Own events -/

/-- In how many calls a run is after an event. -/
def Event.nesting (d : Nat) : Event → Nat
  | .entered _ _ => d + 1
  | .left _ => d - 1
  | _ => d

/-- In how many calls a run is after events, if it is in `d` calls before. -/
def nesting (d : Nat) (es : List Event) : Nat := es.foldl Event.nesting d

/-- Of the events of a run that is in `d` calls, those that happen outside of every call. -/
def ownEvents : Nat → List Event → List Event
  | _, [] => []
  | d, e :: es =>
    if d = 0 then e :: ownEvents (e.nesting d) es else ownEvents (e.nesting d) es

/-- Each call that begins in the events also ends in them. -/
def Balanced (es : List Event) : Prop := ∀ d, nesting d es = d

theorem nesting_append (d : Nat) (es es' : List Event) :
    nesting d (es ++ es') = nesting (nesting d es) es' :=
  List.foldl_append

theorem ownEvents_append (d : Nat) (es es' : List Event) :
    ownEvents d (es ++ es') = ownEvents d es ++ ownEvents (nesting d es) es' := by
  induction es generalizing d with
  | nil => rfl
  | cons e es ih =>
    simp only [List.cons_append, ownEvents, ih]
    split <;> rfl

namespace Balanced

theorem nil : Balanced [] := fun _ => rfl

theorem append {es es' : List Event} (h : Balanced es) (h' : Balanced es') :
    Balanced (es ++ es') := by
  intro d
  rw [nesting_append, h, h']

/-- The events of a call that comes to its end. -/
theorem call {es : List Event} (h : Balanced es) (f : String) (vs : List Int64) :
    Balanced (.entered f vs :: es ++ [.left f]) := by
  intro d
  rw [nesting_append]
  change nesting (nesting (d + 1) es) [.left f] = d
  rw [h]
  rfl

theorem ownEvents_append {es : List Event} (h : Balanced es) (d : Nat) (es' : List Event) :
    ownEvents d (es ++ es') = ownEvents d es ++ ownEvents d es' := by
  rw [IntScript.ownEvents_append, h]

end Balanced

/-! ## Progress -/

/-- What the own events of an activation account for. -/
structure Progress where
  vars : Vars
  result : Option Int64
  /-- The conditions of the loops that are being executed, the innermost one first. -/
  loops : List Expr

/-- Output and calls, which happen in the evaluation of expressions. -/
def Event.aside : Event → Bool
  | .printed _ | .entered _ _ => true
  | _ => false

namespace Progress

/-- The progress after an event. -/
def after (p : Progress) : Event → Progress
  | .began (.loop c _) => { p with loops := c :: p.loops }
  | .tested _ v => if truthy v then p else { p with loops := p.loops.tail }
  | .bound x v => { p with vars := p.vars.insert x v }
  | .returned v => { p with result := some v }
  | _ => p

/-- The progress after events. -/
def afterAll (p : Progress) (es : List Event) : Progress := es.foldl after p

/-- What can happen next. -/
def Allows (p : Progress) : Event → Prop
  | .printed _ | .entered _ _ => True
  | .tested c _ => p.loops.head? = some c
  | _ => p.result = none

/-- What can happen next, one event after the other. -/
def Admits (p : Progress) : List Event → Prop
  | [] => True
  | e :: es => p.Allows e ∧ (p.after e).Admits es

/-- The progress `q` is that of `p` but for the loops that were being executed, and the events are
those of the evaluation of their conditions. -/
structure Frozen (p q : Progress) (es : List Event) : Prop where
  vars : q.vars = p.vars
  result : q.result = p.result
  loops : q.loops <:+ p.loops
  events : ∀ e ∈ es, e.aside = true ∨ ∃ c ∈ p.loops, ∃ v, e = .tested c v

theorem afterAll_append (p : Progress) (es es' : List Event) :
    p.afterAll (es ++ es') = (p.afterAll es).afterAll es' :=
  List.foldl_append

theorem admits_append {p : Progress} {es es' : List Event} :
    p.Admits (es ++ es') ↔ p.Admits es ∧ (p.afterAll es).Admits es' := by
  induction es generalizing p with
  | nil => exact ⟨fun h => ⟨trivial, h⟩, And.right⟩
  | cons e es ih =>
    change p.Allows e ∧ (p.after e).Admits (es ++ es') ↔ _
    rw [ih, ← and_assoc]
    rfl

/-- With a terminal value, an event changes at most which loops are being executed. -/
theorem Allows.frozen {p : Progress} {e : Event} (h : p.Allows e) (hp : p.result ≠ none) :
    Frozen p (p.after e) [e] := by
  cases e with
  | printed v =>
    exact ⟨rfl, rfl, List.suffix_refl _, fun e he => .inl (List.mem_singleton.1 he ▸ rfl)⟩
  | entered f vs =>
    exact ⟨rfl, rfl, List.suffix_refl _, fun e he => .inl (List.mem_singleton.1 he ▸ rfl)⟩
  | tested c v =>
    have hc : c ∈ p.loops := List.mem_of_mem_head? h
    have hev : ∀ e ∈ [Event.tested c v], e.aside = true ∨ ∃ c ∈ p.loops, ∃ v, e = .tested c v :=
      fun e he => .inr ⟨c, hc, v, List.mem_singleton.1 he⟩
    simp only [after]
    split
    · exact ⟨rfl, rfl, List.suffix_refl _, hev⟩
    · exact ⟨rfl, rfl, List.tail_suffix _, hev⟩
  | began | bound | registered | returned | left => exact absurd h hp

theorem Frozen.trans {p q r : Progress} {es es' : List Event} (h : Frozen p q es)
    (h' : Frozen q r es') : Frozen p r (es ++ es') where
  vars := h'.vars.trans h.vars
  result := h'.result.trans h.result
  loops := h'.loops.trans h.loops
  events e he := by
    rcases List.mem_append.1 he with he | he
    · exact h.events e he
    · rcases h'.events e he with ha | ⟨c, hc, hv⟩
      · exact .inl ha
      · exact .inr ⟨c, h.loops.subset hc, hv⟩

/-- From the terminal value on, nothing changes but the loops that are being executed. -/
theorem Admits.frozen {p : Progress} {es : List Event} (h : p.Admits es) (hp : p.result ≠ none) :
    Frozen p (p.afterAll es) es := by
  induction es generalizing p with
  | nil => exact ⟨rfl, rfl, List.suffix_refl _, by simp⟩
  | cons e es ih =>
    have he := h.1.frozen hp
    exact he.trans (ih h.2 (by rwa [he.result]))

end Progress

end IntScript
