import IntScript.Peg.Match
import Mathlib.Logic.Relation

/-!
# What an expression matches

The end of a match does not depend on the fuel, on the lookahead or on the record of failures.

* `Found R` : the place behind a match and its nodes, or nothing for a failure;
* `Grammar.Parses` : what an expression finds at a place; `Parses.unique` : it is one thing only;
* `Grammar.parses_of_run` : a run that ends has found that;
* `Grammar.Steps` : the steps of a repetition, one after the other (`many_of_steps`);
* `Grammar.Reaches` : the same with places only;
* `Grammar.Means` : what a match of each form of expression consists of (`Parses.means`).
-/

namespace IntScript

/-- The place behind a match and its nodes, or nothing for a failure. -/
abbrev Found (R : Type) := Option (Cursor × List (Node R))

/-- What has been found at the end of an attempt; nothing is known for want of fuel. -/
def Verdict.found? {R : Type} : Verdict R → Option (Found R)
  | .matched c ns _ => some (some (c, ns))
  | .failed _ => some none
  | .exhausted => none

namespace Cursor

theorem rest_advance (c : Cursor) (n : Nat) : (c.advance n).rest = c.rest.drop n := rfl

theorem advance_advance (c : Cursor) (m n : Nat) : (c.advance m).advance n = c.advance (m + n) := by
  simp [advance, Nat.add_assoc, List.drop_drop]

end Cursor

namespace Grammar

variable {R : Type}

/-- The place behind the layout, unless an atomic rule is being matched. -/
def afterLayout (g : Grammar R) (atomic : Bool) (c : Cursor) : Cursor :=
  if atomic then c else c.advance (g.layout c.rest)

/-- What a rule finds, given what its body does. -/
def wrap (g : Grammar R) (r : R) (c : Cursor) (o : Found R) : Found R :=
  o.map fun p => (p.1, [.mk r c p.1 (if g.atomic r then [] else p.2)])

/-- What an expression finds at a place, outside or inside an atomic rule. -/
inductive Parses (g : Grammar R) : Bool → Peg R → Cursor → Found R → Prop where
  | text {a : Bool} {s : List Char} {c : Cursor} {o : Found R}
    (ho : o = (c.pass? s).map (·, [])) : Parses g a (.text s) c o
  | char {a : Bool} {p : Char → Bool} {c : Cursor} {o : Found R}
    (ho : o = (c.passIf? p).map (·, [])) : Parses g a (.char p) c o
  | start {a : Bool} {c : Cursor} {o : Found R}
    (ho : o = if c.offset = 0 then some (c, []) else none) : Parses g a .start c o
  | stop {a : Bool} {c : Cursor} {o : Found R}
    (ho : o = if c.rest.isEmpty then some (c, []) else none) : Parses g a .stop c o
  | rule {a : Bool} {r : R} {c : Cursor} {o p : Found R}
    (h : Parses g (a || g.atomic r) (g.body r) c p) (ho : o = g.wrap r c p) :
    Parses g a (.rule r) c o
  | seqFail {a : Bool} {x y : Peg R} {c : Cursor} (hx : Parses g a x c none) :
    Parses g a (.seq x y) c none
  | seq {a : Bool} {x y : Peg R} {c d : Cursor} {ns : List (Node R)} {o p : Found R}
    (hx : Parses g a x c (some (d, ns))) (hy : Parses g a y (g.afterLayout a d) p)
    (ho : o = p.map fun q => (q.1, ns ++ q.2)) : Parses g a (.seq x y) c o
  | altLeft {a : Bool} {x y : Peg R} {c : Cursor} {p : Cursor × List (Node R)}
    (hx : Parses g a x c (some p)) : Parses g a (.alt x y) c (some p)
  | altRight {a : Bool} {x y : Peg R} {c : Cursor} {o : Found R} (hx : Parses g a x c none)
    (hy : Parses g a y c o) : Parses g a (.alt x y) c o
  | opt {a : Bool} {x : Peg R} {c : Cursor} {o p : Found R} (h : Parses g a x c p)
    (ho : o = some (p.getD (c, []))) : Parses g a (.opt x) c o
  | manyNil {a : Bool} {x : Peg R} {c : Cursor} (h : Parses g a x c none) :
    Parses g a (.many x) c (some (c, []))
  | manyLast {a : Bool} {x : Peg R} {c d : Cursor} {ns : List (Node R)}
    (h : Parses g a x c (some (d, ns))) (hd : Parses g a x (g.afterLayout a d) none) :
    Parses g a (.many x) c (some (d, ns))
  -- The next step is asked for apart: without one, the layout in front of it is given back.
  | manyMore {a : Bool} {x : Peg R} {c d e : Cursor} {ns ns' : List (Node R)}
    {p : Cursor × List (Node R)} (h : Parses g a x c (some (d, ns)))
    (hd : Parses g a x (g.afterLayout a d) (some p))
    (hm : Parses g a (.many x) (g.afterLayout a d) (some (e, ns'))) :
    Parses g a (.many x) c (some (e, ns ++ ns'))
  | peek {a : Bool} {x : Peg R} {c : Cursor} {o p : Found R} (h : Parses g a x c p)
    (ho : o = p.map fun _ => (c, [])) : Parses g a (.peek x) c o
  | deny {a : Bool} {x : Peg R} {c : Cursor} {o p : Found R} (h : Parses g a x c p)
    (ho : o = if p.isSome then none else some (c, [])) : Parses g a (.deny x) c o

variable {g : Grammar R} {a : Bool} {x y : Peg R} {c d e : Cursor} {o : Found R}
  {ns ns' : List (Node R)} {r : R}

@[simp] theorem afterLayout_true : g.afterLayout true c = c := rfl

theorem skip_eq (m : Mode) : g.skip m c = g.afterLayout m.atomic c := rfl

theorem afterLayout_false : g.afterLayout false c = c.advance (g.layout c.rest) := rfl

theorem exists_afterLayout_advance (g : Grammar R) (a : Bool) (c : Cursor) (n : Nat) :
    ∃ m, g.afterLayout a (c.advance n) = c.advance (n + m) := by
  cases a with
  | true => exact ⟨0, rfl⟩
  | false => exact ⟨_, Cursor.advance_advance c n _⟩

/-- An expression finds one thing at a place. -/
theorem Parses.unique {o₁ o₂ : Found R} (h₁ : g.Parses a x c o₁) (h₂ : g.Parses a x c o₂) :
    o₁ = o₂ := by
  induction h₁ generalizing o₂ with
  | text ho | char ho | start ho | stop ho => cases h₂; simp_all
  | rule _ ho ih =>
    cases h₂ with
    | rule h' ho' => rw [ho, ho', ih h']
  | seqFail _ ih =>
    cases h₂ with
    | seqFail => rfl
    | seq hx' => cases ih hx'
  | seq _ _ ho ihx ihy =>
    cases h₂ with
    | seqFail h' => cases ihx h'
    | seq hx' hy' ho' => cases ihx hx'; rw [ho, ho', ihy hy']
  | altLeft _ ih =>
    cases h₂ with
    | altLeft h' => exact ih h'
    | altRight hx' => cases ih hx'
  | altRight _ _ ihx ihy =>
    cases h₂ with
    | altLeft h' => cases ihx h'
    | altRight _ hy' => exact ihy hy'
  | opt _ ho ih =>
    cases h₂ with
    | opt h' ho' => rw [ho, ho', ih h']
  | manyNil _ ih =>
    cases h₂ with
    | manyNil => rfl
    | manyLast h' | manyMore h' => cases ih h'
  | manyLast _ _ ih ihd =>
    cases h₂ with
    | manyNil h' => cases ih h'
    | manyLast h' => exact ih h'
    | manyMore h' hd' => cases ih h'; cases ihd hd'
  | manyMore _ _ _ ih ihd ihm =>
    cases h₂ with
    | manyNil h' => cases ih h'
    | manyLast h' hd' => cases ih h'; cases ihd hd'
    | manyMore h' _ hm' => cases ih h'; cases ihm hm'; rfl
  | peek _ ho ih =>
    cases h₂ with
    | peek h' ho' => rw [ho, ho', ih h']
  | deny _ ho ih =>
    cases h₂ with
    | deny h' ho' => rw [ho, ho', ih h']

/-! ## Runs -/

/-- The further steps of a repetition, when each step finds what it should. -/
theorem parses_of_repeatMore {step : Cursor → Furthest R → Verdict R}
    (hstep : ∀ c f o, (step c f).found? = some o → g.Parses a x (g.afterLayout a c) o)
    (done : List (Node R)) {n : Nat} {f : Furthest R} (h : g.Parses a x c (some (d, ns)))
    (hr : (repeatMore step n d (ns.reverse ++ done) f).found? = some o) :
    ∃ e ns', o = some (e, done.reverse ++ ns') ∧ g.Parses a (.many x) c (some (e, ns')) := by
  induction n generalizing c d ns done f with
  | zero => simp [repeatMore, Verdict.found?] at hr
  | succ n ih =>
    rw [repeatMore] at hr
    cases hs : step d f with
    | matched d' ns₁ f' =>
      have h₁ := hstep d f _ (by rw [hs]; rfl)
      rw [hs] at hr
      obtain ⟨e, ns', ho, hm⟩ := ih _ h₁ hr
      refine ⟨e, ns ++ ns', ?_, .manyMore h h₁ hm⟩
      rw [ho, List.reverse_append, List.reverse_reverse, List.append_assoc]
    | failed f' =>
      have h₁ := hstep d f _ (by rw [hs]; rfl)
      rw [hs] at hr
      refine ⟨d, ns, ?_, .manyLast h h₁⟩
      simpa [Verdict.found?] using hr.symm
    | exhausted => simp [hs, Verdict.found?] at hr

theorem found?_ofCursor? (c? : Option Cursor) (f : Furthest R) :
    (Verdict.ofCursor? c? f).found? = some (c?.map (·, [])) := by
  cases c? <;> rfl

/-- A run that ends has found what the expression finds. -/
theorem parses_of_run {n : Nat} {m : Mode} {f : Furthest R}
    (h : (g.run n m x c f).found? = some o) : g.Parses m.atomic x c o := by
  induction n generalizing m x c f o with
  | zero => simp [run, Verdict.found?] at h
  | succ n ih =>
    cases x with
    | text s | char p =>
      rw [run, found?_ofCursor?, Option.some.injEq] at h
      constructor
      exact h.symm
    | start | stop =>
      rw [run, found?_ofCursor?, Option.some.injEq] at h
      constructor
      rw [← h]
      split <;> rfl
    | rule r =>
      rw [run] at h
      cases hb : g.run n { m with atomic := m.atomic || g.atomic r } (g.body r) c f with
      | matched d ns f' | failed f' =>
        refine .rule (ih (by rw [hb]; rfl)) ?_
        simpa [hb, Verdict.found?, wrap] using h.symm
      | exhausted => simp [hb, Verdict.found?] at h
    | seq x y =>
      rw [run] at h
      cases hx : g.run n m x c f with
      | matched d ns f' =>
        have px := ih (m := m) (by rw [hx]; rfl)
        simp only [hx, Verdict.andThen] at h
        rw [skip_eq] at h
        cases hy : g.run n m y (g.afterLayout m.atomic d) f' with
        | matched e ns' f'' | failed f'' =>
          refine .seq px (ih (m := m) (by rw [hy]; rfl)) ?_
          simpa [hy, Verdict.found?] using h.symm
        | exhausted => simp [hy, Verdict.found?] at h
      | failed f' =>
        have px := ih (m := m) (by rw [hx]; rfl)
        simp only [hx, Verdict.andThen, Verdict.found?, Option.some.injEq] at h
        exact h ▸ .seqFail px
      | exhausted => simp [hx, Verdict.andThen, Verdict.found?] at h
    | alt x y =>
      rw [run] at h
      cases hx : g.run n m x c f with
      | matched d ns f' =>
        have px := ih (m := m) (by rw [hx]; rfl)
        simp only [hx, Verdict.orElse, Verdict.found?, Option.some.injEq] at h
        exact h ▸ .altLeft px
      | failed f' =>
        have px := ih (m := m) (by rw [hx]; rfl)
        rw [hx] at h
        exact .altRight px (ih h)
      | exhausted => simp [hx, Verdict.orElse, Verdict.found?] at h
    | opt x =>
      rw [run] at h
      cases hx : g.run n m x c f with
      | matched d ns f' | failed f' =>
        refine .opt (ih (by rw [hx]; rfl)) ?_
        simpa [hx, Verdict.orElse, Verdict.found?] using h.symm
      | exhausted => simp [hx, Verdict.orElse, Verdict.found?] at h
    | many x =>
      rw [run] at h
      cases hx : g.run n m x c f with
      | matched d ns f' =>
        have px := ih (m := m) (by rw [hx]; rfl)
        rw [hx] at h
        have hstep : ∀ c f o, (g.run n m x (g.skip m c) f).found? = some o →
            g.Parses m.atomic x (g.afterLayout m.atomic c) o := fun c f o h => ih h
        obtain ⟨e, ns', ho, hm⟩ :=
          parses_of_repeatMore hstep [] px (by simpa using h)
        simpa [ho] using hm
      | failed f' =>
        have px := ih (m := m) (by rw [hx]; rfl)
        simp only [hx, Verdict.found?, Option.some.injEq] at h
        exact h ▸ .manyNil px
      | exhausted => simp [hx, Verdict.found?] at h
    | peek x =>
      rw [run] at h
      cases hx : g.run n { m with look := m.look.peek } x c f with
      | matched d ns f' | failed f' =>
        refine .peek (ih (m := { m with look := m.look.peek }) (by rw [hx]; rfl)) ?_
        simpa [hx, Verdict.andThen, Verdict.found?] using h.symm
      | exhausted => simp [hx, Verdict.andThen, Verdict.found?] at h
    | deny x =>
      rw [run] at h
      cases hx : g.run n { m with look := m.look.deny } x c f with
      | matched d ns f' | failed f' =>
        refine .deny (ih (m := { m with look := m.look.deny }) (by rw [hx]; rfl)) ?_
        simpa [hx, Verdict.found?] using h.symm
      | exhausted => simp [hx, Verdict.found?] at h

/-! ## Repetitions -/

/-- Steps of a repetition, each behind the layout after the one before it. -/
inductive Steps (g : Grammar R) (a : Bool) (x : Peg R) (c : Cursor) :
    Cursor → List (Node R) → Prop where
  | refl : Steps g a x c c []
  | step {d e : Cursor} {ns ns' : List (Node R)} (h : Steps g a x c d ns)
    (hs : g.Parses a x (g.afterLayout a d) (some (e, ns'))) : Steps g a x c e (ns ++ ns')

/-- What is left to do for a repetition that has come to `c`. -/
def Goes (g : Grammar R) (a : Bool) (x : Peg R) (c e : Cursor) (ns : List (Node R)) : Prop :=
  g.Parses a x (g.afterLayout a c) none ∧ e = c ∧ ns = [] ∨
    ∃ p, g.Parses a x (g.afterLayout a c) (some p) ∧
      g.Parses a (.many x) (g.afterLayout a c) (some (e, ns))

theorem Goes.many (h : g.Parses a x c (some (d, ns))) (hd : g.Goes a x d e ns') :
    g.Parses a (.many x) c (some (e, ns ++ ns')) := by
  rcases hd with ⟨hd, rfl, rfl⟩ | ⟨p, hd, hm⟩
  · rw [List.append_nil]
    exact .manyLast h hd
  · exact .manyMore h hd hm

theorem Steps.goes (h : g.Steps a x c d ns) (hd : g.Goes a x d e ns') :
    g.Goes a x c e (ns ++ ns') := by
  induction h generalizing e ns' with
  | refl => exact hd
  | step _ hs ih =>
    rw [List.append_assoc]
    exact ih (.inr ⟨_, hs, Goes.many hs hd⟩)

/-- A repetition takes all that there is left to do. -/
theorem many_of_goes (hc : g.afterLayout a c = c) (h : g.Goes a x c d ns) :
    g.Parses a (.many x) c (some (d, ns)) := by
  rw [Goes, hc] at h
  rcases h with ⟨h₀, rfl, rfl⟩ | ⟨p, -, hm⟩
  · exact .manyNil h₀
  · exact hm

/-- What is left is a repetition behind the layout, which is given back if that takes no step. -/
theorem Goes.of_many (hm : g.Parses a (.many x) (g.afterLayout a c) (some (e, ns))) :
    ∃ e', (e' = e ∨ e' = c ∧ e = g.afterLayout a c) ∧ g.Goes a x c e' ns := by
  cases hm with
  | manyNil h => exact ⟨c, .inr ⟨rfl, rfl⟩, .inl ⟨h, rfl, rfl⟩⟩
  | manyLast h hd => exact ⟨e, .inl rfl, .inr ⟨_, h, .manyLast h hd⟩⟩
  | manyMore h hd hm => exact ⟨e, .inl rfl, .inr ⟨_, h, .manyMore h hd hm⟩⟩

/-- A repetition takes the steps that there are, until one fails. -/
theorem many_of_steps (hc : g.afterLayout a c = c) (h : g.Steps a x c d ns)
    (hd : g.Parses a x (g.afterLayout a d) none) : g.Parses a (.many x) c (some (d, ns)) := by
  have hg := h.goes (.inl ⟨hd, rfl, rfl⟩)
  rw [List.append_nil] at hg
  exact many_of_goes hc hg

/-- A match, and the repetition behind it. The layout between them is given back if the repetition
takes no step. -/
theorem many_cons (h : g.Parses a x c (some (d, ns)))
    (hm : g.Parses a (.many x) (g.afterLayout a d) (some (e, ns'))) :
    ∃ e', (e' = e ∨ e' = d ∧ e = g.afterLayout a d) ∧
      g.Parses a (.many x) c (some (e', ns ++ ns')) := by
  obtain ⟨e', he', hg⟩ := Goes.of_many hm
  exact ⟨e', he', Goes.many h hg⟩

/-! ## Places -/

/-- An expression matches from one place to another. -/
def Reaches (g : Grammar R) (a : Bool) (x : Peg R) (c d : Cursor) : Prop :=
  ∃ ns, g.Parses a x c (some (d, ns))

/-- What a match of an expression consists of, when a match of the rule `r` means `S r`. The steps
of a repetition stand behind the layout after one another. -/
def Means (g : Grammar R) (S : R → Cursor → Cursor → Prop) : Peg R → Cursor → Cursor → Prop
  | .text s, c, d => c.pass? s = some d
  | .char p, c, d => c.passIf? p = some d
  | .start, c, d => d = c
  | .stop, c, d => d = c ∧ c.rest = []
  | .rule r, c, d => S r c d
  | .seq x y, c, d => ∃ e, Means g S x c e ∧ Means g S y (g.afterLayout false e) d
  | .alt x y, c, d => Means g S x c d ∨ Means g S y c d
  | .opt x, c, d => Means g S x c d ∨ d = c
  | .many x, c, d => d = c ∨ ∃ e, Means g S x c e ∧ Relation.ReflTransGen
      (fun e e' => e' = g.afterLayout false e ∨ Means g S x (g.afterLayout false e) e') e d
  | .peek x, c, d => d = c ∧ ∃ e, g.Reaches false x c e
  | .deny x, c, d => d = c ∧ g.Parses false x c none

/-- If each rule means what its body does, then a match means what it consists of. The bodies of
atomic rules are left alone. -/
theorem Parses.means {S : R → Cursor → Cursor → Prop}
    (hS : ∀ r c d, g.Reaches false (.rule r) c d →
      (g.atomic r = false → g.Means S (g.body r) c d) → S r c d)
    (h : g.Parses a x c o) (ha : a = false) (ho : o = some (d, ns)) : g.Means S x c d := by
  induction h generalizing d ns with
  | text ho' | char ho' =>
    rw [ho', Option.map_eq_some_iff] at ho
    obtain ⟨e, he, hd⟩ := ho
    rw [Means, he, (Prod.mk.inj hd).1]
  | start ho' =>
    rw [ho'] at ho
    split at ho
    · exact (Prod.mk.inj (Option.some.inj ho)).1.symm
    · cases ho
  | stop ho' =>
    rw [ho'] at ho
    split at ho
    · next hr => exact ⟨(Prod.mk.inj (Option.some.inj ho)).1.symm, List.isEmpty_iff.1 hr⟩
    · cases ho
  | rule h ho' ih =>
    subst ha
    obtain ⟨q, hq, hd⟩ := Option.map_eq_some_iff.1 (ho'.symm.trans ho)
    obtain ⟨rfl, -⟩ := Prod.mk.inj hd
    refine hS _ _ _ ⟨ns, ho ▸ .rule h ho'⟩ fun hr => ih ?_ hq
    rw [hr]
    rfl
  | seqFail => cases ho
  | seq _ _ ho' ihx ihy =>
    subst ha
    rw [ho'] at ho
    obtain ⟨q, hq, hd⟩ := Option.map_eq_some_iff.1 ho
    rw [← (Prod.mk.inj hd).1]
    exact ⟨_, ihx rfl rfl, ihy rfl hq⟩
  | altLeft _ ih => exact .inl (ih ha ho)
  | altRight _ _ _ ih => exact .inr (ih ha ho)
  | @opt _ _ _ _ p _ ho' ih =>
    rw [ho'] at ho
    cases p with
    | none => exact .inr (Prod.mk.inj (Option.some.inj ho)).1.symm
    | some q => exact .inl (ih ha ho)
  | manyNil => exact .inl (Prod.mk.inj (Option.some.inj ho)).1.symm
  | manyLast _ _ ih =>
    obtain ⟨rfl, rfl⟩ := Prod.mk.inj (Option.some.inj ho)
    exact .inr ⟨_, ih ha rfl, .refl⟩
  | manyMore _ _ _ ih _ ihm =>
    subst ha
    obtain ⟨rfl, rfl⟩ := Prod.mk.inj (Option.some.inj ho)
    refine .inr ⟨_, ih rfl rfl, ?_⟩
    rcases ihm rfl rfl with h | ⟨e', h, hs⟩
    · exact .single (.inl h)
    · exact .head (.inr h) hs
  | @peek _ _ _ _ p h ho' ih =>
    subst ha
    rw [ho'] at ho
    obtain ⟨q, rfl, hd⟩ := Option.map_eq_some_iff.1 ho
    exact ⟨(Prod.mk.inj hd).1.symm, _, _, h⟩
  | @deny _ _ _ _ p h ho' ih =>
    subst ha
    rw [ho'] at ho
    cases p with
    | none => exact ⟨(Prod.mk.inj (Option.some.inj ho)).1.symm, h⟩
    | some q => simp at ho

end Grammar

end IntScript
