import IntScript.Proofs.Peg.Telling
import Mathlib.Data.List.Chain

/-!
# How deep attempts are nested

An attempt inside another one is behind a character that was taken since, or lower in the hierarchy
of the rules. So both the nesting at one place and that over a whole text are bounded.

* `Peg.parts` : the expressions that an expression is put together from;
* `Grammar.run_unique` : more fuel than enough changes nothing;
* `Grammar.Nests` : one attempt asks for another, over any number of others;
* `Ranking.depth_lt_of_asks`, `Ranking.falls_of_nests` : what goes down from an attempt to one that it
  asks for, and to one inside it;
* `Ranking.length_of_isChain` : how many attempts can be nested in each other;
* `Ranking.step_of_mem_parts` : the steps of repetitions take characters.
-/

namespace IntScript

variable {R : Type}

namespace Peg

variable {x y : Peg R} {rules : R → Bool} {rank : R → Nat} {width : Nat}

/-- The expression and those that it is put together from, rules left as they are. -/
def parts : Peg R → List (Peg R)
  | .seq a b => .seq a b :: (a.parts ++ b.parts)
  | .alt a b => .alt a b :: (a.parts ++ b.parts)
  | .opt a => .opt a :: a.parts
  | .many a => .many a :: a.parts
  | .peek a => .peek a :: a.parts
  | .deny a => .deny a :: a.parts
  | x => [x]

theorem tame_of_mem_parts (hx : x.tame rules rank width = true) (hy : y ∈ x.parts) :
    y.tame rules rank width = true := by
  induction x with
  | text | char | start | stop | rule =>
    obtain rfl := List.mem_singleton.1 hy
    exact hx
  | seq a b iha ihb | alt a b iha ihb =>
    rcases List.mem_cons.1 hy with rfl | hy
    · exact hx
    simp only [tame, Bool.and_eq_true] at hx
    rcases List.mem_append.1 hy with hy | hy
    · exact iha (by simp only [hx]) hy
    · exact ihb (by simp only [hx]) hy
  | opt a ih | peek a ih | deny a ih =>
    rcases List.mem_cons.1 hy with rfl | hy
    · exact hx
    · exact ih hx hy
  | many a ih =>
    rcases List.mem_cons.1 hy with rfl | hy
    · exact hx
    simp only [tame, Bool.and_eq_true] at hx
    exact ih hx.1.1 hy

end Peg

/-- The end of an attempt that has found something, with the record of failures. -/
def Verdict.ofFound (f : Furthest R) : Found R → Verdict R
  | some (d, ns) => .matched d ns f
  | none => .failed f

namespace Grammar

variable {g : Grammar R} {a : Bool} {x : Peg R} {c d : Cursor} {p q : Attempt R} {o : Found R}

/-! ## More fuel than enough -/

/-- A run that ends is said by what is found and reported. -/
theorem run_eq_ofFound {n : Nat} {m : Mode} {f : Furthest R}
    (h : (g.run n m x c f).found? = some o) :
    ∃ t, g.Tries m.atomic (m.look = .negative) x c (o.map Prod.fst) t ∧
      g.run n m x c f = .ofFound (f.join t) o := by
  cases hv : g.run n m x c f with
  | matched d ns f₁ | failed f₁ =>
    obtain ⟨t, rfl, ht⟩ := tries_of_run (by rw [hv]; rfl)
    rw [hv] at h
    cases h
    exact ⟨t, ht, rfl⟩
  | exhausted => rw [hv] at h; cases h

/-- Runs that end do so in one way, however much fuel they have. -/
theorem run_unique {n n' : Nat} {m : Mode} {f : Furthest R} (h : (g.run n m x c f).found? ≠ none)
    (h' : (g.run n' m x c f).found? ≠ none) : g.run n m x c f = g.run n' m x c f := by
  obtain ⟨o, ho⟩ := Option.ne_none_iff_exists'.1 h
  obtain ⟨o', ho'⟩ := Option.ne_none_iff_exists'.1 h'
  obtain rfl : o = o' := (parses_of_run ho).unique (parses_of_run ho')
  obtain ⟨t, ht, hrun⟩ := run_eq_ofFound ho
  obtain ⟨t', ht', hrun'⟩ := run_eq_ofFound ho'
  rw [hrun, hrun', (ht.unique ht').2]

/-! ## Attempts inside attempts -/

/-- One attempt asks for another, over any number of others. -/
def Nests (g : Grammar R) (p q : Attempt R) : Prop := Relation.TransGen g.Asks p q

/-- A rule asks for what its body begins with. -/
theorem nests_of_body {r : R} {y : Peg R} (hr : g.body r = .seq x y) :
    g.Nests ⟨a, .rule r, c⟩ ⟨a || g.atomic r, x, c⟩ :=
  .head .rule (hr ▸ .single .seqLeft)

/-- What an attempt asks for is not in front of it. -/
theorem Asks.advance_eq (h : g.Asks p q) : ∃ n, q.place = p.place.advance n := by
  have hlayout : ∀ {a : Bool} {c d : Cursor}, (∃ n, d = c.advance n) →
      ∃ n, g.afterLayout a d = c.advance n := by
    rintro a c _ ⟨n, rfl⟩
    obtain ⟨m, hm⟩ := g.exists_afterLayout_advance a c n
    exact ⟨_, hm⟩
  cases h with
  | rule | seqLeft | altLeft | altRight | opt | many | peek | deny => exact ⟨0, rfl⟩
  | seqRight h =>
    obtain ⟨ns, h⟩ := h
    exact hlayout (h.advance_eq _ _ rfl)
  | @manyMore a x c d e ns h hs =>
    obtain ⟨ns', h⟩ := h
    refine hlayout ?_
    induction hs with
    | refl => exact h.advance_eq _ _ rfl
    | step _ hs ih =>
      obtain ⟨m, hm⟩ := hlayout (a := a) ih
      obtain ⟨n, rfl⟩ := hs.advance_eq _ _ rfl
      exact ⟨m + n, by rw [hm, Cursor.advance_advance]⟩

namespace Ranking

/-- What an attempt asks for at its own place is less deep. -/
theorem depth_lt_of_asks (k : g.Ranking) (h : g.Asks p q)
    (hp : p.expr.tame k.eats k.rank k.width = true) (ho : q.place.offset = p.place.offset) :
    q.expr.depth k.eats k.rank < p.expr.depth k.eats k.rank := by
  obtain ⟨n, hn⟩ := h.advance_eq
  rw [hn] at ho
  obtain rfl : n = 0 := Nat.add_eq_left.1 ho
  rcases k.falls_of_asks h hp with ⟨hlt, -⟩ | ⟨-, hd⟩
  · rw [hn] at hlt
    exact absurd hlt (Nat.lt_irrefl _)
  · exact hd

/-- What goes down from an attempt to one inside it: the weight, and the depth too, unless
characters were taken in between. -/
theorem falls_of_nests (k : g.Ranking) (h : g.Nests p q)
    (hp : p.expr.tame k.eats k.rank k.width = true) :
    q.expr.tame k.eats k.rank k.width = true ∧ k.weight q < k.weight p ∧
      p.place.offset ≤ q.place.offset ∧ (q.place.offset = p.place.offset →
        q.expr.depth k.eats k.rank < p.expr.depth k.eats k.rank) := by
  have hle : ∀ {p q : Attempt R}, g.Asks p q → p.place.offset ≤ q.place.offset := by
    intro p q h
    obtain ⟨n, hn⟩ := h.advance_eq
    exact hn ▸ Nat.le_add_right _ n
  induction h with
  | single h => exact ⟨k.tame_of_asks h hp, k.weight_lt h hp, hle h, k.depth_lt_of_asks h hp⟩
  | @tail q q' _ h ih =>
    obtain ⟨ht, hw, hpq, hd⟩ := ih
    have hqq' := hle h
    refine ⟨k.tame_of_asks h ht, Nat.lt_trans (k.weight_lt h ht) hw, Nat.le_trans hpq hqq',
      fun ho => ?_⟩
    -- The attempt in between is at the same place as the other two.
    have hq : q.place.offset = p.place.offset := by omega
    exact Nat.lt_trans (k.depth_lt_of_asks h ht (ho.trans hq.symm)) (hd hq)

/-- Attempts that are nested in each other are no more than the weight of the outermost one, and no
more than its depth if they are all tried at one place. -/
theorem length_of_isChain (k : g.Ranking) {qs : List (Attempt R)}
    (hp : p.expr.tame k.eats k.rank k.width = true) (h : (p :: qs).IsChain g.Nests) :
    qs.length < k.weight p ∧ ((∀ q ∈ qs, q.place.offset = p.place.offset) →
      qs.length < p.expr.depth k.eats k.rank) := by
  induction qs generalizing p with
  | nil =>
    have hpos := p.expr.depth_pos k.eats k.rank
    exact ⟨Nat.lt_of_lt_of_le hpos (Nat.le_add_right _ _), fun _ => hpos⟩
  | cons q qs ih =>
    obtain ⟨hpq, hqs⟩ := List.isChain_cons_cons.1 h
    obtain ⟨hq, hweight, -, hdepth⟩ := k.falls_of_nests hpq hp
    obtain ⟨hlt, hsame⟩ := ih hq hqs
    refine ⟨Nat.lt_of_le_of_lt hlt hweight, fun ho => ?_⟩
    have hoq := ho q List.mem_cons_self
    exact Nat.lt_of_le_of_lt (hsame fun q' hq' => (ho q' (.tail _ hq')).trans hoq.symm) (hdepth hoq)

/-- The steps of the repetitions in an expression take characters. -/
theorem step_of_mem_parts (k : g.Ranking) {y : Peg R}
    (hx : x.tame k.eats k.rank k.width = true) (hy : .many y ∈ x.parts) (h : g.Reaches a y c d) :
    c.offset < d.offset ∧ d.rest.length < c.rest.length := by
  have hmany := Peg.tame_of_mem_parts hx hy
  simp only [Peg.tame, Bool.and_eq_true] at hmany
  obtain ⟨ns, hd⟩ := h
  exact ⟨k.lt_offset hmany.1.2 ⟨ns, hd⟩, k.length_lt hmany.1.2 hd⟩

end Ranking

end Grammar

end IntScript
