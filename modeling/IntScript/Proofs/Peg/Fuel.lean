import IntScript.Proofs.Peg.Parses

/-!
# How much fuel a match takes

* `Peg.eats` : every match of the expression takes at least one character;
* `Peg.depth` : how deep expressions are nested before a character is taken;
* `Grammar.Asks` : the attempts that an attempt makes in turn;
* `Grammar.Ranking` : both for the rules of a grammar, with what makes every match end;
* `Ranking.length_lt`, `Ranking.length_le` : what a match leaves of the text;
* `Ranking.falls_of_asks` : an attempt is behind the one that asks for it, or less deep
  (`Ranking.weight_lt`);
* `Ranking.found_run` : fuel in proportion to the length of the text suffices
  (`Ranking.exists_parses`).
-/

namespace IntScript

namespace Peg

variable {R : Type}

/-- Every match takes at least one character; `eats` says so of the rules. -/
def eats (rules : R → Bool) : Peg R → Bool
  | .text s => !s.isEmpty
  | .char _ => true
  | .rule r => rules r
  | .seq a b => a.eats rules || b.eats rules
  | .alt a b => a.eats rules && b.eats rules
  | .start | .stop | .opt _ | .many _ | .peek _ | .deny _ => false

/-- How many expressions can be nested before a character is taken; `rank` says so of the rules. -/
def depth (rules : R → Bool) (rank : R → Nat) : Peg R → Nat
  | .text _ | .char _ | .start | .stop => 1
  | .rule r => rank r + 1
  | .seq a b =>
    (if a.eats rules then a.depth rules rank else max (a.depth rules rank) (b.depth rules rank)) + 1
  | .alt a b => max (a.depth rules rank) (b.depth rules rank) + 1
  | .opt a | .many a | .peek a | .deny a => a.depth rules rank + 1

theorem depth_pos (rules : R → Bool) (rank : R → Nat) (x : Peg R) : 0 < x.depth rules rank := by
  cases x <;> exact Nat.succ_pos _

/-- The steps of repetitions take characters, and `width` bounds the nesting of what is matched
after a character was taken. -/
def tame (rules : R → Bool) (rank : R → Nat) (width : Nat) : Peg R → Bool
  | .text _ | .char _ | .start | .stop | .rule _ => true
  | .seq a b => a.tame rules rank width && b.tame rules rank width && b.depth rules rank ≤ width
  | .alt a b => a.tame rules rank width && b.tame rules rank width
  | .many a => a.tame rules rank width && a.eats rules && a.depth rules rank ≤ width
  | .opt a | .peek a | .deny a => a.tame rules rank width

end Peg

/-! ## Attempts -/

/-- An expression that is tried at a place, outside or inside an atomic rule. -/
structure Attempt (R : Type) where
  atomic : Bool
  expr : Peg R
  place : Cursor

/-- One attempt asks for another as a part of it: a run has no other runs inside
(`Ranking.found_run_succ`). The steps of a repetition but the first one are tried behind the
layout. -/
inductive Grammar.Asks {R : Type} (g : Grammar R) : Attempt R → Attempt R → Prop where
  | rule {a : Bool} {r : R} {c : Cursor} : Asks g ⟨a, .rule r, c⟩ ⟨a || g.atomic r, g.body r, c⟩
  | seqLeft {a : Bool} {x y : Peg R} {c : Cursor} : Asks g ⟨a, .seq x y, c⟩ ⟨a, x, c⟩
  | seqRight {a : Bool} {x y : Peg R} {c d : Cursor} (h : g.Reaches a x c d) :
    Asks g ⟨a, .seq x y, c⟩ ⟨a, y, g.afterLayout a d⟩
  | altLeft {a : Bool} {x y : Peg R} {c : Cursor} : Asks g ⟨a, .alt x y, c⟩ ⟨a, x, c⟩
  | altRight {a : Bool} {x y : Peg R} {c : Cursor} (h : g.Parses a x c none) :
    Asks g ⟨a, .alt x y, c⟩ ⟨a, y, c⟩
  | opt {a : Bool} {x : Peg R} {c : Cursor} : Asks g ⟨a, .opt x, c⟩ ⟨a, x, c⟩
  | many {a : Bool} {x : Peg R} {c : Cursor} : Asks g ⟨a, .many x, c⟩ ⟨a, x, c⟩
  | manyMore {a : Bool} {x : Peg R} {c d e : Cursor} {ns : List (Node R)} (h : g.Reaches a x c d)
    (hs : g.Steps a x d e ns) : Asks g ⟨a, .many x, c⟩ ⟨a, x, g.afterLayout a e⟩
  | peek {a : Bool} {x : Peg R} {c : Cursor} : Asks g ⟨a, .peek x, c⟩ ⟨a, x, c⟩
  | deny {a : Bool} {x : Peg R} {c : Cursor} : Asks g ⟨a, .deny x, c⟩ ⟨a, x, c⟩

namespace Verdict

variable {R : Type} {v : Verdict R}

theorem found?_andThen {next : Cursor → List (Node R) → Furthest R → Verdict R}
    (hv : v.found? ≠ none)
    (h : ∀ d ns f, v = .matched d ns f → (next d ns f).found? ≠ none) :
    (v.andThen next).found? ≠ none := by
  cases v with
  | matched d ns f => exact h d ns f rfl
  | failed => exact Option.some_ne_none _
  | exhausted => exact absurd rfl hv

theorem found?_orElse {next : Furthest R → Verdict R} (hv : v.found? ≠ none)
    (h : ∀ f, v = .failed f → (next f).found? ≠ none) : (v.orElse next).found? ≠ none := by
  cases v with
  | matched => exact Option.some_ne_none _
  | failed f => exact h f rfl
  | exhausted => exact absurd rfl hv

end Verdict

/-- A bound on how deep the rules of a grammar are nested in each other at one place. -/
structure Grammar.Ranking {R : Type} (g : Grammar R) where
  /-- The rules that take at least one character. -/
  eats : R → Bool
  rank : R → Nat
  /-- A bound on the nesting of any expression. -/
  width : Nat
  body_eats : ∀ r, eats r = true → (g.body r).eats eats = true
  depth_body : ∀ r, (g.body r).depth eats rank ≤ rank r
  tame_body : ∀ r, (g.body r).tame eats rank width = true

namespace Grammar.Ranking

variable {R : Type} {g : Grammar R} {a : Bool} {x : Peg R} {c d : Cursor} {ns : List (Node R)}

theorem length_advance (c : Cursor) (n : Nat) : (c.advance n).rest.length = c.rest.length - n := by
  simp [Cursor.advance]

theorem length_afterLayout (g : Grammar R) (a : Bool) (c : Cursor) :
    (g.afterLayout a c).rest.length ≤ c.rest.length := by
  cases a
  · rw [afterLayout_false, length_advance]; omega
  · exact Nat.le_of_eq (congrArg (·.rest.length) afterLayout_true)

theorem toNat_or_le (p q : Bool) : (p || q).toNat ≤ p.toNat + q.toNat := by
  cases p <;> cases q <;> decide

theorem toNat_and_le (p q : Bool) : (p && q).toNat ≤ p.toNat ∧ (p && q).toNat ≤ q.toNat := by
  cases p <;> cases q <;> decide

/-- What a match leaves of the text, and that it has taken something if it had to. -/
theorem length_add_eats (k : g.Ranking) {o : Found R} (h : g.Parses a x c o) :
    ∀ d ns, o = some (d, ns) → d.rest.length + (x.eats k.eats).toNat ≤ c.rest.length := by
  induction h with
  | @text a s c o ho =>
    rintro d ns rfl
    obtain ⟨e, he, hd⟩ := Option.map_eq_some_iff.1 ho.symm
    cases hd
    simp only [Cursor.pass?] at he
    split at he
    · next hs =>
      cases he
      have := (List.isPrefixOf_iff_prefix.1 hs).length_le
      rw [length_advance, Peg.eats]
      cases s <;> simp at this ⊢; omega
    · cases he
  | @char a p c o ho =>
    rintro d ns rfl
    obtain ⟨e, he, hd⟩ := Option.map_eq_some_iff.1 ho.symm
    cases hd
    simp only [Cursor.passIf?] at he
    split at he
    · cases he
    · next y ys hy =>
      split at he <;> cases he
      rw [length_advance, hy, Peg.eats]
      simp
  | start ho | stop ho =>
    rintro d ns rfl
    split at ho <;> cases ho
    simp [Peg.eats]
  | @rule a r c o o' _ ho ih =>
    rintro d ns rfl
    obtain ⟨⟨e, ns'⟩, rfl, hd⟩ := Option.map_eq_some_iff.1 ho.symm
    cases hd
    have hr := ih e ns' rfl
    rw [Peg.eats]
    cases he : k.eats r with
    | true => rwa [k.body_eats r he] at hr
    | false => exact Nat.le_trans (Nat.le_add_right _ _) hr
  | seqFail => rintro d ns ⟨⟩
  | @seq a x y c e _ _ o' _ _ ho ihx ihy =>
    rintro d ns rfl
    obtain ⟨⟨e', ns'⟩, rfl, hd⟩ := Option.map_eq_some_iff.1 ho.symm
    cases hd
    have h₁ := ihx _ _ rfl
    have h₂ := ihy e' ns' rfl
    have h₃ := length_afterLayout g a e
    have h₄ := toNat_or_le (x.eats k.eats) (y.eats k.eats)
    change e'.rest.length + (x.eats k.eats || y.eats k.eats).toNat ≤ _
    omega
  | altLeft _ ih =>
    rintro d ns ⟨⟩
    exact Nat.le_trans (Nat.add_le_add_left (toNat_and_le _ _).1 _) (ih _ _ rfl)
  | altRight _ _ _ ih =>
    rintro d ns rfl
    exact Nat.le_trans (Nat.add_le_add_left (toNat_and_le _ _).2 _) (ih _ _ rfl)
  | @opt a x c o o' _ ho ih =>
    rintro d ns rfl
    cases o' with
    | none => cases ho; simp [Peg.eats]
    | some p =>
      obtain rfl : (d, ns) = p := Option.some.inj ho
      exact Nat.le_trans (Nat.add_le_add_left (Nat.zero_le _) _) (ih _ _ rfl)
  | manyNil => rintro d ns ⟨⟩; simp [Peg.eats]
  | manyLast _ _ ih =>
    rintro d ns ⟨⟩
    exact Nat.le_trans (Nat.add_le_add_left (Nat.zero_le _) _) (ih _ _ rfl)
  | @manyMore a x c e _ _ _ _ _ _ _ ih _ ihm =>
    rintro d ns ⟨⟩
    have h₁ := ih _ _ rfl
    have h₂ := ihm _ _ rfl
    have h₃ := length_afterLayout g a e
    rw [Peg.eats] at h₂ ⊢
    omega
  | peek _ ho =>
    rintro d ns rfl
    obtain ⟨e, he, hd⟩ := Option.map_eq_some_iff.1 ho.symm
    cases hd
    simp [Peg.eats]
  | deny _ ho =>
    rintro d ns rfl
    split at ho <;> cases ho
    simp [Peg.eats]

theorem length_le (k : g.Ranking) (h : g.Parses a x c (some (d, ns))) :
    d.rest.length ≤ c.rest.length :=
  Nat.le_trans (Nat.le_add_right _ _) (k.length_add_eats h d ns rfl)

theorem length_lt (k : g.Ranking) (hx : x.eats k.eats = true)
    (h : g.Parses a x c (some (d, ns))) : d.rest.length < c.rest.length := by
  have := k.length_add_eats h d ns rfl
  rwa [hx] at this

/-! ## Attempts inside attempts -/

variable {p q : Attempt R}

/-- A bound on the nesting of attempts below one, itself included. -/
def weight (k : g.Ranking) (p : Attempt R) : Nat :=
  p.expr.depth k.eats k.rank + k.width * p.place.rest.length

theorem tame_of_asks (k : g.Ranking) (h : g.Asks p q)
    (hp : p.expr.tame k.eats k.rank k.width = true) :
    q.expr.tame k.eats k.rank k.width = true := by
  cases h with
  | @rule _ r => exact k.tame_body r
  | seqLeft | many | manyMore =>
    simp only [Peg.tame, Bool.and_eq_true] at hp
    exact hp.1.1
  | altLeft =>
    simp only [Peg.tame, Bool.and_eq_true] at hp
    exact hp.1
  | seqRight =>
    simp only [Peg.tame, Bool.and_eq_true] at hp
    exact hp.1.2
  | altRight =>
    simp only [Peg.tame, Bool.and_eq_true] at hp
    exact hp.2
  | opt | peek | deny => exact hp

theorem length_le_of_steps (k : g.Ranking) (h : g.Steps a x c d ns) :
    d.rest.length ≤ c.rest.length := by
  induction h with
  | refl => exact Nat.le_refl _
  | step _ hs ih =>
    exact Nat.le_trans (k.length_le hs) (Nat.le_trans (length_afterLayout g a _) ih)

/-- What an attempt asks for is behind a character that was taken, or less deep. -/
theorem falls_of_asks (k : g.Ranking) (h : g.Asks p q)
    (hp : p.expr.tame k.eats k.rank k.width = true) :
    q.place.rest.length < p.place.rest.length ∧ q.expr.depth k.eats k.rank ≤ k.width ∨
      q.place.rest.length ≤ p.place.rest.length ∧
        q.expr.depth k.eats k.rank < p.expr.depth k.eats k.rank := by
  cases h with
  | @rule _ r => exact .inr ⟨Nat.le_refl _, Nat.lt_succ_of_le (k.depth_body r)⟩
  | @seqLeft _ x y =>
    refine .inr ⟨Nat.le_refl _, ?_⟩
    simp only [Peg.depth]
    split <;> omega
  | @seqRight a x y c d h =>
    obtain ⟨ns, h⟩ := h
    simp only [Peg.tame, Bool.and_eq_true, decide_eq_true_eq] at hp
    have hlayout := length_afterLayout g a d
    cases he : x.eats k.eats with
    | true => exact .inl ⟨Nat.lt_of_le_of_lt hlayout (k.length_lt he h), hp.2⟩
    | false =>
      refine .inr ⟨Nat.le_trans hlayout (k.length_le h), ?_⟩
      simp only [Peg.depth, he, Bool.false_eq_true, if_false]
      omega
  | altLeft | altRight =>
    refine .inr ⟨Nat.le_refl _, ?_⟩
    simp only [Peg.depth]
    omega
  | opt | many | peek | deny => exact .inr ⟨Nat.le_refl _, Nat.lt_succ_self _⟩
  | @manyMore a x c d e ns h hs =>
    obtain ⟨ns', h⟩ := h
    simp only [Peg.tame, Bool.and_eq_true, decide_eq_true_eq] at hp
    have hsteps := Nat.le_trans (length_afterLayout g a e) (k.length_le_of_steps hs)
    exact .inl ⟨Nat.lt_of_le_of_lt hsteps (k.length_lt hp.1.2 h), hp.2⟩

theorem weight_lt (k : g.Ranking) (h : g.Asks p q)
    (hp : p.expr.tame k.eats k.rank k.width = true) : k.weight q < k.weight p := by
  unfold weight
  rcases k.falls_of_asks h hp with ⟨hlt, hd⟩ | ⟨hle, hd⟩
  · have hw := Nat.mul_le_mul_left k.width (Nat.succ_le_of_lt hlt)
    rw [Nat.mul_succ] at hw
    have hpos := p.expr.depth_pos k.eats k.rank
    omega
  · have hw := Nat.mul_le_mul_left k.width hle
    omega

/-! ## Runs with enough fuel -/

/-- A repetition comes to its end when its steps do and take characters; `P` holds of the places
where it is tried to go on. -/
theorem found_repeatMore {step : Cursor → Furthest R → Verdict R} {P : Cursor → Prop}
    (hstep : ∀ c f, P c → (step c f).found? ≠ none)
    (hnext : ∀ c f d ns f', P c → step c f = .matched d ns f' →
      P d ∧ d.rest.length < c.rest.length)
    {n : Nat} {done : List (Node R)} {f : Furthest R} (hc : P c) (hn : c.rest.length < n) :
    (repeatMore step n c done f).found? ≠ none := by
  induction n generalizing c done f with
  | zero => omega
  | succ n ih =>
    rw [repeatMore]
    cases hs : step c f with
    | matched d ns f' =>
      obtain ⟨hd, hlt⟩ := hnext _ _ _ _ _ hc hs
      exact ih hd (by omega)
    | failed f' => simp [Verdict.found?]
    | exhausted => exact absurd (by rw [hs]; rfl) (hstep c f hc)

/-- A run ends if those for the attempts it asks for end with less fuel, and there is enough for the
steps of a repetition. -/
theorem found_run_succ (k : g.Ranking) {n : Nat} {m : Mode} {f : Furthest R}
    (hx : x.tame k.eats k.rank k.width = true) (hn : k.width * c.rest.length ≤ n)
    (h : ∀ (m' : Mode) y d f, g.Asks ⟨m.atomic, x, c⟩ ⟨m'.atomic, y, d⟩ →
      (g.run n m' y d f).found? ≠ none) : (g.run (n + 1) m x c f).found? ≠ none := by
  cases x with
  | text s | char p | start | stop => rw [run, found?_ofCursor?]; simp
  | rule r =>
    have hb := h { m with atomic := m.atomic || g.atomic r } _ c f .rule
    rw [run]
    cases hr : g.run n { m with atomic := m.atomic || g.atomic r } (g.body r) c f with
    | matched | failed => simp [Verdict.found?]
    | exhausted => rw [hr] at hb; exact absurd rfl hb
  | seq x y =>
    rw [run]
    refine Verdict.found?_andThen (h m x c f .seqLeft) fun d ns f' hr => ?_
    have hp : g.Parses m.atomic x c (some (d, ns)) := parses_of_run (by rw [hr]; rfl)
    exact Verdict.found?_andThen (h m y _ f' (.seqRight ⟨ns, hp⟩))
      fun _ _ _ _ => Option.some_ne_none _
  | alt x y =>
    rw [run]
    refine Verdict.found?_orElse (h m x c f .altLeft) fun f' hr => ?_
    exact h m y c f' (.altRight (parses_of_run (by rw [hr]; rfl)))
  | opt x =>
    rw [run]
    exact Verdict.found?_orElse (h m x c f .opt) fun _ _ => Option.some_ne_none _
  | many x =>
    simp only [Peg.tame, Bool.and_eq_true, decide_eq_true_eq] at hx
    have hfirst := h m x c f .many
    rw [run]
    cases hr : g.run n m x c f with
    | matched d ns f' =>
      have hd : g.Parses m.atomic x c (some (d, ns)) := parses_of_run (by rw [hr]; rfl)
      refine found_repeatMore (P := fun e => ∃ ns, g.Steps m.atomic x d e ns) ?_ ?_ ⟨[], .refl⟩ ?_
      · rintro e f ⟨ns, he⟩
        exact h m x _ f (.manyMore ⟨_, hd⟩ he)
      · rintro e f e' ns₁ f' ⟨ns, he⟩ hs
        have he' : g.Parses m.atomic x (g.afterLayout m.atomic e) (some (e', ns₁)) :=
          parses_of_run (m := m) (by rw [← skip_eq, hs]; rfl)
        exact ⟨⟨_, he.step he'⟩,
          Nat.lt_of_lt_of_le (k.length_lt hx.1.2 he') (length_afterLayout g m.atomic e)⟩
      · have hlt := k.length_lt hx.1.2 hd
        have hpos := x.depth_pos k.eats k.rank
        have hw := Nat.le_mul_of_pos_left c.rest.length (Nat.lt_of_lt_of_le hpos hx.2)
        omega
    | failed => simp [Verdict.found?]
    | exhausted => rw [hr] at hfirst; exact absurd rfl hfirst
  | peek x =>
    rw [run]
    exact Verdict.found?_andThen (h { m with look := m.look.peek } x c f .peek)
      fun _ _ _ _ => Option.some_ne_none _
  | deny x =>
    have hx' := h { m with look := m.look.deny } x c f .deny
    rw [run]
    cases hr : g.run n { m with look := m.look.deny } x c f with
    | matched | failed => simp [Verdict.found?]
    | exhausted => rw [hr] at hx'; exact absurd rfl hx'

/-- **Enough fuel**: a run ends whose fuel exceeds the depth of its expression by the width for
every character of the text. -/
theorem found_run (k : g.Ranking) {n : Nat} {m : Mode} {f : Furthest R}
    (hx : x.tame k.eats k.rank k.width = true)
    (hn : x.depth k.eats k.rank + k.width * c.rest.length ≤ n) :
    (g.run n m x c f).found? ≠ none := by
  have hpos := x.depth_pos k.eats k.rank
  induction n generalizing m x c f with
  | zero => omega
  | succ n ih =>
    refine k.found_run_succ hx (by omega) fun m' y d f h => ?_
    have hlt : k.weight ⟨m'.atomic, y, d⟩ < k.weight ⟨m.atomic, x, c⟩ := k.weight_lt h hx
    simp only [weight] at hlt
    exact ih (k.tame_of_asks h hx) (by omega) (y.depth_pos k.eats k.rank)

/-- An expression finds something at every place. -/
theorem exists_parses (k : g.Ranking) (a : Bool) (hx : x.tame k.eats k.rank k.width = true)
    (c : Cursor) : ∃ o, g.Parses a x c o := by
  have h := k.found_run (m := ⟨a, .off⟩) (f := .initial) hx (Nat.le_refl _) (c := c)
  obtain ⟨o, ho⟩ := Option.ne_none_iff_exists'.1 h
  exact ⟨o, parses_of_run ho⟩

end Grammar.Ranking

end IntScript
