import IntScript.Proofs.Peg.Attempts
import IntScript.Proofs.Peg.Fuel

/-!
# What attempts tell

What is known of the attempts at the rules, where rules are wanted and layout counts, says what an
attempt at an expression comes to and reports.

* `Furthest.listed n rs` : the record of rules that were tried at the place `n`;
* `Furthest.Absorbs` : a record that lists whatever the other one does;
* `Grammar.Rounds` : the steps of a repetition, with what they report;
* `Grammar.Tells g Φ x c o t` : what an attempt at `x` consists of, when one at a rule is in `Φ`;
* `Tries.tells` : if `Φ` follows for each rule from what its body tells, then it tells the truth;
* `Tells.text_seq`, `Tells.seq_text` : a text with something behind or in front of it;
* `Parses.advance_eq`, `Ranking.lt_offset` : a match goes on in the text.
-/

namespace IntScript

variable {R : Type}

namespace Furthest

variable {t t' : Furthest R} {n : Nat} {r : R} {rs rs' : List R}

/-! ## Listings -/

/-- The record of the rules `rs`, which were tried at the place `n`. -/
def listed (n : Nat) (rs : List R) : Furthest R := ⟨n, rs, []⟩

theorem listed_join_listed (n : Nat) (rs rs' : List R) :
    (listed n rs).join (listed n rs') = listed n (rs ++ rs') := join_of_eq rfl

theorem ofRule_of_lt (h : n < t.offset) : t.ofRule false false n r false = t := report_of_lt h

theorem ofRule_initial (n : Nat) (r : R) :
    (initial : Furthest R).ofRule false false n r false = listed n [r] := by
  change initial.report initial n r false = _
  rw [initial_report (.inl rfl), countAt_initial, if_neg (by simp [initial])]
  rfl

/-- A rule stands for what is tried inside it at its beginning, unless that is one rule. -/
theorem ofRule_listed (n : Nat) (r : R) (rs : List R) :
    (listed n rs).ofRule false false n r false =
      if rs.length = 1 then listed n rs else listed n [r] := by
  change initial.report (listed n rs) n r false = _
  rw [initial_report (.inr (Nat.le_refl n)), countAt_of_eq (show (listed n rs).offset = n from rfl)]
  simp only [listed, Nat.lt_irrefl, false_or, List.length_nil, Nat.add_zero]
  rfl

theorem ofRule_one (n : Nat) (r r' : R) :
    (listed n [r']).ofRule false false n r false = listed n [r'] := ofRule_listed n r [r']

/-! ## Absorption -/

/-- The record lists whatever the other one does: that lies further back, or it lists no other
rules. -/
def Absorbs (t t' : Furthest R) : Prop :=
  t'.offset < t.offset ∨ t'.offset = t.offset ∧ t'.expected ⊆ t.expected

theorem Absorbs.refl (t : Furthest R) : t.Absorbs t := .inr ⟨rfl, List.Subset.refl _⟩

theorem absorbs_join_left (t t' : Furthest R) : (t.join t').Absorbs t := by
  rcases Nat.lt_trichotomy t.offset t'.offset with h | h | h
  · rw [join_of_lt h]
    exact .inl h
  · rw [join_of_eq h]
    exact .inr ⟨rfl, List.subset_append_left _ _⟩
  · rw [join_of_gt h]
    exact .refl t

/-- What is absorbed changes neither the place nor what is listed there. -/
theorem Absorbs.join (h : t.Absorbs t') :
    (t.join t').offset = t.offset ∧ ∀ r, r ∈ (t.join t').expected ↔ r ∈ t.expected := by
  rcases h with h | ⟨h, hs⟩
  · rw [join_of_gt h]
    exact ⟨rfl, fun _ => .rfl⟩
  · rw [join_of_eq h.symm]
    refine ⟨rfl, fun r => ?_⟩
    rw [List.mem_append, or_iff_left_of_imp fun hr => hs hr]

end Furthest

namespace Grammar

variable {g : Grammar R} {Φ : R → Cursor → Option Cursor → Furthest R → Prop} {a u : Bool}
  {x y : Peg R} {c d e : Cursor} {o : Option Cursor} {t t' : Furthest R} {s : List Char}
  {ns : List (Node R)}

/-! ## Expressions -/

/-- The steps of a repetition up to the place where the last one fails, and what they report. -/
inductive Rounds (g : Grammar R) (step : Cursor → Option Cursor → Furthest R → Prop) :
    Cursor → Cursor → Furthest R → Prop where
  | stop {c : Cursor} {t : Furthest R} (h : step c none t) : Rounds g step c c t
  | go {c d e : Cursor} {t t' : Furthest R} (h : step c (some d) t)
    (hm : Rounds g step (g.afterLayout false d) e t') : Rounds g step c e (t.join t')

/-- What an attempt at an expression consists of, when each attempt at a rule is in `Φ`. A
repetition gives back the layout in front of its last step, unless it takes none. -/
def Tells (g : Grammar R) (Φ : R → Cursor → Option Cursor → Furthest R → Prop) :
    Peg R → Cursor → Option Cursor → Furthest R → Prop
  | .text s, c, o, t => o = c.pass? s ∧ t = .initial
  | .char p, c, o, t => o = c.passIf? p ∧ t = .initial
  | .start, c, o, t => o = (if c.offset = 0 then some c else none) ∧ t = .initial
  | .stop, c, o, t => o = (if c.rest.isEmpty then some c else none) ∧ t = .initial
  | .rule r, c, o, t => Φ r c o t
  | .seq x y, c, o, t => o = none ∧ Tells g Φ x c none t ∨ ∃ d t₁ t₂, Tells g Φ x c (some d) t₁ ∧
      Tells g Φ y (g.afterLayout false d) o t₂ ∧ t = t₁.join t₂
  | .alt x y, c, o, t => (∃ d, o = some d ∧ Tells g Φ x c (some d) t) ∨
      ∃ t₁ t₂, Tells g Φ x c none t₁ ∧ Tells g Φ y c o t₂ ∧ t = t₁.join t₂
  | .opt x, c, o, t => ∃ p, Tells g Φ x c p t ∧ o = some (p.getD c)
  | .many x, c, o, t => ∃ d d', Rounds g (fun c o t => Tells g Φ x c o t ∧
      ∀ d, o = some d → g.Reaches false x c d) c d' t ∧ o = some d ∧
      (d' = g.afterLayout false d ∨ d = c ∧ d' = c)
  | .peek x, c, o, t => ∃ p, Tells g Φ x c p t ∧ o = p.map fun _ => c
  | .deny x, c, o, t => (x.noRules = true → t = .initial) ∧
      ∃ p, g.Parses false x c p ∧ o = if p.isSome then none else some c

/-- The steps of a repetition of `x` from one place to another. -/
abbrev Repeats (g : Grammar R) (Φ : R → Cursor → Option Cursor → Furthest R → Prop) (x : Peg R) :
    Cursor → Cursor → Furthest R → Prop :=
  Rounds g fun c o t => g.Tells Φ x c o t ∧ ∀ d, o = some d → g.Reaches false x c d

/-- What holds of each rule, because of what its body tells, holds of every attempt. -/
theorem Tries.tells
    (hlayout : ∀ c, g.afterLayout false (g.afterLayout false c) = g.afterLayout false c)
    (hΦ : ∀ r c o t, g.Tries false false (.rule r) c o (t.ofRule false false c.offset r o.isSome) →
      (g.atomic r = false → g.Tells Φ (g.body r) c o t) →
      Φ r c o (t.ofRule false false c.offset r o.isSome))
    (h : g.Tries a u x c o t) (ha : a = false) (hu : u = false) : g.Tells Φ x c o t := by
  induction h with
  | text ho | char ho | start ho | stop ho => exact ⟨ho, rfl⟩
  | @rule _ _ r _ _ t _ h ht ih =>
    subst ha hu ht
    refine hΦ r _ _ t (.rule h rfl) fun hr => ih ?_ rfl
    rw [hr]
    rfl
  | seqFail _ ih => exact .inl ⟨rfl, ih ha hu⟩
  | seq _ _ ihx ihy =>
    subst ha
    exact .inr ⟨_, _, _, ihx rfl hu, ihy rfl hu, rfl⟩
  | altLeft _ ih => exact .inl ⟨_, rfl, ih ha hu⟩
  | altRight _ _ ihx ihy => exact .inr ⟨_, _, ihx ha hu, ihy ha hu, rfl⟩
  | opt _ ho ih | peek _ ho ih => exact ⟨_, ih ha hu, ho⟩
  | manyNil _ ih => exact ⟨_, _, .stop ⟨ih ha hu, nofun⟩, rfl, .inr ⟨rfl, rfl⟩⟩
  | manyLast h _ ih ihd =>
    subst ha
    exact ⟨_, _, .go ⟨ih rfl hu, fun d hd => Option.some.inj hd ▸ h.reaches⟩
      (.stop ⟨ihd rfl hu, nofun⟩), rfl, .inl rfl⟩
  | manyMore h _ _ ih _ ihm =>
    subst ha
    obtain ⟨d, d', hm, hd, hd'⟩ := ihm rfl hu
    refine ⟨d, d', .go ⟨ih rfl hu, fun d hd => Option.some.inj hd ▸ h.reaches⟩ hm, hd, .inl ?_⟩
    rcases hd' with hd' | ⟨rfl, rfl⟩
    · exact hd'
    · exact (hlayout _).symm
  | @deny _ _ x c _ _ _ h ho ih =>
    subst ha
    obtain ⟨p, hp, rfl⟩ := h.parses
    exact ⟨fun hx => h.eq_initial_of_noRules hx, p, hp, by rw [ho, Option.isSome_map]⟩

namespace Tells

/-- A text and something behind it. -/
theorem text_seq (h : g.Tells Φ (.seq (.text s) y) c o t) :
    c.pass? s = none ∧ o = none ∧ t = .initial ∨
      ∃ d, c.pass? s = some d ∧ g.Tells Φ y (g.afterLayout false d) o t := by
  rcases h with ⟨rfl, ho, rfl⟩ | ⟨d, t₁, t₂, ⟨ho, rfl⟩, hy, rfl⟩
  · exact .inl ⟨ho.symm, rfl, rfl⟩
  · exact .inr ⟨d, ho.symm, by rwa [Furthest.initial_join]⟩

/-- Something with a text behind it. -/
theorem seq_text (h : g.Tells Φ (.seq x (.text s)) c o t) :
    o = none ∧ g.Tells Φ x c none t ∨
      ∃ d, g.Tells Φ x c (some d) t ∧ o = (g.afterLayout false d).pass? s := by
  rcases h with h | ⟨d, t₁, t₂, hx, ⟨ho, rfl⟩, rfl⟩
  · exact .inl h
  · exact .inr ⟨d, by rwa [Furthest.join_initial], ho⟩

end Tells

/-! ## Places -/

/-- A match goes on in the text. -/
theorem Parses.advance_eq {p : Found R} (h : g.Parses a x c p) :
    ∀ d ns, p = some (d, ns) → ∃ n, d = c.advance n := by
  have hadd : ∀ {c d e : Cursor} {a : Bool}, (∃ n, d = c.advance n) →
      (∃ n, e = (g.afterLayout a d).advance n) → ∃ n, e = c.advance n := by
    rintro c _ _ a ⟨n, rfl⟩ ⟨m, rfl⟩
    obtain ⟨k, hk⟩ := g.exists_afterLayout_advance a c n
    exact ⟨n + k + m, by rw [hk, Cursor.advance_advance]⟩
  induction h with
  | text ho =>
    rintro d ns rfl
    obtain ⟨e, he, hd⟩ := Option.map_eq_some_iff.1 ho.symm
    cases hd
    simp only [Cursor.pass?] at he
    split at he
    · cases he
      exact ⟨_, rfl⟩
    · cases he
  | char ho =>
    rintro d ns rfl
    obtain ⟨e, he, hd⟩ := Option.map_eq_some_iff.1 ho.symm
    cases hd
    simp only [Cursor.passIf?] at he
    split at he
    · cases he
    · split at he <;> cases he
      exact ⟨1, rfl⟩
  | start ho | stop ho =>
    rintro d ns rfl
    split at ho <;> cases ho
    exact ⟨0, rfl⟩
  | rule _ ho ih =>
    rintro d ns rfl
    obtain ⟨⟨e, ns'⟩, rfl, hd⟩ := Option.map_eq_some_iff.1 ho.symm
    cases hd
    exact ih e ns' rfl
  | seqFail => rintro d ns ⟨⟩
  | seq _ _ ho ihx ihy =>
    rintro d ns rfl
    obtain ⟨⟨e, ns'⟩, rfl, hd⟩ := Option.map_eq_some_iff.1 ho.symm
    cases hd
    exact hadd (ihx _ _ rfl) (ihy e ns' rfl)
  | altLeft _ ih => exact ih
  | altRight _ _ _ ih => exact ih
  | @opt _ _ _ _ p _ ho ih =>
    rintro d ns rfl
    cases p with
    | none => cases ho; exact ⟨0, rfl⟩
    | some p => cases ho; exact ih _ _ rfl
  | manyNil => rintro d ns ⟨⟩; exact ⟨0, rfl⟩
  | manyLast _ _ ih => exact ih
  | manyMore _ _ _ ih _ ihm =>
    rintro d ns ⟨⟩
    exact hadd (ih _ _ rfl) (ihm _ _ rfl)
  | peek _ ho =>
    rintro d ns rfl
    obtain ⟨e, -, hd⟩ := Option.map_eq_some_iff.1 ho.symm
    cases hd
    exact ⟨0, rfl⟩
  | deny _ ho =>
    rintro d ns rfl
    split at ho <;> cases ho
    exact ⟨0, rfl⟩

/-- A repetition does not go back. -/
theorem Rounds.le_offset (h : g.Repeats Φ x c e t) : c.offset ≤ e.offset := by
  induction h with
  | stop => exact Nat.le_refl _
  | @go c d _ _ _ h _ ih =>
    obtain ⟨ns, hd⟩ := h.2 d rfl
    obtain ⟨n, rfl⟩ := hd.advance_eq d ns rfl
    have hlayout := g.offset_afterLayout false (c.advance n)
    exact Nat.le_trans (Nat.le_add_right c.offset n) (Nat.le_trans hlayout ih)

/-- A match that takes characters ends behind its beginning. -/
theorem Ranking.lt_offset (k : g.Ranking) (hx : x.eats k.eats = true)
    (h : g.Reaches a x c d) : c.offset < d.offset := by
  obtain ⟨ns, h⟩ := h
  have hlt := k.length_lt hx h
  obtain ⟨n, rfl⟩ := h.advance_eq _ _ rfl
  cases n with
  | zero => exact absurd hlt (Nat.lt_irrefl _)
  | succ n => exact Nat.lt_add_of_pos_right (Nat.succ_pos n)

end Grammar

end IntScript
