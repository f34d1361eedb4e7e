import IntScript.Proofs.Peg.Parses

/-!
# What an attempt reports by itself

A match starts with the record of the attempts before it. What it adds does not depend on them: the
record at its end is that at its beginning, joined with the one it would have left alone.

* `Furthest.join` : the record of one attempt after another; `Furthest.join_assoc`;
* `Furthest.Behind n t` : nothing is reported in front of the place `n`;
* `Furthest.initial_report`, `Furthest.report_join` : what the report of a rule adds;
* `Grammar.Tries g a u x c o t` : an attempt at `x` from the place `c` comes to `o` and reports `t`;
* `Tries.unique`, `Tries.parses`, `Tries.le_offset` : it is one attempt, finds what the expression
  does, and reports nothing in front of its place;
* `Grammar.tries_of_run` : a run is such an attempt.
-/

namespace IntScript

variable {R : Type}

/-- The expression names no rule. -/
def Peg.noRules : Peg R → Bool
  | .text _ | .char _ | .start | .stop => true
  | .rule _ => false
  | .seq x y | .alt x y => x.noRules && y.noRules
  | .opt x | .many x | .peek x | .deny x => x.noRules

namespace Furthest

/-! ## Records after one another -/

/-- The record `f`, after an attempt that alone leaves the record `t`. -/
def join (f t : Furthest R) : Furthest R :=
  if f.offset < t.offset then t
  else if t.offset < f.offset then f
  else ⟨f.offset, f.expected ++ t.expected, f.unexpected ++ t.unexpected⟩

variable {f t t' : Furthest R} {n m : Nat} {r : R} {u : Bool}

theorem join_of_lt (h : f.offset < t.offset) : f.join t = t := if_pos h

theorem join_of_gt (h : t.offset < f.offset) : f.join t = f := by
  rw [join, if_neg (by omega), if_pos h]

theorem join_of_eq (h : f.offset = t.offset) :
    f.join t = ⟨f.offset, f.expected ++ t.expected, f.unexpected ++ t.unexpected⟩ := by
  rw [join, if_neg (by omega), if_neg (by omega)]

@[simp] theorem join_initial (f : Furthest R) : f.join .initial = f := by
  rcases Nat.eq_zero_or_pos f.offset with h | h
  · rw [join_of_eq h]
    simp [initial]
  · exact join_of_gt h

@[simp] theorem initial_join (t : Furthest R) : initial.join t = t := by
  rcases Nat.eq_zero_or_pos t.offset with h | h
  · rw [join_of_eq h.symm]
    simp [initial, ← h]
  · exact join_of_lt h

theorem offset_join (f t : Furthest R) : (f.join t).offset = max f.offset t.offset := by
  rcases Nat.lt_trichotomy f.offset t.offset with h | h | h
  · rw [join_of_lt h, Nat.max_eq_right (Nat.le_of_lt h)]
  · rw [join_of_eq h, h, Nat.max_self]
  · rw [join_of_gt h, Nat.max_eq_left (Nat.le_of_lt h)]

theorem join_assoc (f t t' : Furthest R) : (f.join t).join t' = f.join (t.join t') := by
  rcases Nat.lt_trichotomy f.offset t.offset with h | h | h <;>
    rcases Nat.lt_trichotomy t.offset t'.offset with h' | h' | h'
  · rw [join_of_lt h, join_of_lt h', join_of_lt (Nat.lt_trans h h')]
  · rw [join_of_lt h, join_of_eq h', join_of_lt (by exact h)]
  · rw [join_of_lt h, join_of_gt h', join_of_lt h]
  · rw [join_of_lt h', join_of_eq h, join_of_lt (h ▸ h'), join_of_lt (by exact h ▸ h')]
  · rw [join_of_eq h, join_of_eq h', join_of_eq (by exact h.trans h'), join_of_eq (by exact h)]
    simp
  · rw [join_of_gt h', join_of_eq h, join_of_gt (by exact h ▸ h')]
  · rw [join_of_gt h, join_of_lt h']
  · rw [join_of_gt h, join_of_eq h', join_of_gt (by omega), join_of_gt (by exact h)]
  · rw [join_of_gt h, join_of_gt h', join_of_gt h, join_of_gt (Nat.lt_trans h' h)]

/-! ## Reports after one another -/

/-- Nothing is reported in front of the place `n`. -/
def Behind (n : Nat) (t : Furthest R) : Prop := t = .initial ∨ n ≤ t.offset

theorem Behind.mono (h : t.Behind n) (hm : m ≤ n) : t.Behind m := h.imp_right (Nat.le_trans hm)

theorem Behind.join (h : t.Behind n) (h' : t'.Behind n) : (t.join t').Behind n := by
  rcases h with rfl | h
  · rwa [initial_join]
  · exact .inr (by rw [offset_join]; omega)

theorem countAt_of_ne (h : f.offset ≠ n) : f.countAt n = 0 := if_neg h

theorem countAt_of_eq (h : f.offset = n) :
    f.countAt n = f.expected.length + f.unexpected.length := if_pos h

theorem countAt_initial (n : Nat) : (initial : Furthest R).countAt n = 0 := by
  unfold countAt
  split <;> rfl

/-- The record of one rule that was tried at a place. -/
def single (n : Nat) (r : R) (u : Bool) : Furthest R := (⟨n, [], []⟩ : Furthest R).add r u

theorem offset_single (n : Nat) (r : R) (u : Bool) : (single n r u).offset = n := by
  cases u <;> rfl

/-- Adding a rule is joining its record. -/
theorem add_eq_join (f : Furthest R) (r : R) (u : Bool) :
    f.add r u = f.join (single f.offset r u) := by
  rw [join_of_eq (offset_single _ r u).symm]
  cases u <;> simp [add, single]

/-- What lies further on is kept. -/
theorem report_of_lt (h : n < t.offset) : f.report t n r u = t := by
  rw [report, countAt_of_ne (by omega), if_neg (by omega), if_neg (by omega), if_neg (by omega)]

/-- A report keeps what lies further on, and a single entry for its place; it takes the place of
anything else. -/
theorem initial_report (h : t.Behind n) : initial.report t n r u =
    if n < t.offset ∨ t.countAt n = 1 then t else single n r u := by
  by_cases hn : n < t.offset
  · rw [report_of_lt hn, if_pos (.inl hn)]
  rw [report, countAt_initial, Nat.zero_add]
  by_cases hcount : t.countAt n = 1
  · rw [if_pos hcount, if_pos (.inr hcount)]
  rw [if_neg hcount, if_neg (not_or.2 ⟨hn, hcount⟩)]
  by_cases ht : t.offset = n
  · subst ht
    rw [if_pos rfl, since]
    split <;> simp [initial, single]
  · rw [if_neg ht, if_pos (by omega), single]

theorem Behind.report (h : t.Behind n) : (initial.report t n r u).Behind n := by
  rw [initial_report h]
  split
  · exact h
  · exact .inr (Nat.le_of_eq (offset_single n r u).symm)

/-- What a report adds does not depend on the record at the beginning. -/
theorem report_join (h : t.Behind n) :
    f.report (f.join t) n r u = f.join (initial.report t n r u) := by
  rw [initial_report h]
  by_cases ht : n < t.offset
  · rw [if_pos (.inl ht), report_of_lt (by rw [offset_join]; omega)]
  by_cases hf : n < f.offset
  · rw [report_of_lt (by rw [offset_join]; omega), join_of_gt (t := t) (by omega)]
    split
    · rw [join_of_gt (by omega)]
    · rw [join_of_gt (by rwa [offset_single])]
  -- the record is at most as far as the place, and what is joined says nothing or is there
  rcases h with rfl | h
  · rw [join_initial, countAt_initial, if_neg (by simp [ht]), report, if_neg (by omega)]
    rcases Nat.lt_or_eq_of_le (Nat.le_of_not_lt hf) with hf | rfl
    · rw [if_neg (by omega), if_pos hf, join_of_lt (by rwa [offset_single]), single]
    · rw [if_pos rfl, since, if_pos rfl, List.take_length, List.take_length, add_eq_join]
  · obtain rfl : t.offset = n := by omega
    rw [report]
    rcases Nat.lt_or_eq_of_le (Nat.le_of_not_lt hf) with hf | hf
    · rw [join_of_lt hf, countAt_of_ne (f := f) (by omega), Nat.zero_add]
      by_cases hcount : t.countAt t.offset = 1
      · rw [if_pos hcount, if_pos (.inr hcount), join_of_lt hf]
      · rw [if_neg hcount, if_pos rfl, if_neg (by simp [hcount]), since, if_neg (by omega),
          join_of_lt (by rwa [offset_single]), single]
    · have hcount : (f.join t).countAt t.offset = f.countAt t.offset + t.countAt t.offset := by
        rw [join_of_eq hf, countAt_of_eq (by exact hf), countAt_of_eq hf, countAt_of_eq rfl,
          List.length_append, List.length_append]
        omega
      have hsince : f.since (f.join t) t.offset = f := by
        rw [join_of_eq hf, since, if_pos hf, List.take_left' rfl, List.take_left' rfl]
      rw [hcount, hsince]
      by_cases hone : t.countAt t.offset = 1
      · rw [if_pos (by omega), if_pos (.inr hone)]
      · rw [if_neg (by omega), if_pos (by rw [offset_join]; omega), if_neg (by simp [hone]),
          add_eq_join, hf]

/-- What an attempt at a rule reports, when that at its body reports `t`. -/
def ofRule (t : Furthest R) (atomic unwanted : Bool) (n : Nat) (r : R) (matched : Bool) :
    Furthest R :=
  if atomic then t
  else if matched = unwanted then initial.report t n r matched
  else t

theorem Behind.ofRule {a u matched : Bool} (h : t.Behind n) :
    (t.ofRule a u n r matched).Behind n := by
  unfold Furthest.ofRule
  split
  · exact h
  · split
    · exact h.report
    · exact h

/-- What a rule adds does not depend on the record at the beginning. -/
theorem mode_report_join {md : Mode} {matched : Bool} (h : t.Behind n) :
    md.report f (f.join t) n r matched =
      f.join (t.ofRule md.atomic (md.look = .negative) n r matched) := by
  have hcond : ((matched = true) = (md.look = .negative)) ↔
      matched = decide (md.look = .negative) := by
    cases matched <;> simp
  unfold Mode.report Furthest.ofRule
  simp only [hcond]
  split
  · rfl
  · split
    · exact report_join h
    · rfl

end Furthest

/-! ## Attempts -/

/-- The place where an attempt has come to, if it has not failed, and the record at its end; nothing
is known for want of fuel. -/
def Verdict.ended? : Verdict R → Option (Option Cursor × Furthest R)
  | .matched c _ f => some (some c, f)
  | .failed f => some (none, f)
  | .exhausted => none

namespace Grammar

/-- An attempt at an expression, outside or inside an atomic rule, where rules are wanted or
unwanted: the place it comes to, unless it fails, and what it reports by itself. -/
inductive Tries (g : Grammar R) :
    Bool → Bool → Peg R → Cursor → Option Cursor → Furthest R → Prop where
  | text {a u : Bool} {s : List Char} {c : Cursor} {o : Option Cursor} (ho : o = c.pass? s) :
    Tries g a u (.text s) c o .initial
  | char {a u : Bool} {p : Char → Bool} {c : Cursor} {o : Option Cursor} (ho : o = c.passIf? p) :
    Tries g a u (.char p) c o .initial
  | start {a u : Bool} {c : Cursor} {o : Option Cursor}
    (ho : o = if c.offset = 0 then some c else none) : Tries g a u .start c o .initial
  | stop {a u : Bool} {c : Cursor} {o : Option Cursor}
    (ho : o = if c.rest.isEmpty then some c else none) : Tries g a u .stop c o .initial
  | rule {a u : Bool} {r : R} {c : Cursor} {o : Option Cursor} {t t' : Furthest R}
    (h : Tries g (a || g.atomic r) u (g.body r) c o t)
    (ht : t' = t.ofRule a u c.offset r o.isSome) : Tries g a u (.rule r) c o t'
  | seqFail {a u : Bool} {x y : Peg R} {c : Cursor} {t : Furthest R}
    (hx : Tries g a u x c none t) : Tries g a u (.seq x y) c none t
  | seq {a u : Bool} {x y : Peg R} {c d : Cursor} {o : Option Cursor} {t t' : Furthest R}
    (hx : Tries g a u x c (some d) t) (hy : Tries g a u y (g.afterLayout a d) o t') :
    Tries g a u (.seq x y) c o (t.join t')
  | altLeft {a u : Bool} {x y : Peg R} {c d : Cursor} {t : Furthest R}
    (hx : Tries g a u x c (some d) t) : Tries g a u (.alt x y) c (some d) t
  | altRight {a u : Bool} {x y : Peg R} {c : Cursor} {o : Option Cursor} {t t' : Furthest R}
    (hx : Tries g a u x c none t) (hy : Tries g a u y c o t') :
    Tries g a u (.alt x y) c o (t.join t')
  | opt {a u : Bool} {x : Peg R} {c : Cursor} {o p : Option Cursor} {t : Furthest R}
    (h : Tries g a u x c p t) (ho : o = some (p.getD c)) : Tries g a u (.opt x) c o t
  | manyNil {a u : Bool} {x : Peg R} {c : Cursor} {t : Furthest R}
    (h : Tries g a u x c none t) : Tries g a u (.many x) c (some c) t
  | manyLast {a u : Bool} {x : Peg R} {c d : Cursor} {t t' : Furthest R}
    (h : Tries g a u x c (some d) t) (hd : Tries g a u x (g.afterLayout a d) none t') :
    Tries g a u (.many x) c (some d) (t.join t')
  | manyMore {a u : Bool} {x : Peg R} {c d d' e : Cursor} {t t₁ t' : Furthest R}
    (h : Tries g a u x c (some d) t) (hd : Tries g a u x (g.afterLayout a d) (some d') t₁)
    (hm : Tries g a u (.many x) (g.afterLayout a d) (some e) t') :
    Tries g a u (.many x) c (some e) (t.join t')
  | peek {a u : Bool} {x : Peg R} {c : Cursor} {o p : Option Cursor} {t : Furthest R}
    (h : Tries g a u x c p t) (ho : o = p.map fun _ => c) : Tries g a u (.peek x) c o t
  | deny {a u : Bool} {x : Peg R} {c : Cursor} {o p : Option Cursor} {t : Furthest R}
    (h : Tries g a (!u) x c p t) (ho : o = if p.isSome then none else some c) :
    Tries g a u (.deny x) c o t

variable {g : Grammar R} {a u : Bool} {x y : Peg R} {c d e : Cursor} {o : Option Cursor}
  {t t' : Furthest R} {r : R}

/-- An attempt finds what the expression finds. -/
theorem Tries.parses (h : g.Tries a u x c o t) : ∃ p, g.Parses a x c p ∧ p.map Prod.fst = o := by
  induction h with
  | @text _ _ _ c o ho => exact ⟨_, .text rfl, by cases o <;> simp [← ho]⟩
  | @char _ _ _ c o ho => exact ⟨_, .char rfl, by cases o <;> simp [← ho]⟩
  | start ho | stop ho =>
    refine ⟨_, by constructor; rfl, ?_⟩
    rw [ho]
    split <;> rfl
  | rule _ _ ih =>
    obtain ⟨p, hp, rfl⟩ := ih
    exact ⟨_, .rule hp rfl, by simp [wrap, Function.comp_def]⟩
  | seqFail _ ih =>
    obtain ⟨p, hp, hn⟩ := ih
    obtain rfl := Option.map_eq_none_iff.1 hn
    exact ⟨_, .seqFail hp, rfl⟩
  | seq _ _ ihx ihy =>
    obtain ⟨p, hp, hd⟩ := ihx
    obtain ⟨⟨d, ns⟩, rfl, rfl⟩ := Option.map_eq_some_iff.1 hd
    obtain ⟨q, hq, rfl⟩ := ihy
    exact ⟨_, .seq hp hq rfl, by simp [Function.comp_def]⟩
  | altLeft _ ih =>
    obtain ⟨p, hp, hd⟩ := ih
    obtain ⟨q, rfl, rfl⟩ := Option.map_eq_some_iff.1 hd
    exact ⟨_, .altLeft hp, rfl⟩
  | altRight _ _ ihx ihy =>
    obtain ⟨p, hp, hn⟩ := ihx
    obtain rfl := Option.map_eq_none_iff.1 hn
    obtain ⟨q, hq, rfl⟩ := ihy
    exact ⟨_, .altRight hp hq, rfl⟩
  | opt _ ho ih =>
    obtain ⟨p, hp, rfl⟩ := ih
    exact ⟨_, .opt hp rfl, by rw [ho]; cases p <;> rfl⟩
  | manyNil _ ih =>
    obtain ⟨p, hp, hn⟩ := ih
    obtain rfl := Option.map_eq_none_iff.1 hn
    exact ⟨_, .manyNil hp, rfl⟩
  | manyLast _ _ ih ihd =>
    obtain ⟨p, hp, hd⟩ := ih
    obtain ⟨⟨d, ns⟩, rfl, rfl⟩ := Option.map_eq_some_iff.1 hd
    obtain ⟨q, hq, hn⟩ := ihd
    obtain rfl := Option.map_eq_none_iff.1 hn
    exact ⟨_, .manyLast hp hq, rfl⟩
  | manyMore _ _ _ ih ihd ihm =>
    obtain ⟨p, hp, hd⟩ := ih
    obtain ⟨⟨d, ns⟩, rfl, rfl⟩ := Option.map_eq_some_iff.1 hd
    obtain ⟨q, hq, hd'⟩ := ihd
    obtain ⟨q, rfl, -⟩ := Option.map_eq_some_iff.1 hd'
    obtain ⟨s, hs, he⟩ := ihm
    obtain ⟨⟨e, ns'⟩, rfl, rfl⟩ := Option.map_eq_some_iff.1 he
    exact ⟨_, .manyMore hp hq hs, rfl⟩
  | peek _ ho ih =>
    obtain ⟨p, hp, rfl⟩ := ih
    exact ⟨_, .peek hp rfl, by rw [ho]; cases p <;> rfl⟩
  | deny _ ho ih =>
    obtain ⟨p, hp, rfl⟩ := ih
    exact ⟨_, .deny hp rfl, by rw [ho]; cases p <;> rfl⟩

theorem Tries.reaches (h : g.Tries a u x c (some d) t) : g.Reaches a x c d := by
  obtain ⟨p, hp, hd⟩ := h.parses
  obtain ⟨⟨d, ns⟩, rfl, rfl⟩ := Option.map_eq_some_iff.1 hd
  exact ⟨ns, hp⟩

theorem Tries.parses_none (h : g.Tries a u x c none t) : g.Parses a x c none := by
  obtain ⟨p, hp, hn⟩ := h.parses
  rwa [Option.map_eq_none_iff.1 hn] at hp

/-- There is one attempt at an expression from a place. -/
theorem Tries.unique {o' : Option Cursor} (h : g.Tries a u x c o t) (h' : g.Tries a u x c o' t') :
    o = o' ∧ t = t' := by
  have hsome : ∀ {a u : Bool} {x : Peg R} {c d : Cursor} {t t' : Furthest R},
      g.Tries a u x c (some d) t → ¬g.Tries a u x c none t' := fun h h' => by
    obtain ⟨ns, hp⟩ := h.reaches
    cases hp.unique h'.parses_none
  induction h generalizing o' t' with
  | text ho | char ho | start ho | stop ho =>
    cases h'
    exact ⟨by simp_all, rfl⟩
  | rule _ ht ih =>
    cases h' with
    | rule h' ht' =>
      obtain ⟨rfl, rfl⟩ := ih h'
      exact ⟨rfl, ht.trans ht'.symm⟩
  | seqFail hx ih =>
    cases h' with
    | seqFail h' => exact ⟨rfl, (ih h').2⟩
    | seq hx' => exact (hsome hx' hx).elim
  | seq hx _ ihx ihy =>
    cases h' with
    | seqFail h' => exact (hsome hx h').elim
    | seq hx' hy' =>
      obtain ⟨hd, rfl⟩ := ihx hx'
      obtain rfl := Option.some.inj hd
      obtain ⟨rfl, rfl⟩ := ihy hy'
      exact ⟨rfl, rfl⟩
  | altLeft hx ih =>
    cases h' with
    | altLeft h' => exact ih h'
    | altRight hx' => exact (hsome hx hx').elim
  | altRight hx _ ihx ihy =>
    cases h' with
    | altLeft h' => exact (hsome h' hx).elim
    | altRight hx' hy' =>
      obtain ⟨-, rfl⟩ := ihx hx'
      obtain ⟨rfl, rfl⟩ := ihy hy'
      exact ⟨rfl, rfl⟩
  | opt _ ho ih =>
    cases h' with
    | opt h' ho' =>
      obtain ⟨rfl, rfl⟩ := ih h'
      exact ⟨ho.trans ho'.symm, rfl⟩
  | peek _ ho ih =>
    cases h' with
    | peek h' ho' =>
      obtain ⟨rfl, rfl⟩ := ih h'
      exact ⟨ho.trans ho'.symm, rfl⟩
  | deny _ ho ih =>
    cases h' with
    | deny h' ho' =>
      obtain ⟨rfl, rfl⟩ := ih h'
      exact ⟨ho.trans ho'.symm, rfl⟩
  | manyNil h ih =>
    cases h' with
    | manyNil h' => exact ⟨rfl, (ih h').2⟩
    | manyLast h' | manyMore h' => exact (hsome h' h).elim
  | manyLast h hd ih ihd =>
    cases h' with
    | manyNil h' => exact (hsome h h').elim
    | manyLast h' hd' =>
      obtain ⟨he, rfl⟩ := ih h'
      obtain rfl := Option.some.inj he
      exact ⟨rfl, by rw [(ihd hd').2]⟩
    | manyMore h' hd' =>
      obtain rfl := Option.some.inj (ih h').1
      exact (hsome hd' hd).elim
  | manyMore h hd _ ih _ ihm =>
    cases h' with
    | manyNil h' => exact (hsome h h').elim
    | manyLast h' hd' =>
      obtain rfl := Option.some.inj (ih h').1
      exact (hsome hd hd').elim
    | manyMore h' _ hm' =>
      obtain ⟨he, rfl⟩ := ih h'
      obtain rfl := Option.some.inj he
      obtain ⟨he', rfl⟩ := ihm hm'
      exact ⟨he', rfl⟩

theorem offset_afterLayout (g : Grammar R) (a : Bool) (c : Cursor) :
    c.offset ≤ (g.afterLayout a c).offset := by
  cases a with
  | true => exact Nat.le_refl _
  | false => exact Nat.le_add_right _ _

/-- An attempt does not go back, and what it reports is not in front of its place. -/
theorem Tries.le_offset (h : g.Tries a u x c o t) :
    (∀ d, o = some d → c.offset ≤ d.offset) ∧ t.Behind c.offset := by
  have hpass : ∀ {c d : Cursor} {s : List Char}, c.pass? s = some d → c.offset ≤ d.offset := by
    intro c d s hd
    unfold Cursor.pass? at hd
    split at hd
    · cases hd
      exact Nat.le_add_right _ _
    · cases hd
  have hpassIf : ∀ {c d : Cursor} {p : Char → Bool}, c.passIf? p = some d →
      c.offset ≤ d.offset := by
    intro c d p hd
    unfold Cursor.passIf? at hd
    split at hd
    · cases hd
    · split at hd
      · cases hd
        exact Nat.le_add_right _ _
      · cases hd
  have hbehind : ∀ {c d : Cursor} {a : Bool} {t : Furthest R}, c.offset ≤ d.offset →
      t.Behind (g.afterLayout a d).offset → t.Behind c.offset := fun hd ht =>
    ht.mono (Nat.le_trans hd (offset_afterLayout g _ _))
  induction h with
  | text ho => exact ⟨fun d hd => hpass (ho.symm.trans hd), .inl rfl⟩
  | char ho => exact ⟨fun d hd => hpassIf (ho.symm.trans hd), .inl rfl⟩
  | start ho | stop ho =>
    refine ⟨fun d hd => ?_, .inl rfl⟩
    rw [ho] at hd
    split at hd <;> cases hd
    exact Nat.le_refl _
  | rule _ ht ih => exact ⟨ih.1, ht ▸ ih.2.ofRule⟩
  | seqFail _ ih =>
    refine ⟨fun d hd => ?_, ih.2⟩
    cases hd
  | seq _ _ ihx ihy =>
    have hd := ihx.1 _ rfl
    refine ⟨fun e he => ?_, ihx.2.join (hbehind hd ihy.2)⟩
    exact Nat.le_trans (Nat.le_trans hd (offset_afterLayout g _ _)) (ihy.1 e he)
  | altLeft _ ih => exact ih
  | altRight _ _ ihx ihy => exact ⟨ihy.1, ihx.2.join ihy.2⟩
  | @opt _ _ _ c _ p _ _ ho ih =>
    refine ⟨fun d hd => ?_, ih.2⟩
    rw [ho] at hd
    cases p with
    | none => exact Nat.le_of_eq (congrArg Cursor.offset (Option.some.inj hd))
    | some e => exact ih.1 d hd
  | manyNil _ ih => exact ⟨fun d hd => by cases hd; exact Nat.le_refl _, ih.2⟩
  | manyLast _ _ ih ihd =>
    have hd := ih.1 _ rfl
    exact ⟨fun e he => by cases he; exact hd, ih.2.join (hbehind hd ihd.2)⟩
  | manyMore _ _ _ ih _ ihm =>
    have hd := ih.1 _ rfl
    refine ⟨fun e he => ?_, ih.2.join (hbehind hd ihm.2)⟩
    exact Nat.le_trans (Nat.le_trans hd (offset_afterLayout g _ _)) (ihm.1 e he)
  | @peek _ _ _ c _ p _ _ ho ih | @deny _ _ _ c _ p _ _ ho ih =>
    refine ⟨fun d hd => ?_, ih.2⟩
    rw [ho] at hd
    cases p <;> cases hd
    exact Nat.le_refl _

/-- Inside an atomic rule nothing is reported. -/
theorem Tries.eq_initial_of_atomic (h : g.Tries a u x c o t) (ha : a = true) : t = .initial := by
  induction h with
  | text | char | start | stop => rfl
  | rule _ ht ih =>
    subst ha
    rw [ht, ih rfl]
    rfl
  | seqFail _ ih | altLeft _ ih | opt _ _ ih | manyNil _ ih | peek _ _ ih | deny _ _ ih =>
    exact ih ha
  | seq _ _ ih ih' | altRight _ _ ih ih' | manyLast _ _ ih ih' | manyMore _ _ _ ih _ ih' =>
    rw [ih ha, ih' ha, Furthest.join_initial]

/-- Nor is it where no rules are named. -/
theorem Tries.eq_initial_of_noRules (h : g.Tries a u x c o t) (hx : x.noRules = true) :
    t = .initial := by
  induction h with
  | text | char | start | stop => rfl
  | rule => cases hx
  | seqFail _ ih | altLeft _ ih => exact ih (Bool.and_eq_true_iff.1 hx).1
  | seq _ _ ih ih' | altRight _ _ ih ih' =>
    obtain ⟨hx, hy⟩ := Bool.and_eq_true_iff.1 hx
    rw [ih hx, ih' hy, Furthest.join_initial]
  | opt _ _ ih | manyNil _ ih | peek _ _ ih | deny _ _ ih => exact ih hx
  | manyLast _ _ ih ih' | manyMore _ _ _ ih _ ih' =>
    rw [ih hx, ih' hx, Furthest.join_initial]

/-! ## Runs -/

/-- The further steps of a repetition, when each step is an attempt. -/
theorem tries_of_repeatMore {step : Cursor → Furthest R → Verdict R}
    (hstep : ∀ c f o f', (step c f).ended? = some (o, f') →
      ∃ t, f' = f.join t ∧ g.Tries a u x (g.afterLayout a c) o t)
    {n : Nat} {done : List (Node R)} {f f' : Furthest R} (h : g.Tries a u x c (some d) t)
    (hr : (repeatMore step n d done (f.join t)).ended? = some (o, f')) :
    ∃ t', f' = f.join t' ∧ g.Tries a u (.many x) c o t' ∧ o.isSome = true := by
  induction n generalizing c d t f done with
  | zero => simp [repeatMore, Verdict.ended?] at hr
  | succ n ih =>
    rw [repeatMore] at hr
    cases hs : step d (f.join t) with
    | matched d' ns f₁ =>
      obtain ⟨t₁, rfl, h₁⟩ := hstep d _ _ _ (by rw [hs]; rfl)
      rw [hs] at hr
      obtain ⟨t₂, rfl, hm, ho⟩ := ih h₁ hr
      obtain ⟨e, rfl⟩ := Option.isSome_iff_exists.1 ho
      exact ⟨_, Furthest.join_assoc f t t₂, .manyMore h h₁ hm, rfl⟩
    | failed f₁ =>
      obtain ⟨t₁, rfl, h₁⟩ := hstep d _ _ _ (by rw [hs]; rfl)
      rw [hs] at hr
      cases hr
      exact ⟨_, Furthest.join_assoc f t t₁, .manyLast h h₁, rfl⟩
    | exhausted => simp [hs, Verdict.ended?] at hr

theorem ended?_ofCursor? {c? : Option Cursor} {f f' : Furthest R}
    (h : (Verdict.ofCursor? c? f).ended? = some (o, f')) : o = c? ∧ f' = f.join .initial := by
  rw [Furthest.join_initial]
  cases c? <;> cases h <;> exact ⟨rfl, rfl⟩

/-- A run that ends is an attempt, and its record is that at the beginning, joined with what the
attempt reports by itself. -/
theorem tries_of_run {n : Nat} {m : Mode} {f f' : Furthest R}
    (h : (g.run n m x c f).ended? = some (o, f')) :
    ∃ t, f' = f.join t ∧ g.Tries m.atomic (m.look = .negative) x c o t := by
  induction n generalizing m x c f o f' with
  | zero => simp [run, Verdict.ended?] at h
  | succ n ih =>
    cases x with
    | text | char | start | stop =>
      rw [run] at h
      obtain ⟨rfl, rfl⟩ := ended?_ofCursor? h
      exact ⟨_, rfl, by constructor; rfl⟩
    | rule r =>
      rw [run] at h
      cases hb : g.run n { m with atomic := m.atomic || g.atomic r } (g.body r) c f with
      | matched d ns f₁ | failed f₁ =>
        obtain ⟨t, rfl, ht⟩ := ih (m := { m with atomic := m.atomic || g.atomic r })
          (by rw [hb]; rfl)
        rw [hb] at h
        cases h
        exact ⟨_, Furthest.mode_report_join ht.le_offset.2, .rule ht rfl⟩
      | exhausted => simp [hb, Verdict.ended?] at h
    | seq x y =>
      rw [run] at h
      cases hx : g.run n m x c f with
      | matched d ns f₁ =>
        obtain ⟨t, rfl, ht⟩ := ih (m := m) (by rw [hx]; rfl)
        simp only [hx, Verdict.andThen, skip_eq] at h
        cases hy : g.run n m y (g.afterLayout m.atomic d) (f.join t) with
        | matched e ns' f₂ | failed f₂ =>
          obtain ⟨t', rfl, ht'⟩ := ih (m := m) (by rw [hy]; rfl)
          rw [hy] at h
          cases h
          exact ⟨_, Furthest.join_assoc f t t', .seq ht ht'⟩
        | exhausted => simp [hy, Verdict.ended?] at h
      | failed f₁ =>
        obtain ⟨t, rfl, ht⟩ := ih (m := m) (by rw [hx]; rfl)
        rw [hx] at h
        cases h
        exact ⟨t, rfl, .seqFail ht⟩
      | exhausted => simp [hx, Verdict.andThen, Verdict.ended?] at h
    | alt x y =>
      rw [run] at h
      cases hx : g.run n m x c f with
      | matched d ns f₁ =>
        obtain ⟨t, rfl, ht⟩ := ih (m := m) (by rw [hx]; rfl)
        rw [hx] at h
        cases h
        exact ⟨t, rfl, .altLeft ht⟩
      | failed f₁ =>
        obtain ⟨t, rfl, ht⟩ := ih (m := m) (by rw [hx]; rfl)
        rw [hx] at h
        obtain ⟨t', rfl, ht'⟩ := ih (m := m) h
        exact ⟨_, Furthest.join_assoc f t t', .altRight ht ht'⟩
      | exhausted => simp [hx, Verdict.orElse, Verdict.ended?] at h
    | opt x =>
      rw [run] at h
      cases hx : g.run n m x c f with
      | matched d ns f₁ | failed f₁ =>
        obtain ⟨t, rfl, ht⟩ := ih (m := m) (by rw [hx]; rfl)
        rw [hx] at h
        cases h
        exact ⟨t, rfl, .opt ht rfl⟩
      | exhausted => simp [hx, Verdict.orElse, Verdict.ended?] at h
    | many x =>
      rw [run] at h
      cases hx : g.run n m x c f with
      | matched d ns f₁ =>
        obtain ⟨t, rfl, ht⟩ := ih (m := m) (by rw [hx]; rfl)
        rw [hx] at h
        obtain ⟨t', rfl, ht', -⟩ := tries_of_repeatMore (fun c f o f' h => ih h) ht h
        exact ⟨t', rfl, ht'⟩
      | failed f₁ =>
        obtain ⟨t, rfl, ht⟩ := ih (m := m) (by rw [hx]; rfl)
        rw [hx] at h
        cases h
        exact ⟨t, rfl, .manyNil ht⟩
      | exhausted => simp [hx, Verdict.ended?] at h
    | peek x =>
      have hlook : decide (m.look.peek = .negative) = decide (m.look = .negative) := by
        cases m.look <;> rfl
      rw [run] at h
      cases hx : g.run n { m with look := m.look.peek } x c f with
      | matched d ns f₁ | failed f₁ =>
        obtain ⟨t, rfl, ht⟩ := ih (m := { m with look := m.look.peek }) (by rw [hx]; rfl)
        rw [hx] at h
        cases h
        exact ⟨t, rfl, .peek (hlook ▸ ht) rfl⟩
      | exhausted => simp [hx, Verdict.andThen, Verdict.ended?] at h
    | deny x =>
      have hlook : decide (m.look.deny = .negative) = !decide (m.look = .negative) := by
        cases m.look <;> rfl
      rw [run] at h
      cases hx : g.run n { m with look := m.look.deny } x c f with
      | matched d ns f₁ | failed f₁ =>
        obtain ⟨t, rfl, ht⟩ := ih (m := { m with look := m.look.deny }) (by rw [hx]; rfl)
        rw [hx] at h
        cases h
        exact ⟨t, rfl, .deny (hlook ▸ ht) rfl⟩
      | exhausted => simp [hx, Verdict.ended?] at h

end Grammar

end IntScript
