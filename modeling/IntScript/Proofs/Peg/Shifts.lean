import IntScript.Proofs.Peg.Attempts
import IntScript.Proofs.Peg.Telling

/-!
# Attempts further on

What an attempt comes to depends only on the characters behind its place, unless it asks for the
beginning of the text. With more characters in front, it reports the same further on.

* `Cursor.shift` : the same characters behind more others;
* `Peg.floats` : an expression that does not ask for the beginning of the text;
* `Furthest.Shifted m t t'` : the same reports `m` characters further on;
* `Tries.shift` : an attempt further on.
-/

namespace IntScript

variable {R : Type} {m n : Nat}

/-! ## Places -/

namespace Cursor

variable {c : Cursor} {s : List Char} {p : Char → Bool}

/-- The place with `m` more characters in front. -/
def shift (m : Nat) (c : Cursor) : Cursor := ⟨c.offset + m, c.rest⟩

theorem rest_shift : (c.shift m).rest = c.rest := rfl

theorem advance_shift (c : Cursor) (k : Nat) :
    (c.shift m).advance k = (c.advance k).shift m := by
  simp [shift, advance, Nat.add_right_comm]

theorem pass?_shift : (c.shift m).pass? s = (c.pass? s).map (shift m) := by
  rw [pass?, pass?, advance_shift]
  change (if s.isPrefixOf c.rest = true then _ else _) = _
  split <;> rfl

theorem passIf?_shift : (c.shift m).passIf? p = (c.passIf? p).map (shift m) := by
  obtain ⟨n, _ | ⟨x, rest⟩⟩ := c
  · rfl
  · change (if p x = true then _ else none) = Option.map _ (if p x = true then _ else none)
    split
    · rw [advance_shift]
      rfl
    · rfl

end Cursor

theorem Grammar.afterLayout_shift (g : Grammar R) (a : Bool) (c : Cursor) :
    g.afterLayout a (c.shift m) = (g.afterLayout a c).shift m := by
  cases a with
  | true => rfl
  | false => exact Cursor.advance_shift c _

/-- The expression does not ask for the beginning of the text, and calls only rules of a kind. -/
def Peg.floats (rules : R → Bool) : Peg R → Bool
  | .text _ | .char _ | .stop => true
  | .start => false
  | .rule r => rules r
  | .seq x y | .alt x y => x.floats rules && y.floats rules
  | .opt x | .many x | .peek x | .deny x => x.floats rules

/-! ## Records -/

namespace Furthest

variable {t t' t₁ t₁' : Furthest R} {r : R} {rs : List R}

/-- The same reports `m` characters further on. -/
def Shifted (m : Nat) (t t' : Furthest R) : Prop :=
  t = .initial ∧ t' = .initial ∨
    t'.offset = t.offset + m ∧ t'.expected = t.expected ∧ t'.unexpected = t.unexpected

namespace Shifted

theorem initial (m : Nat) : Shifted m (initial : Furthest R) .initial := .inl ⟨rfl, rfl⟩

theorem listed (m n : Nat) (rs : List R) : Shifted m (listed n rs) (listed (n + m) rs) :=
  .inr ⟨rfl, rfl, rfl⟩

theorem single (m n : Nat) (r : R) (u : Bool) : Shifted m (single n r u) (single (n + m) r u) := by
  cases u <;> exact .inr ⟨rfl, rfl, rfl⟩

theorem join (h : Shifted m t t') (h₁ : Shifted m t₁ t₁') : Shifted m (t.join t₁) (t'.join t₁') := by
  rcases h with ⟨rfl, rfl⟩ | ⟨ho, he, hu⟩
  · rwa [initial_join, initial_join]
  rcases h₁ with ⟨rfl, rfl⟩ | ⟨ho₁, he₁, hu₁⟩
  · rw [join_initial, join_initial]
    exact .inr ⟨ho, he, hu⟩
  rcases Nat.lt_trichotomy t.offset t₁.offset with hlt | heq | hgt
  · rw [join_of_lt hlt, join_of_lt (by omega)]
    exact .inr ⟨ho₁, he₁, hu₁⟩
  · rw [join_of_eq heq, join_of_eq (by omega), he, hu, he₁, hu₁]
    exact .inr ⟨ho, rfl, rfl⟩
  · rw [join_of_gt hgt, join_of_gt (by omega)]
    exact .inr ⟨ho, he, hu⟩

theorem ofRule {a u matched : Bool} (h : Shifted m t t') (hb : t.Behind n)
    (hb' : t'.Behind (n + m)) :
    Shifted m (t.ofRule a u n r matched) (t'.ofRule a u (n + m) r matched) := by
  have hiff : n + m < t'.offset ∨ t'.countAt (n + m) = 1 ↔ n < t.offset ∨ t.countAt n = 1 := by
    rcases h with ⟨rfl, rfl⟩ | ⟨ho, he, hu⟩
    · rw [countAt_initial, countAt_initial]
      simp [Furthest.initial]
    · simp only [countAt, ho, he, hu, Nat.add_lt_add_iff_right, Nat.add_right_cancel_iff]
  unfold Furthest.ofRule
  split
  · exact h
  · split
    · rw [initial_report hb, initial_report hb']
      by_cases hkeep : n < t.offset ∨ t.countAt n = 1
      · rwa [if_pos hkeep, if_pos (hiff.2 hkeep)]
      · rw [if_neg hkeep, if_neg (mt hiff.1 hkeep)]
        exact .single m n r matched
    · exact h

end Shifted

end Furthest

/-! ## Attempts -/

namespace Grammar

variable {g : Grammar R} {rules : R → Bool} {a u : Bool} {x : Peg R} {c : Cursor}
  {o : Option Cursor} {t : Furthest R}

/-- An attempt with more characters in front comes to the same and reports the same. -/
theorem Tries.shift (hrules : ∀ r, rules r = true → (g.body r).floats rules = true)
    (h : g.Tries a u x c o t) (hx : x.floats rules = true) (m : Nat) :
    ∃ t', g.Tries a u x (c.shift m) (o.map (Cursor.shift m)) t' ∧ t.Shifted m t' := by
  induction h with
  | text ho => exact ⟨_, .text (by rw [ho, Cursor.pass?_shift]), .initial m⟩
  | char ho => exact ⟨_, .char (by rw [ho, Cursor.passIf?_shift]), .initial m⟩
  | start => cases hx
  | stop ho =>
    refine ⟨_, .stop ?_, .initial m⟩
    rw [ho, Cursor.rest_shift]
    split <;> rfl
  | rule h ht ih =>
    obtain ⟨t', h', hs⟩ := ih (hrules _ hx)
    refine ⟨_, .rule h' rfl, ?_⟩
    rw [ht, Option.isSome_map]
    exact hs.ofRule h.le_offset.2 h'.le_offset.2
  | seqFail _ ih =>
    obtain ⟨t', h', hs⟩ := ih (Bool.and_eq_true_iff.1 hx).1
    exact ⟨t', .seqFail h', hs⟩
  | seq _ _ ihx ihy =>
    obtain ⟨hx, hy⟩ := Bool.and_eq_true_iff.1 hx
    obtain ⟨t₁, h₁, hs₁⟩ := ihx hx
    obtain ⟨t₂, h₂, hs₂⟩ := ihy hy
    rw [← afterLayout_shift] at h₂
    exact ⟨_, .seq h₁ h₂, hs₁.join hs₂⟩
  | altLeft _ ih =>
    obtain ⟨t', h', hs⟩ := ih (Bool.and_eq_true_iff.1 hx).1
    exact ⟨t', .altLeft h', hs⟩
  | altRight _ _ ihx ihy =>
    obtain ⟨hx, hy⟩ := Bool.and_eq_true_iff.1 hx
    obtain ⟨t₁, h₁, hs₁⟩ := ihx hx
    obtain ⟨t₂, h₂, hs₂⟩ := ihy hy
    exact ⟨_, .altRight h₁ h₂, hs₁.join hs₂⟩
  | opt _ ho ih =>
    obtain ⟨t', h', hs⟩ := ih hx
    exact ⟨t', .opt h' (by rw [ho, Option.getD_map]; rfl), hs⟩
  | manyNil _ ih =>
    obtain ⟨t', h', hs⟩ := ih hx
    exact ⟨t', .manyNil h', hs⟩
  | manyLast _ _ ih ihd =>
    obtain ⟨t₁, h₁, hs₁⟩ := ih hx
    obtain ⟨t₂, h₂, hs₂⟩ := ihd hx
    rw [← afterLayout_shift] at h₂
    exact ⟨_, .manyLast h₁ h₂, hs₁.join hs₂⟩
  | manyMore _ _ _ ih ihd ihm =>
    obtain ⟨t₁, h₁, hs₁⟩ := ih hx
    obtain ⟨t₂, h₂, -⟩ := ihd hx
    obtain ⟨t₃, h₃, hs₃⟩ := ihm hx
    rw [← afterLayout_shift] at h₂ h₃
    exact ⟨_, .manyMore h₁ h₂ h₃, hs₁.join hs₃⟩
  | peek _ ho ih =>
    obtain ⟨t', h', hs⟩ := ih hx
    exact ⟨t', .peek h' (by rw [ho, Option.map_map, Option.map_map]; rfl), hs⟩
  | deny _ ho ih =>
    obtain ⟨t', h', hs⟩ := ih hx
    refine ⟨t', .deny h' ?_, hs⟩
    rw [ho, Option.isSome_map]
    split <;> rfl

end Grammar

end IntScript
