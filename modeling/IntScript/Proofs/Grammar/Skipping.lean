import IntScript.Proofs.Grammar.Words

/-!
# Layout as an expression

Layout is skipped as if the grammar spelled it out: blanks and comments are repetitions of texts and
characters, matched in the way of an atomic rule.

* `Layout.lineBreak`, `Layout.blank`, `Layout.comment`, `Layout.skipped` : the expressions for it;
* `Layout.behind` : the place behind the layout that a text goes on with, in a comment or not;
* `Grammar.exists_parses_many` : where a repetition comes to, by what one step does;
* `Layout.parses_skipped` : the expression takes what is skipped, all of it and nothing else.
-/

namespace IntScript

open Peg

variable {a : Bool} {c : Cursor}

namespace Layout

/-! ## Expressions -/

/-- The texts that end a line. -/
def lineBreaks : List (List Char) := [['\n'], ['\r', '\n'], ['\r']]

/-- The texts that separate and mean nothing else. -/
def blanks : List (List Char) := [' '] :: ['\t'] :: lineBreaks

/-- The end of a line. -/
def lineBreak : Peg Rule := choice (lineBreaks.map .text)

/-- A blank, a tab or the end of a line. -/
def blank : Peg Rule := choice (blanks.map .text)

/-- Any character but the end of a line. -/
def inLine : Peg Rule := .seq (.deny lineBreak) (.char fun _ => true)

/-- Two slashes and what else is in their line. -/
def comment : Peg Rule := .seq (.text ['/', '/']) (.many inLine)

/-- Any number of blanks, with any number of comments among them. -/
def skipped : Peg Rule := .seq (.many blank) (.many (.seq comment (.many blank)))

/-- The place behind the layout, where the text goes on inside a comment or outside one. -/
def behind (inComment : Bool) (c : Cursor) : Cursor :=
  c.advance (lengthFrom inComment 0 c.rest)

/-- No blank is at the place. -/
def AtWord (c : Cursor) : Prop := ∀ x rest, c.rest = x :: rest → isBlank x = false

end Layout

/-! ## Repetitions -/

/-- A repetition in the way of an atomic rule, whose steps take characters, comes to a place where no
step is left. `P` holds wherever it comes to, `Q` where no step is left. -/
theorem Grammar.exists_parses_many {R : Type} {g : Grammar R} {x : Peg R} {P Q : Cursor → Prop}
    (hstep : ∀ c, P c → (g.Parses true x c none ∧ Q c) ∨
      ∃ d, g.Parses true x c (some (d, [])) ∧ d.rest.length < c.rest.length ∧ P d)
    {c : Cursor} (hc : P c) :
    ∃ e, g.Parses true (.many x) c (some (e, [])) ∧ e.rest.length ≤ c.rest.length ∧ P e ∧ Q e := by
  induction hn : c.rest.length using Nat.strongRecOn generalizing c with
  | _ n ih =>
    subst hn
    rcases hstep c hc with ⟨hx, hq⟩ | ⟨d, hd, hlt, hpd⟩
    · exact ⟨c, .manyNil hx, Nat.le_refl _, hc, hq⟩
    · obtain ⟨e, he, hle, hpe, hqe⟩ := ih _ hlt hpd rfl
      obtain ⟨e', he', hm⟩ := many_cons hd he
      -- No layout is skipped between the steps, so none is given back.
      obtain rfl : e' = e := he'.elim id fun h => h.1.trans h.2.symm
      exact ⟨e', hm, Nat.le_trans hle (Nat.le_of_lt hlt), hpe, hqe⟩

/-- A choice of texts over a class of characters finds one where such a character is. -/
theorem parses_choice_class {ss : List (List Char)} {p : Char → Bool}
    (hss : ∀ s ∈ ss, s ≠ [] ∧ ∀ x ∈ s, p x = true) (hp : ∀ x, p x = true → [x] ∈ ss) (c : Cursor) :
    (grammar.Parses a (choice (ss.map .text)) c none ∧ ∀ x rest, c.rest = x :: rest → p x = false) ∨
      ∃ s t, c.rest = s ++ t ∧ s ≠ [] ∧ (∀ x ∈ s, p x = true) ∧
        grammar.Parses a (choice (ss.map .text)) c (some (c.advance s.length, [])) := by
  have h := parses_choice_text (a := a) (c := c) ss
  cases hs : ss.find? (·.isPrefixOf c.rest) with
  | none =>
    rw [hs] at h
    refine .inl ⟨h, fun x rest hx => ?_⟩
    by_contra hpx
    have hnone := List.find?_eq_none.1 hs [x] (hp x (by simpa using hpx))
    simp [hx] at hnone
  | some s =>
    rw [hs] at h
    obtain ⟨t, ht⟩ : s <+: c.rest := List.isPrefixOf_iff_prefix.1 (by simpa using List.find?_some hs)
    obtain ⟨hne, hall⟩ := hss s (List.mem_of_find?_eq_some hs)
    exact .inr ⟨s, t, ht.symm, hne, hall, h⟩

namespace Layout

/-! ## Blanks -/

theorem length_append_of_blank {s : List Char} (hs : ∀ x ∈ s, isBlank x = true) (t : List Char) :
    lengthFrom false 0 (s ++ t) = s.length + lengthFrom false 0 t := by
  induction s with
  | nil => exact (Nat.zero_add _).symm
  | cons x s ih =>
    rw [List.cons_append, lengthFrom_cons, if_neg Bool.false_ne_true,
      if_pos (hs x List.mem_cons_self), ih fun y hy => hs y (.tail x hy), List.length_cons]
    omega

theorem behind_advance {b b' : Bool} {n : Nat}
    (h : lengthFrom b 0 c.rest = n + lengthFrom b' 0 (c.rest.drop n)) :
    behind b' (c.advance n) = behind b c := by
  rw [behind, Cursor.advance_advance, Cursor.rest_advance, ← h, behind]

theorem blank_step (c : Cursor) :
    (grammar.Parses true blank c none ∧ AtWord c) ∨
      ∃ d, grammar.Parses true blank c (some (d, [])) ∧ d.rest.length < c.rest.length ∧
        behind false d = behind false c := by
  have hmem : ∀ x, isBlank x = true → [x] ∈ blanks := by
    intro x hx
    simp only [isBlank, isLineBreak, Bool.or_eq_true, decide_eq_true_eq] at hx
    rcases hx with (rfl | rfl) | rfl | rfl <;> decide
  have hclass : ∀ s ∈ blanks, s ≠ [] ∧ ∀ x ∈ s, isBlank x = true := by
    simp [blanks, lineBreaks, isBlank, isLineBreak]
  rcases parses_choice_class hclass hmem c with h | ⟨s, t, hr, hne, hs, h⟩
  · exact .inl h
  · have hlen := List.length_pos_iff.2 hne
    refine .inr ⟨_, h, ?_, behind_advance ?_⟩
    · rw [Cursor.rest_advance, List.length_drop, hr, List.length_append]
      omega
    · rw [hr, length_append_of_blank hs, List.drop_left]

theorem exists_parses_blanks (c : Cursor) :
    ∃ e, grammar.Parses true (.many blank) c (some (e, [])) ∧ e.rest.length ≤ c.rest.length ∧
      behind false e = behind false c ∧ AtWord e := by
  refine Grammar.exists_parses_many (P := (behind false · = behind false c)) (fun d hd => ?_) rfl
  exact (blank_step d).imp_right fun ⟨e, he, hlt, hbehind⟩ => ⟨e, he, hlt, hbehind.trans hd⟩

/-! ## Comments -/

/-- At the end of a line a comment is over. -/
theorem inLine_step (c : Cursor) :
    (grammar.Parses true inLine c none ∧ behind false c = behind true c) ∨
      ∃ d, grammar.Parses true inLine c (some (d, [])) ∧ d.rest.length < c.rest.length ∧
        behind true d = behind true c := by
  have hmem : ∀ x, isLineBreak x = true → [x] ∈ lineBreaks := by
    intro x hx
    simp only [isLineBreak, Bool.or_eq_true, decide_eq_true_eq] at hx
    rcases hx with rfl | rfl <;> decide
  have hclass : ∀ s ∈ lineBreaks, s ≠ [] ∧ ∀ x ∈ s, isLineBreak x = true := by
    simp [lineBreaks, isLineBreak]
  rcases parses_choice_class hclass hmem c with ⟨h, hx⟩ | ⟨s, t, hr, hne, hs, h⟩
  · have hdeny : grammar.Parses true (.deny lineBreak) c (some (c, [])) := .deny h rfl
    rcases hr : c.rest with _ | ⟨x, rest⟩
    · refine .inl ⟨.seq hdeny (parses_char_none (by simp [hr])) rfl, ?_⟩
      rw [behind, behind, hr]
      rfl
    · have hchar : grammar.Parses true (.char fun _ => true) c (some (c.advance 1, [])) :=
        parses_char_of_cons hr rfl
      refine .inr ⟨_, .seq hdeny hchar rfl, ?_, behind_advance ?_⟩
      · simp [Cursor.rest_advance, hr]
      · rw [hr, lengthFrom_cons, if_pos rfl, hx x rest hr, Nat.add_comm]
        rfl
  · refine .inl ⟨.seqFail (.deny h rfl), ?_⟩
    obtain ⟨x, s, rfl⟩ := List.exists_cons_of_ne_nil hne
    have hx := hs x List.mem_cons_self
    have hb : isBlank x = true := by rw [isBlank, hx, Bool.or_true]
    rw [behind, behind, hr, List.cons_append, lengthFrom_cons, lengthFrom_cons, if_pos rfl,
      if_neg Bool.false_ne_true, if_pos hb, hx]
    rfl

/-- Where no blank is, there is a comment or no layout at all. -/
theorem comment_step (hc : AtWord c) :
    (grammar.Parses true comment c none ∧ behind false c = c) ∨
      ∃ d, grammar.Parses true comment c (some (d, [])) ∧ d.rest.length < c.rest.length ∧
        behind false d = behind false c := by
  cases hp : c.pass? ['/', '/'] with
  | some d =>
    obtain ⟨hr, hd⟩ := Cursor.eq_of_pass? hp
    obtain ⟨e, he, hle, hT, hq⟩ := Grammar.exists_parses_many
      (P := (behind true · = behind true d)) (fun d' hd' => (inLine_step d').imp_right
        fun ⟨e, he, hlt, hbehind⟩ => ⟨e, he, hlt, hbehind.trans hd'⟩) rfl
    refine .inr ⟨e, .seq (.text (by rw [hp]; rfl)) he rfl, ?_, (hq.trans hT).trans ?_⟩
    · rw [hr]
      simp only [List.length_append, List.length_cons]
      omega
    · subst hd
      refine behind_advance ?_
      rw [hr, List.cons_append, lengthFrom_cons, if_neg Bool.false_ne_true,
        if_neg (by decide), if_pos ⟨rfl, rfl⟩, List.cons_append, lengthFrom_cons, if_pos rfl,
        Nat.add_comm ['/', '/'].length]
      rfl
  | none =>
    refine .inl ⟨.seqFail (.text (by rw [hp]; rfl)), ?_⟩
    rcases hr : c.rest with _ | ⟨x, rest⟩
    · rw [behind, hr]
      rfl
    · have hslash : ¬(x = '/' ∧ rest.head? = some '/') := by
        rintro ⟨rfl, hhead⟩
        obtain ⟨t, rfl⟩ := List.head?_eq_some_iff.1 hhead
        rw [Cursor.pass?_of_eq (t := t) hr] at hp
        cases hp
      rw [behind, hr, lengthFrom_cons, if_neg Bool.false_ne_true, hc x rest hr,
        if_neg Bool.false_ne_true, if_neg hslash]
      rfl

/-- **Layout is a matter of the grammar**: in the way of an atomic rule, the expression for layout
takes at any place what is skipped there, and no node comes of it. -/
theorem parses_skipped (c : Cursor) :
    grammar.Parses true skipped c (some (grammar.afterLayout false c, [])) := by
  obtain ⟨d, hd, -, hbehind, hword⟩ := exists_parses_blanks c
  obtain ⟨e, he, -, ⟨-, hbehind'⟩, hq⟩ : ∃ e, grammar.Parses true (.many (.seq comment (.many blank)))
      d (some (e, [])) ∧ e.rest.length ≤ d.rest.length ∧
      (AtWord e ∧ behind false e = behind false c) ∧ behind false e = e := by
    refine Grammar.exists_parses_many (P := fun d => AtWord d ∧ behind false d = behind false c)
      (fun d ⟨hword, hbehind⟩ => ?_) ⟨hword, hbehind⟩
    rcases comment_step hword with ⟨h, hq⟩ | ⟨e, h, hlt, hT⟩
    · exact .inl ⟨.seqFail h, hq⟩
    · obtain ⟨e', he', hle, hT', hword'⟩ := exists_parses_blanks e
      exact .inr ⟨e', .seq h he' rfl, Nat.lt_of_le_of_lt hle hlt, hword',
        (hT'.trans hT).trans hbehind⟩
  have hend : e = grammar.afterLayout false c := hq.symm.trans hbehind'
  exact hend ▸ .seq hd he rfl

end Layout

end IntScript
