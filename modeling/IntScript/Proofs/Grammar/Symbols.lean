import IntScript.Grammar
import IntScript.Proofs.Lexeme
import IntScript.Proofs.Peg.Parses

/-!
# Symbols in a text

What the grammar matches at a place is a matter of the lexemes there.

* `Cursor.Settled` : no layout is left at a place; `afterLayout_settled`;
* `Cursor.Before c l d` : `l` is the lexeme between two places (`before_of_lexemes`);
* `Cursor.Passes c ls d` : from one place to another the text is cut into the lexemes `ls`, which
  determine it but for layout (`Cursor.Passes.afterLayout_eq`);
* `Token.Solid` : tokens whose characters begin no other token;
* `parses_token`, `parses_solid_none` : what a symbol of the grammar finds;
* `parses_operators` : what a choice of operators finds.
-/

namespace IntScript

open Peg

/-! ## Places and lexemes -/

namespace Cursor

/-- No layout is left at the place. -/
def Settled (c : Cursor) : Prop := Layout.length c.rest = 0

/-- The text goes on with the lexeme `l` from the first place to the second. -/
structure Before (c : Cursor) (l : Lexeme) (d : Cursor) : Prop where
  rest_eq : c.rest = l.token.text ++ d.rest
  advance_eq : d = c.advance l.token.text.length
  lexemes_eq : lexemes c.rest = l :: lexemes d.rest
  joined_eq : l.joined = l.token.joins d.rest

theorem upTo_advance (c : Cursor) (n : Nat) : c.upTo (c.advance n) = c.rest.take n := by
  simp [upTo, advance]

theorem Before.upTo {c d : Cursor} {l : Lexeme} (h : c.Before l d) : c.upTo d = l.token.text := by
  rw [h.advance_eq, upTo_advance, h.rest_eq, List.take_left']
  rfl

theorem pass?_of_eq {c : Cursor} {s t : List Char} (h : c.rest = s ++ t) :
    c.pass? s = some (c.advance s.length) := by
  rw [pass?, if_pos (List.isPrefixOf_iff_prefix.2 ⟨t, h.symm⟩)]

theorem eq_of_pass? {c d : Cursor} {s : List Char} (h : c.pass? s = some d) :
    c.rest = s ++ d.rest ∧ d = c.advance s.length := by
  rw [pass?] at h
  split at h
  · next hs =>
    cases h
    obtain ⟨t, ht⟩ := List.isPrefixOf_iff_prefix.1 hs
    refine ⟨?_, rfl⟩
    rw [rest_advance, ← ht, List.drop_left']
    rfl
  · cases h

end Cursor

variable {a : Bool} {c d : Cursor} {l : Lexeme} {ls : List Lexeme}

theorem afterLayout_settled (c : Cursor) : (grammar.afterLayout false c).Settled :=
  layout_drop_layout c.rest

theorem afterLayout_of_settled (hc : c.Settled) : grammar.afterLayout false c = c := by
  change c.advance (Layout.length c.rest) = c
  rw [hc]
  rfl

@[simp] theorem lexemes_afterLayout (c : Cursor) :
    lexemes (grammar.afterLayout false c).rest = lexemes c.rest :=
  lexemes_drop_layout c.rest

/-- The first lexeme at a place without layout. -/
theorem before_of_lexemes (hc : c.Settled) (h : lexemes c.rest = l :: ls) :
    ∃ d, c.Before l d ∧ lexemes d.rest = ls := by
  obtain ⟨x, rest, after, hx, hcut, ht, hls, hj⟩ := cut_of_lexemes hc h
  have hd : (c.advance l.token.text.length).rest = after := by
    rw [Cursor.rest_advance, ht, List.drop_left']
    rfl
  exact ⟨c.advance l.token.text.length, ⟨by rw [hd]; exact ht, rfl, by rw [hd, hls]; exact h,
    by rw [hd]; exact hj⟩, by rw [hd]; exact hls⟩

/-- The token that is cut at a place without layout is the first there. -/
theorem before_of_cut {x : Char} {rest after : List Char} {t : Token} (hc : c.Settled)
    (hx : c.rest = x :: rest) (ht : Token.cut x rest = (t, after)) :
    ∃ d, c.Before ⟨t, t.joins after⟩ d ∧ d.rest = after := by
  have h : lexemes c.rest = ⟨t, t.joins after⟩ :: lexemes after := by
    rw [Cursor.Settled, hx] at hc
    rw [hx, lexemes_cons hc, ht]
  have hrest : c.rest = t.text ++ after := by
    rw [hx, ← Token.text_cut x rest, ht]
  have hd : (c.advance t.text.length).rest = after := by
    rw [Cursor.rest_advance, hrest, List.drop_left']
    rfl
  exact ⟨c.advance t.text.length, ⟨by rw [hd]; exact hrest, rfl, by rw [hd]; exact h,
    by rw [hd]⟩, hd⟩

/-- The lexeme at a place is one. -/
theorem Cursor.Before.unique {l' : Lexeme} {d' : Cursor} (h : c.Before l d)
    (h' : c.Before l' d') : l = l' ∧ d = d' := by
  have hl : l = l' := (List.cons.inj (h.lexemes_eq.symm.trans h'.lexemes_eq)).1
  subst hl
  exact ⟨rfl, h.advance_eq.trans h'.advance_eq.symm⟩

/-- From one place to another the text is cut into the lexemes, with layout around them. -/
inductive Cursor.Passes : Cursor → List Lexeme → Cursor → Prop where
  | refl (c : Cursor) : Passes c [] c
  | layout {c d : Cursor} {ls : List Lexeme} (h : Passes (grammar.afterLayout false c) ls d) :
    Passes c ls d
  | token {c d e : Cursor} {l : Lexeme} {ls : List Lexeme} (hc : c.Settled) (hb : c.Before l d)
    (h : Passes d ls e) : Passes c (l :: ls) e

/-- The place behind the lexemes, and behind the layout after each of them. -/
def Cursor.past : List Lexeme → Cursor → Cursor
  | [], c => c
  | l :: ls, c => past ls (grammar.afterLayout false (c.advance l.token.text.length))

theorem Cursor.past_append (ls ls' : List Lexeme) (c : Cursor) :
    c.past (ls ++ ls') = (c.past ls).past ls' := by
  induction ls generalizing c with
  | nil => rfl
  | cons l ls ih => exact ih _

theorem Cursor.le_offset_past (ls : List Lexeme) (c : Cursor) : c.offset ≤ (c.past ls).offset := by
  induction ls generalizing c with
  | nil => exact Nat.le_refl _
  | cons l ls ih =>
    refine Nat.le_trans ?_ (ih _)
    exact Nat.le_trans (Nat.le_add_right _ _) (Nat.le_add_right _ _)

namespace Cursor.Passes

variable {e : Cursor} {ls' : List Lexeme}

theorem trans (h : c.Passes ls d) (h' : d.Passes ls' e) : c.Passes (ls ++ ls') e := by
  induction h with
  | refl => exact h'
  | layout _ ih => exact .layout (ih h')
  | token hc hb _ ih => exact .token hc hb (ih h')

theorem single (hc : c.Settled) (hb : c.Before l d) : c.Passes [l] d := .token hc hb (.refl d)

/-- The layout behind the lexemes. -/
theorem behind (h : c.Passes ls d) : c.Passes ls (grammar.afterLayout false d) := by
  rw [← List.append_nil ls]
  exact h.trans (.layout (.refl _))

theorem lexemes_eq (h : c.Passes ls d) : lexemes c.rest = ls ++ lexemes d.rest := by
  induction h with
  | refl => rfl
  | layout _ ih => rwa [lexemes_afterLayout] at ih
  | token _ hb _ ih => rw [hb.lexemes_eq, ih, List.cons_append]

theorem advance_eq (h : c.Passes ls d) : ∃ n, d = c.advance n := by
  induction h with
  | refl c => exact ⟨0, rfl⟩
  | @layout c _ _ _ ih =>
    obtain ⟨n, hn⟩ := ih
    exact ⟨Layout.length c.rest + n, hn.trans (advance_advance c _ n)⟩
  | @token c _ _ l _ _ hb _ ih =>
    obtain ⟨n, hn⟩ := ih
    exact ⟨l.token.text.length + n, hn.trans (hb.advance_eq ▸ advance_advance c _ n)⟩

/-- The lexemes determine the place, but for the layout behind it. -/
theorem afterLayout_eq (h : c.Passes ls d) :
    grammar.afterLayout false d = (grammar.afterLayout false c).past ls := by
  induction h with
  | refl => rfl
  | layout _ ih => rwa [afterLayout_of_settled (afterLayout_settled _)] at ih
  | token hc hb _ ih => rw [ih, afterLayout_of_settled hc, past, hb.advance_eq]

end Cursor.Passes

/-! ## Symbols -/

namespace Token

/-- The characters of the token begin no other token. -/
def Solid (t : Token) : Prop := ∀ rest, ∃ c cs, t.text ++ rest = c :: cs ∧ cut c cs = (t, rest)

theorem solid_openParen : Solid .openParen := fun rest => ⟨'(', rest, rfl, by cases rest <;> rfl⟩

theorem solid_closeParen : Solid .closeParen := fun rest => ⟨')', rest, rfl, by cases rest <;> rfl⟩

theorem solid_openBrace : Solid .openBrace := fun rest => ⟨'{', rest, rfl, by cases rest <;> rfl⟩

theorem solid_closeBrace : Solid .closeBrace := fun rest => ⟨'}', rest, rfl, by cases rest <;> rfl⟩

theorem solid_comma : Solid .comma := fun rest => ⟨',', rest, rfl, by cases rest <;> rfl⟩

end Token

/-- The characters of the first lexeme are found. -/
theorem parses_token (h : c.Before l d) : grammar.Parses a (.text l.token.text) c (some (d, [])) :=
  .text (by rw [Cursor.pass?_of_eq h.rest_eq, h.advance_eq]; rfl)

/-- Where the characters of a solid token are found, it is the first token. -/
theorem before_of_solid {t : Token} (ht : t.Solid) (hc : c.Settled)
    (h : c.pass? t.text = some d) : ∃ j, c.Before ⟨t, j⟩ d := by
  obtain ⟨hrest, hd⟩ := Cursor.eq_of_pass? h
  obtain ⟨x, xs, hx, hcut⟩ := ht d.rest
  obtain ⟨d', hb, -⟩ := before_of_cut hc (hrest.trans hx) hcut
  obtain rfl : d' = d := by rw [hb.advance_eq, hd]
  exact ⟨_, hb⟩

/-- The characters of a solid token are found nowhere else than at the token. -/
theorem parses_solid_none {t : Token} (ht : t.Solid) (hc : c.Settled)
    (h : ∀ j ls, lexemes c.rest ≠ ⟨t, j⟩ :: ls) : grammar.Parses a (.text t.text) c none := by
  refine .text ?_
  cases hp : c.pass? t.text with
  | none => rfl
  | some d =>
    obtain ⟨j, hb⟩ := before_of_solid ht hc hp
    exact absurd hb.lexemes_eq (h _ _)

/-! ## Choices of texts -/

/-- A choice of texts finds the first of them that the text goes on with. -/
theorem parses_choice_text (ss : List (List Char)) :
    grammar.Parses a (choice (ss.map .text)) c
      ((ss.find? (·.isPrefixOf c.rest)).map fun s => (c.advance s.length, [])) := by
  have hone : ∀ s : List Char, grammar.Parses a (.text s) c
      (if s.isPrefixOf c.rest then some (c.advance s.length, []) else none) := by
    intro s
    refine .text ?_
    rw [Cursor.pass?]
    split <;> rfl
  induction ss with
  | nil => exact .deny (p := some (c.advance 0, [])) (hone []) rfl
  | cons s ss ih =>
    cases hs : s.isPrefixOf c.rest with
    | true =>
      have h := hone s
      rw [hs, if_pos rfl] at h
      simp only [List.find?_cons, hs]
      cases ss with
      | nil => exact h
      | cons => exact .altLeft h
    | false =>
      have h := hone s
      rw [hs, if_neg (by decide)] at h
      simp only [List.find?_cons, hs]
      cases ss with
      | nil => exact h
      | cons => exact .altRight h ih

theorem pair?_eq_none {x y : Char} (hx : x = '<' ∨ x = '>') (hy : y ≠ '=') :
    Token.pair? x y = none := by
  unfold Token.pair?
  split <;> simp_all

/-- Where a text goes on with the symbol of an operator, that symbol begins the first token. -/
theorem cut_of_symbol (op : Op) (rest : List Char) :
    ∃ x xs o after, op.symbol.toList ++ rest = x :: xs ∧ Token.cut x xs = (.op o, after) ∧
      op.symbol.toList.isPrefixOf o.symbol.toList = true := by
  cases op with
  | lt =>
    rcases rest with _ | ⟨y, rest⟩
    · exact ⟨'<', [], .lt, [], rfl, rfl, rfl⟩
    · by_cases hy : y = '='
      · subst hy
        exact ⟨'<', _, .le, rest, rfl, rfl, rfl⟩
      · refine ⟨'<', y :: rest, .lt, y :: rest, rfl, ?_, rfl⟩
        change Token.cutSymbol '<' (y :: rest) = _
        rw [Token.cutSymbol, pair?_eq_none (.inl rfl) hy]
        rfl
  | gt =>
    rcases rest with _ | ⟨y, rest⟩
    · exact ⟨'>', [], .gt, [], rfl, rfl, rfl⟩
    · by_cases hy : y = '='
      · subst hy
        exact ⟨'>', _, .ge, rest, rfl, rfl, rfl⟩
      · refine ⟨'>', y :: rest, .gt, y :: rest, rfl, ?_, rfl⟩
        change Token.cutSymbol '>' (y :: rest) = _
        rw [Token.cutSymbol, pair?_eq_none (.inr rfl) hy]
        rfl
  | add => exact ⟨'+', rest, .add, rest, rfl, by cases rest <;> rfl, rfl⟩
  | sub => exact ⟨'-', rest, .sub, rest, rfl, by cases rest <;> rfl, rfl⟩
  | mul => exact ⟨'*', rest, .mul, rest, rfl, by cases rest <;> rfl, rfl⟩
  | div => exact ⟨'/', rest, .div, rest, rfl, by cases rest <;> rfl, rfl⟩
  | mod => exact ⟨'%', rest, .mod, rest, rfl, by cases rest <;> rfl, rfl⟩
  | eq => exact ⟨'=', _, .eq, rest, rfl, rfl, rfl⟩
  | ne => exact ⟨'!', _, .ne, rest, rfl, rfl, rfl⟩
  | le => exact ⟨'<', _, .le, rest, rfl, rfl, rfl⟩
  | ge => exact ⟨'>', _, .ge, rest, rfl, rfl, rfl⟩
  | and => exact ⟨'&', _, .and, rest, rfl, rfl, rfl⟩
  | or => exact ⟨'|', _, .or, rest, rfl, rfl, rfl⟩

/-- At an operator, the symbols that the text goes on with are those that begin its symbol. -/
theorem isPrefixOf_symbol {o op : Op} {j : Bool} (hc : c.Settled) (h : c.Before ⟨.op o, j⟩ d) :
    op.symbol.toList.isPrefixOf c.rest = op.symbol.toList.isPrefixOf o.symbol.toList := by
  rw [Bool.eq_iff_iff, List.isPrefixOf_iff_prefix, List.isPrefixOf_iff_prefix]
  constructor
  · rintro ⟨rest, hrest⟩
    obtain ⟨x, xs, o', after, hx, hcut, ho⟩ := cut_of_symbol op rest
    obtain ⟨d', hb, -⟩ := before_of_cut hc (hrest.symm.trans hx) hcut
    obtain rfl : o' = o := by simpa using congrArg Lexeme.token (hb.unique h).1
    exact List.isPrefixOf_iff_prefix.1 ho
  · rintro ⟨t, ht⟩
    exact ⟨t ++ d.rest, by rw [h.rest_eq, ← List.append_assoc, ht]; rfl⟩

/-- Away from operators, the text goes on with the symbol of none. -/
theorem isPrefixOf_symbol_eq_false (op : Op) (hc : c.Settled)
    (h : ∀ o j ls, lexemes c.rest ≠ ⟨.op o, j⟩ :: ls) :
    op.symbol.toList.isPrefixOf c.rest = false := by
  rw [Bool.eq_false_iff]
  intro hp
  obtain ⟨rest, hrest⟩ := List.isPrefixOf_iff_prefix.1 hp
  obtain ⟨x, xs, o, after, hx, hcut, -⟩ := cut_of_symbol op rest
  obtain ⟨d, hb, -⟩ := before_of_cut hc (hrest.symm.trans hx) hcut
  exact h _ _ _ hb.lexemes_eq

theorem operators_eq (ops : List Op) :
    operators ops = choice ((ops.map fun op => op.symbol.toList).map .text) := by
  simp [operators, string, Function.comp_def]

/-- A choice of operators finds the operator there, if none before it in the choice begins it. -/
theorem parses_operators {ops : List Op} {o : Op} {j : Bool} (hc : c.Settled)
    (h : c.Before ⟨.op o, j⟩ d)
    (ho : (ops.map fun op => op.symbol.toList).find? (·.isPrefixOf o.symbol.toList) =
      some o.symbol.toList) : grammar.Parses a (operators ops) c (some (d, [])) := by
  have hp := parses_choice_text (a := a) (c := c) (ops.map fun op => op.symbol.toList)
  rw [← operators_eq] at hp
  have hf : (ops.map fun op => op.symbol.toList).find? (·.isPrefixOf c.rest) =
      some o.symbol.toList := by
    rw [← ho, List.find?_map, List.find?_map]
    congr 2
    funext op
    exact isPrefixOf_symbol hc h
  rw [hf] at hp
  rw [h.advance_eq]
  exact hp

/-- A choice of operators finds nothing at an operator that none of them begins. -/
theorem parses_operators_none {ops : List Op} (hc : c.Settled)
    (h : ∀ o j ls, lexemes c.rest = ⟨.op o, j⟩ :: ls →
      ∀ op ∈ ops, op.symbol.toList.isPrefixOf o.symbol.toList = false) :
    grammar.Parses a (operators ops) c none := by
  have hp := parses_choice_text (a := a) (c := c) (ops.map fun op => op.symbol.toList)
  rw [← operators_eq] at hp
  have hf : (ops.map fun op => op.symbol.toList).find? (·.isPrefixOf c.rest) = none := by
    rw [List.find?_eq_none]
    intro s hs
    obtain ⟨op, hop, rfl⟩ := List.mem_map.1 hs
    rw [Bool.not_eq_true]
    by_cases hop' : ∃ o j ls, lexemes c.rest = ⟨.op o, j⟩ :: ls
    · obtain ⟨o, j, ls, hls⟩ := hop'
      obtain ⟨d, hb, -⟩ := before_of_lexemes hc hls
      rw [isPrefixOf_symbol hc hb]
      exact h o j ls hls op hop
    · exact isPrefixOf_symbol_eq_false op hc fun o j ls hls => hop' ⟨o, j, ls, hls⟩
  rw [hf] at hp
  exact hp

end IntScript
