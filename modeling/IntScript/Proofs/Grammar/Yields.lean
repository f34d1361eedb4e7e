import IntScript.Proofs.Grammar.Words
import IntScript.Proofs.Syntax.Derivation

/-!
# What matches consist of

* `Spans P c d` : from one place to another there are lexemes in `P`;
* `Both`, `Maybe`, `Token.Then`, `IsMany`, ... : what lexemes are in, form by form;
* `Sound r c d` : what a match of the rule `r` amounts to, in terms of the documented grammar;
* `Yields x P` : if the rules are sound, a match of `x` spans lexemes in `P`;
* `Yields.seq`, `Yields.many`, `Yields.token`, ... : a rule for each form of expression.
-/

namespace IntScript

open Lexeme Peg

/-- From one place to another there are lexemes in `P`. -/
def Spans (P : List Lexeme → Prop) (c d : Cursor) : Prop :=
  c.Settled → ∃ ls, c.Passes ls d ∧ P ls

/-- Lexemes in `P`, and behind them lexemes in `Q`. -/
def Both (P Q : List Lexeme → Prop) (ls : List Lexeme) : Prop :=
  ∃ ls₁ ls₂, P ls₁ ∧ Q ls₂ ∧ ls = ls₁ ++ ls₂

/-- Lexemes in `P`, or none. -/
def Maybe (P : List Lexeme → Prop) (ls : List Lexeme) : Prop := ls = [] ∨ P ls

/-- A symbol, and behind it lexemes in `Q`. -/
def Token.Then (t : Token) (Q : List Lexeme → Prop) (ls : List Lexeme) : Prop :=
  ∃ ls', Q ls' ∧ ls = ⟨t, false⟩ :: ls'

/-- A word, and behind it lexemes in `Q`. -/
def WordThen (k : String) (Q : List Lexeme → Prop) (ls : List Lexeme) : Prop :=
  ∃ j ls', Q ls' ∧ ls = ⟨.word k, j⟩ :: ls'

/-- Lexemes in `P` between brackets. -/
def InParens (P : List Lexeme → Prop) (ls : List Lexeme) : Prop := ∃ ls', P ls' ∧ ls = inParens ls'

/-- A block between braces. -/
def InBraces (ls : List Lexeme) : Prop := ∃ ls', Derives .block ls' ∧ ls = inBraces ls'

/-- The lexemes are a name. -/
def IsIdent (ls : List Lexeme) : Prop := ∃ x j, IsName x ∧ ls = [⟨.word x, j⟩]

/-- The lexemes are an operator. -/
def IsOp (ls : List Lexeme) : Prop := ∃ o j, ls = [⟨.op o, j⟩]

/-- The lexemes are in `P`, one after the other. -/
def IsMany (P : List Lexeme → Prop) (ls : List Lexeme) : Prop :=
  ∃ lss : List (List Lexeme), (∀ ls ∈ lss, P ls) ∧ ls = lss.flatten

theorem IsMany.nil (P : List Lexeme → Prop) : IsMany P [] := ⟨[], by simp, rfl⟩

theorem IsMany.cons {P : List Lexeme → Prop} {ls ls' : List Lexeme} (h : P ls)
    (hs : IsMany P ls') : IsMany P (ls ++ ls') := by
  obtain ⟨lss, hlss, rfl⟩ := hs
  refine ⟨ls :: lss, ?_, rfl⟩
  rintro ls' (_ | ⟨_, hls'⟩)
  · exact h
  · exact hlss ls' hls'

/-- The lexemes are names with commas between them. -/
def IsParams : List Lexeme → Prop := Maybe (Both IsIdent (IsMany (Token.comma.Then IsIdent)))

/-- What a match of the rule amounts to. -/
def Sound : Rule → Cursor → Cursor → Prop
  | .endOfInput, c, _ => c.rest = []
  | .program, c, _ => Derives .block (lexemes c.rest)
  | .block, c, d => Spans (Derives .block) c d
  | .function, c, d | .variable, c, d | .loop, c, d | .conditional, c, d | .ret, c, d
  | .assignment, c, d => Spans (Derives .stmt) c d
  | .params, c, d => Spans IsParams c d
  | .disjunction, c, d | .conjunction, c, d | .equality, c, d | .relation, c, d | .sum, c, d
  | .product, c, d => Spans (Derives .expr) c d
  | .call, c, d | .literal, c, d => Spans (Derives .atom) c d
  | .args, c, d => Spans (Derives .args) c d
  | .orOp, c, d | .andOp, c, d | .eqOp, c, d | .relOp, c, d | .addOp, c, d
  | .mulOp, c, d => Spans IsOp c d
  | .identifier, c, d => Spans IsIdent c d
  | .callee, _, _ | .keyword, _, _ | .funWord, _, _ | .varWord, _, _ | .returnWord, _, _ => True

/-- If the rules are sound, a match of the expression spans lexemes in `P`. -/
def Yields (x : Peg Rule) (P : List Lexeme → Prop) : Prop :=
  ∀ c d, grammar.Means Sound x c d → Spans P c d

variable {x y : Peg Rule} {P Q : List Lexeme → Prop} {c d : Cursor} {k : String}

/-- No expression begins with an equals sign. -/
theorem not_startsExpr_of_equals (h : c.rest.head? = some '=') : ¬StartsExpr (lexemes c.rest) := by
  obtain ⟨rest, hrest⟩ := List.head?_eq_some_iff.1 h
  rintro ⟨l, ls, hls, hl⟩
  rw [hrest, lexemes_cons rfl] at hls
  cases hls
  by_cases hr : rest.head? = some '='
  · obtain ⟨rest', rfl⟩ := List.head?_eq_some_iff.1 hr
    rw [cut_equals_equals] at hl
    cases hl
  · rw [cut_equals hr] at hl
    cases hl

namespace Yields

/-- The lexemes that are spanned stand in a text. -/
theorem mono (h : Yields x P) (hPQ : ∀ ls rest, Linked (ls ++ rest) → P ls → Q ls) :
    Yields x Q := by
  intro c d hm hc
  obtain ⟨ls, hl, hP⟩ := h c d hm hc
  exact ⟨ls, hl, hPQ ls _ (hl.lexemes_eq ▸ linked_lexemes c.rest) hP⟩

theorem seq (hx : Yields x P) (hy : Yields y Q) : Yields (.seq x y) (Both P Q) := by
  rintro c d ⟨e, hme, hmd⟩ hc
  obtain ⟨ls₁, hl₁, h₁⟩ := hx c e hme hc
  obtain ⟨ls₂, hl₂, h₂⟩ := hy _ d hmd (afterLayout_settled e)
  exact ⟨ls₁ ++ ls₂, hl₁.trans hl₂.layout, ls₁, ls₂, h₁, h₂, rfl⟩

theorem alt (hx : Yields x P) (hy : Yields y P) : Yields (.alt x y) P := by
  rintro c d (h | h)
  · exact hx c d h
  · exact hy c d h

theorem opt (hx : Yields x P) : Yields (.opt x) (Maybe P) := by
  rintro c d (h | rfl) hc
  · obtain ⟨ls, hl, hP⟩ := hx c d h hc
    exact ⟨ls, hl, .inr hP⟩
  · exact ⟨[], .refl _, .inl rfl⟩

theorem steps (hx : Yields x P) (h : Relation.ReflTransGen (fun e e' =>
      e' = grammar.afterLayout false e ∨
        grammar.Means Sound x (grammar.afterLayout false e) e') c d) :
    ∃ ls, c.Passes ls d ∧ IsMany P ls := by
  induction h using Relation.ReflTransGen.head_induction_on with
  | refl => exact ⟨[], .refl d, .nil P⟩
  | head hstep _ ih =>
    obtain ⟨ls', hl', h'⟩ := ih
    rcases hstep with rfl | hstep
    · exact ⟨ls', hl'.layout, h'⟩
    · obtain ⟨ls, hl, h⟩ := hx _ _ hstep (afterLayout_settled _)
      exact ⟨ls ++ ls', hl.layout.trans hl', h'.cons h⟩

theorem many (hx : Yields x P) : Yields (.many x) (IsMany P) := by
  rintro c d (rfl | ⟨e, he, hs⟩) hc
  · exact ⟨[], .refl _, .nil P⟩
  · obtain ⟨ls, hl, h⟩ := hx c e he hc
    obtain ⟨ls', hl', h'⟩ := hx.steps hs
    exact ⟨ls ++ ls', hl.trans hl', h'.cons h⟩

/-- Where the characters of a solid token are passed, there is the token. -/
theorem solid {t : Token} (ht : t.Solid) (hj : ∀ rest, t.joins rest = false) :
    Yields (.text t.text) (· = [⟨t, false⟩]) := by
  intro c d h hc
  obtain ⟨j, hb⟩ := before_of_solid ht hc h
  have hjoin := hb.joined_eq
  rw [hj] at hjoin
  cases hjoin
  exact ⟨_, .single hc hb, rfl⟩

theorem solid_seq {t : Token} (ht : t.Solid) (hj : ∀ rest, t.joins rest = false)
    (hy : Yields y Q) : Yields (.seq (.text t.text) y) (t.Then Q) := by
  refine ((solid ht hj).seq hy).mono ?_
  rintro _ - - ⟨_, ls', rfl, h, rfl⟩
  exact ⟨ls', h, rfl⟩

/-- What stands between brackets. -/
theorem inParens (hx : Yields x P) : Yields (chain [string "(", x, string ")"]) (InParens P) := by
  refine (solid_seq Token.solid_openParen (fun _ => rfl)
    (hx.seq (solid Token.solid_closeParen fun _ => rfl))).mono ?_
  rintro _ - - ⟨_, ⟨ls', _, h, rfl, rfl⟩, rfl⟩
  exact ⟨ls', h, rfl⟩

/-- What stands between braces. -/
theorem inBraces : Yields bracedBlock InBraces := by
  have hblock : Yields (.rule .block) (Derives .block) := fun c d h => h
  refine (solid_seq Token.solid_openBrace (fun _ => rfl)
    (hblock.seq (solid Token.solid_closeBrace fun _ => rfl))).mono ?_
  rintro _ - - ⟨_, ⟨ls', _, h, rfl, rfl⟩, rfl⟩
  exact ⟨ls', h, rfl⟩

/-! ## Keywords -/

/-- Where a keyword is passed that is the whole word, it is the first lexeme. -/
theorem word_seq (hk : k ∈ keywords) (hy : Yields y Q) (hw : c.word = k.toList)
    (h : grammar.Means Sound (.seq (string k) y) c d) :
    ∃ j ls, c.Passes (⟨.word k, j⟩ :: ls) d ∧ Q ls := by
  obtain ⟨e, he, hm⟩ := h
  obtain ⟨hc, j, e', hb⟩ := before_of_keyword hk hw
  obtain rfl : e' = e := by rw [hb.advance_eq, (Cursor.eq_of_pass? he).2]; rfl
  obtain ⟨ls, hl, hQ⟩ := hy _ d hm (afterLayout_settled e')
  exact ⟨j, ls, .token hc hb hl.layout, hQ⟩

/-- A keyword ahead, and then the keyword. -/
theorem peek_seq {r : Rule} (hr : r.atomic = true) (hbody : r.body = wholeWord k)
    (hk : k ∈ keywords) (hy : Yields y Q) :
    Yields (.seq (.peek (.rule r)) (.seq (string k) y)) (WordThen k Q) := by
  rintro c d ⟨_, ⟨rfl, e, he⟩, hm⟩ hc
  rw [afterLayout_of_settled hc] at hm
  obtain ⟨j, ls, hl, hQ⟩ := word_seq hk hy (word_of_reaches hr hbody hk he) hm
  exact ⟨_, hl, j, ls, hQ, rfl⟩

/-- A keyword that something goes on with that no name character begins. -/
theorem wordSeq (hk : k ∈ keywords) (hy : Yields y Q)
    (hn : ∀ c d x rest, grammar.Means Sound y c d → c.rest = x :: rest → isNameChar x = false) :
    Yields (.seq (string k) y) (WordThen k Q) := by
  rintro c d ⟨e, he, hm⟩ hc
  have hw := word_of_pass? (all_isNameChar_keyword k hk) he
  have hnil : e.word = [] := by
    by_contra hne
    obtain ⟨x, rest, hr, hx⟩ := exists_of_word_ne_nil hne
    rw [afterLayout_of_settled (settled_of_isNameChar hr hx)] at hm
    rw [hn e d x rest hm hr] at hx
    cases hx
  rw [hnil, List.append_nil] at hw
  obtain ⟨j, ls, hl, hQ⟩ := word_seq hk hy hw ⟨e, he, hm⟩
  exact ⟨_, hl, j, ls, hQ, rfl⟩

/-- An equals sign that an expression goes on with is the sign of an assignment. -/
theorem equals_seq (hy : Yields y Q) (hQ : ∀ ls, Q ls → StartsExpr ls) :
    Yields (.seq (string "=") y) (Token.assign.Then Q) := by
  rintro c d ⟨e, he, hm⟩ hc
  obtain ⟨ls, hl, h⟩ := hy _ d hm (afterLayout_settled e)
  have hne : e.rest.head? ≠ some '=' := by
    intro hhead
    have hstarts := (hQ ls h).append (lexemes d.rest)
    rw [← hl.lexemes_eq, lexemes_afterLayout] at hstarts
    exact not_startsExpr_of_equals hhead hstarts
  have hx : c.rest = '=' :: e.rest := (Cursor.eq_of_pass? he).1
  obtain ⟨e', hb, -⟩ := before_of_cut hc hx (cut_equals hne)
  obtain rfl : e' = e := by rw [hb.advance_eq, (Cursor.eq_of_pass? he).2]; rfl
  exact ⟨_, .token hc hb hl.layout, ls, h, rfl⟩

end Yields

end IntScript
