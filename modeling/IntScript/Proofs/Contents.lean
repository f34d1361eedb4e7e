import IntScript.Proofs.Acceptance
import IntScript.Proofs.RoundTrip
import Mathlib.Data.List.Chain

/-!
# What a program contains

* `Content`, `contents` : the tokens of a text without its brackets, numbers as what they denote;
* `Reads.wellNamed` : the names that are read can be written as names;
* `Reads.contents` : what is read contains what was written;
* `parse_contents` : a text and the text of its block have the same contents.

A negative zero is left out: its sign is not part of its value.
-/

namespace IntScript

open Lexeme

/-! ## Contents -/

/-- What a token stands for. -/
inductive Content where
  | word (s : String)
  | number (n : Nat)
  | op (o : Op)
  | assign
  | openBrace
  | closeBrace
  | comma
  | other (c : Char)
deriving DecidableEq

/-- What a token stands for; brackets only group. -/
def Token.content? : Token → Option Content
  | .word s => some (.word s)
  | .number ds => some (.number (Nat.ofDigitChars 10 ds 0))
  | .op o => some (.op o)
  | .assign => some .assign
  | .openParen | .closeParen => none
  | .openBrace => some .openBrace
  | .closeBrace => some .closeBrace
  | .comma => some .comma
  | .other c => some (.other c)

/-- What lexemes stand for, in their order. -/
def contents (ls : List Lexeme) : List Content := ls.filterMap (·.token.content?)

/-- A minus sign and, joined to it, a number that denotes zero. -/
def Lexeme.isNegativeZero : Lexeme → Lexeme → Bool
  | ⟨.op .sub, true⟩, ⟨.number ds, _⟩ => Nat.ofDigitChars 10 ds 0 = 0
  | _, _ => false

/-- No minus sign is joined to a number that denotes zero. -/
def NoNegativeZero (ls : List Lexeme) : Prop :=
  ls.IsChain fun l l' => isNegativeZero l l' = false

instance (ls : List Lexeme) : Decidable (NoNegativeZero ls) :=
  inferInstanceAs (Decidable (ls.IsChain _))

variable {ls ls' : List Lexeme}

@[simp] theorem contents_nil : contents [] = [] := rfl

@[simp] theorem contents_append (ls ls' : List Lexeme) :
    contents (ls ++ ls') = contents ls ++ contents ls' :=
  List.filterMap_append

@[simp] theorem contents_cons (l : Lexeme) (ls : List Lexeme) :
    contents (l :: ls) = l.token.content?.toList ++ contents ls := by
  rw [contents, List.filterMap_cons]
  cases l.token.content? <;> rfl

@[simp] theorem contents_inParens (ls : List Lexeme) : contents (inParens ls) = contents ls := by
  simp [inParens, Token.content?]

@[simp] theorem contents_inBraces (ls : List Lexeme) :
    contents (inBraces ls) = .openBrace :: contents ls ++ [.closeBrace] := by
  simp [inBraces, Token.content?]

theorem NoNegativeZero.left (h : NoNegativeZero (ls ++ ls')) : NoNegativeZero ls :=
  h.left_of_append

theorem NoNegativeZero.right (h : NoNegativeZero (ls ++ ls')) : NoNegativeZero ls' :=
  h.right_of_append

theorem NoNegativeZero.tail {l : Lexeme} (h : NoNegativeZero (l :: ls)) : NoNegativeZero ls :=
  List.IsChain.tail h

theorem NoNegativeZero.inner {l r : Lexeme} (h : NoNegativeZero (l :: ls ++ [r])) :
    NoNegativeZero ls :=
  h.tail.left

/-! ## Literals -/

theorem toInt_of_literalValue {ds : List Char} {v : Int64} (h : literalValue ds = .ok v) :
    v.toInt = Decimal.toInt ds := by
  rw [literalValue, Decimal.toInt64?] at h
  split at h
  · next w hw =>
    split at hw
    · next hr =>
      cases hw
      cases h
      exact Int64.toInt_ofInt_of_le hr.1 (Int.lt_add_one_of_le hr.2)
    · cases hw
  · cases h

theorem contents_literal (v : Int64) : contents (Expr.lit v).lexemes =
    if v < 0 then [.op .sub, .number v.toInt.natAbs] else [.number v.toInt.natAbs] := by
  have hd : Nat.ofDigitChars 10 (digits v) 0 = v.toInt.natAbs :=
    Nat.ofDigitChars_toDigits (by decide) (by decide)
  rw [Expr.lexemes]
  split <;> simp [Token.content?, hd]

theorem contents_number {ds : List Char} {v : Int64} (hd : IsNumber ds)
    (h : literalValue ds = .ok v) :
    contents [⟨.number ds, false⟩] = contents (Expr.lit v).lexemes := by
  have hv := toInt_of_literalValue h
  rw [Decimal.toInt_of_isDigit hd.2] at hv
  have hneg : ¬v < 0 := by
    rw [Int64.lt_iff_toInt_lt, hv, Int64.toInt_zero]
    omega
  rw [contents_literal, if_neg hneg, hv, Int.natAbs_natCast]
  rfl

theorem contents_negative {ds : List Char} {v : Int64}
    (hz : NoNegativeZero [⟨.op .sub, true⟩, ⟨.number ds, false⟩])
    (h : literalValue ('-' :: ds) = .ok v) :
    contents [⟨.op .sub, true⟩, ⟨.number ds, false⟩] = contents (Expr.lit v).lexemes := by
  have hv : v.toInt = -(Nat.ofDigitChars 10 ds 0 : Int) := toInt_of_literalValue h
  have hpos : Nat.ofDigitChars 10 ds 0 ≠ 0 := by
    simpa [NoNegativeZero, isNegativeZero] using hz
  have hneg : v < 0 := by
    rw [Int64.lt_iff_toInt_lt, hv, Int64.toInt_zero]
    omega
  rw [contents_literal, if_pos hneg, hv, Int.natAbs_neg, Int.natAbs_natCast]
  rfl

/-! ## Readings -/

theorem eq_ok_of_bind {α β : Type} {v : Except ParseError α} {f : α → Except ParseError β} {y : β}
    (h : v >>= f = .ok y) : ∃ x, v = .ok x ∧ f x = .ok y := by
  cases v with
  | ok x => exact ⟨x, rfl, h⟩
  | error e => cases h

/-- Each name of the phrase can be written as one. -/
def Kind.WellNamed : (k : Kind) → k.Value → Prop
  | .operand, e | .level _, e => Expr.WellNamed e
  | .items, es | .args, es => Expr.ListWellNamed es
  | .stmt _, s => Stmt.WellNamed s
  | .block, b => Block.WellNamed b

/-- The lexemes that the phrase is rendered with. -/
def Kind.lexemes : (k : Kind) → k.Value → List Lexeme
  | .operand, e | .level _, e => Expr.lexemes e
  | .items, es | .args, es => Expr.listLexemes es
  | .stmt _, s => Stmt.lexemes s
  | .block, b => Block.lexemes b

/-- The names that are read can be written as names. -/
theorem Reads.wellNamed {k : Kind} {v : Except ParseError k.Value} (h : Reads k ls v) :
    ∀ t, v = .ok t → k.WellNamed t := by
  induction h with
  | name hx | declare hx =>
    intro t ht
    cases ht
    exact hx
  | noArgs | nil =>
    intro t ht
    cases ht
    trivial
  | number | negative =>
    intro t ht
    obtain ⟨v, -, ht⟩ := eq_ok_of_bind ht
    cases ht
    trivial
  | bracket _ ih | tight _ ih | loose _ _ ih | someArgs _ ih => exact ih
  | call hx _ ih | define hx _ ih | assign hx _ ih =>
    intro t ht
    obtain ⟨a, ha, ht⟩ := eq_ok_of_bind ht
    cases ht
    exact ⟨hx, ih a ha⟩
  | ret _ ih | expr _ ih =>
    intro t ht
    obtain ⟨a, ha, ht⟩ := eq_ok_of_bind ht
    cases ht
    exact ih a ha
  | oneItem _ ih =>
    intro t ht
    obtain ⟨a, ha, ht⟩ := eq_ok_of_bind ht
    cases ht
    exact ⟨ih a ha, trivial⟩
  | function hf hp _ ih =>
    intro t ht
    obtain ⟨a, ha, ht⟩ := eq_ok_of_bind ht
    cases ht
    exact ⟨hf, hp, ih a ha⟩
  | bin _ _ _ ih ih' | moreItems _ _ ih ih' | loop _ _ ih ih' | ifThen _ _ ih ih'
  | cons _ _ _ ih ih' =>
    intro t ht
    obtain ⟨a, ha, ht⟩ := eq_ok_of_bind ht
    obtain ⟨b, hb, ht⟩ := eq_ok_of_bind ht
    cases ht
    exact ⟨ih a ha, ih' b hb⟩
  | ifElse _ _ _ ih ih' ih'' =>
    intro t ht
    obtain ⟨a, ha, ht⟩ := eq_ok_of_bind ht
    obtain ⟨b, hb, ht⟩ := eq_ok_of_bind ht
    obtain ⟨c, hc, ht⟩ := eq_ok_of_bind ht
    cases ht
    exact ⟨ih a ha, ih' b hb, ih'' c hc⟩

theorem contents_listLexemes_cons (e : Expr) {es : List Expr} (h : es ≠ []) :
    contents (Expr.listLexemes (e :: es)) =
      contents e.lexemes ++ .comma :: contents (Expr.listLexemes es) := by
  cases es with
  | nil => exact absurd rfl h
  | cons e' es => simp [Expr.listLexemes, Token.content?]

theorem Reads.items_ne_nil {vs : Except ParseError (List Expr)} {es : List Expr}
    (h : Reads .items ls vs) (hes : vs = .ok es) : es ≠ [] := by
  cases h with
  | oneItem =>
    obtain ⟨a, -, hes⟩ := eq_ok_of_bind hes
    cases hes
    simp
  | moreItems =>
    obtain ⟨a, -, hes⟩ := eq_ok_of_bind hes
    obtain ⟨b, -, hes⟩ := eq_ok_of_bind hes
    cases hes
    simp

/-- What is read contains what was written. -/
theorem Reads.contents {k : Kind} {v : Except ParseError k.Value} (h : Reads k ls v) :
    NoNegativeZero ls → ∀ t, v = .ok t → contents ls = contents (k.lexemes t) := by
  induction h with
  | name | declare | noArgs | nil =>
    intro _ t ht
    cases ht
    rfl
  | number hd =>
    intro _ t ht
    obtain ⟨v, hv, ht⟩ := eq_ok_of_bind ht
    cases ht
    exact contents_number hd hv
  | negative =>
    intro hz t ht
    obtain ⟨v, hv, ht⟩ := eq_ok_of_bind ht
    cases ht
    exact contents_negative hz hv
  | bracket _ ih =>
    intro hz t ht
    rw [contents_inParens]
    exact ih hz.inner t ht
  | tight _ ih | loose _ _ ih | someArgs _ ih => exact ih
  | call _ _ ih =>
    intro hz t ht
    obtain ⟨a, ha, ht⟩ := eq_ok_of_bind ht
    cases ht
    have hargs := ih hz.tail.inner a ha
    simp [Kind.lexemes, Expr.lexemes, hargs]
  | bin _ _ _ ih ih' =>
    intro hz t ht
    obtain ⟨a, ha, ht⟩ := eq_ok_of_bind ht
    obtain ⟨b, hb, ht⟩ := eq_ok_of_bind ht
    cases ht
    have hl := ih hz.left a ha
    have hr := ih' hz.right.tail b hb
    simp [Kind.lexemes, Expr.lexemes, hl, hr, Token.content?]
  | oneItem _ ih =>
    intro hz t ht
    obtain ⟨a, ha, ht⟩ := eq_ok_of_bind ht
    cases ht
    exact ih hz a ha
  | moreItems _ hs ih ih' =>
    intro hz t ht
    obtain ⟨a, ha, ht⟩ := eq_ok_of_bind ht
    obtain ⟨b, hb, ht⟩ := eq_ok_of_bind ht
    cases ht
    have hl := ih hz.left a ha
    have hr := ih' hz.right.tail b hb
    refine Eq.trans ?_ (contents_listLexemes_cons a (hs.items_ne_nil hb)).symm
    rw [contents_append, hl, contents_cons, hr]
    rfl
  | function _ _ _ ih =>
    intro hz t ht
    obtain ⟨a, ha, ht⟩ := eq_ok_of_bind ht
    cases ht
    have hb := ih hz.right.inner a ha
    simp [Kind.lexemes, Stmt.lexemes, hb, Token.content?]
  | define _ _ ih =>
    intro hz t ht
    obtain ⟨a, ha, ht⟩ := eq_ok_of_bind ht
    cases ht
    have he := ih hz.tail.tail.tail a ha
    simp [Kind.lexemes, Stmt.lexemes, he, Token.content?]
  | assign _ _ ih =>
    intro hz t ht
    obtain ⟨a, ha, ht⟩ := eq_ok_of_bind ht
    cases ht
    have he := ih hz.tail.tail a ha
    simp [Kind.lexemes, Stmt.lexemes, he, Token.content?]
  | ret _ ih =>
    intro hz t ht
    obtain ⟨a, ha, ht⟩ := eq_ok_of_bind ht
    cases ht
    have he := ih hz.tail a ha
    simp [Kind.lexemes, Stmt.lexemes, he, Token.content?]
  | expr _ ih =>
    intro hz t ht
    obtain ⟨a, ha, ht⟩ := eq_ok_of_bind ht
    cases ht
    exact ih hz a ha
  | loop _ _ ih ih' | ifThen _ _ ih ih' =>
    intro hz t ht
    obtain ⟨a, ha, ht⟩ := eq_ok_of_bind ht
    obtain ⟨b, hb, ht⟩ := eq_ok_of_bind ht
    cases ht
    have hc := ih hz.left.tail.inner a ha
    have hbody := ih' hz.right.inner b hb
    simp [Kind.lexemes, Stmt.lexemes, hc, hbody, Token.content?]
  | ifElse _ _ _ ih ih' ih'' =>
    intro hz t ht
    obtain ⟨a, ha, ht⟩ := eq_ok_of_bind ht
    obtain ⟨b, hb, ht⟩ := eq_ok_of_bind ht
    obtain ⟨c, hc, ht⟩ := eq_ok_of_bind ht
    cases ht
    have hcond := ih hz.left.left.tail.inner a ha
    have hthen := ih' hz.left.right.inner b hb
    have helse := ih'' hz.right.tail.inner c hc
    simp [Kind.lexemes, Stmt.lexemes, hcond, hthen, helse, Token.content?]
  | cons _ _ _ ih ih' =>
    intro hz t ht
    obtain ⟨a, ha, ht⟩ := eq_ok_of_bind ht
    obtain ⟨b, hb, ht⟩ := eq_ok_of_bind ht
    cases ht
    have hs := ih hz.left a ha
    have hrest := ih' hz.right b hb
    simp [Kind.lexemes, Block.lexemes, hs, hrest]

/-! ## Texts -/

/-- **Contents**: a text that is parsed and the text of its block have the same contents, in the
same order. -/
theorem parse_contents {s : String} {b : Block} (h : parse s = .ok b)
    (hz : NoNegativeZero (lexemes s.toList)) :
    contents (lexemes (Block.render b).toList) = contents (lexemes s.toList) := by
  have hr := parse_reads h
  rw [Block.lexemes_render (hr.wellNamed b rfl)]
  exact (hr.contents hz b rfl).symm

/-- A bracket, the zeros in front of a number and a comment are no contents. -/
theorem parse_contents_grouped :
    parse "x = a -(007) // y" = .ok [.assign "x" (.bin .sub (.ident "a") (.lit 7))] ∧
      NoNegativeZero (lexemes "x = a -(007) // y".toList) ∧
      contents (lexemes (Block.render [.assign "x" (.bin .sub (.ident "a") (.lit 7))]).toList) =
        contents (lexemes "x = a -(007) // y".toList) := by
  have hp : parse "x = a -(007) // y" = .ok [.assign "x" (.bin .sub (.ident "a") (.lit 7))] := by
    decide +kernel
  have hz : NoNegativeZero (lexemes "x = a -(007) // y".toList) := by
    decide +kernel
  exact ⟨hp, hz, parse_contents hp hz⟩

end IntScript
