import IntScript.Proofs.Grammar.Levels
import IntScript.Proofs.Syntax.Derivation

/-!
# Readings

A reading of lexemes is what the parser makes of them: levels of operators instead of flat chains,
and no statement that goes on where the next one begins.

* `Kind` : the kinds of phrases that are read, `Kind.Value` what they are read as;
* `Reads k ls v` : the lexemes `ls` are read as the phrase `v`, or as the error `v`.
-/

namespace IntScript

open Lexeme

/-- The kinds of phrases that are read. -/
inductive Kind where
  | operand
  /-- Operators of a level and of the tighter ones. -/
  | level (k : Nat)
  | items
  | args
  /-- A statement, `ends` if no operator could go on with it. -/
  | stmt (ends : Bool)
  | block

/-- What a phrase is read as. -/
def Kind.Value : Kind → Type
  | .operand | .level _ => Expr
  | .items | .args => List Expr
  | .stmt _ => Stmt
  | .block => List Stmt

/-- The lexemes begin with an operator. -/
def StartsOp (ls : List Lexeme) : Prop := ∃ o j rest, ls = ⟨.op o, j⟩ :: rest

/-- What lexemes are read as. -/
inductive Reads : (k : Kind) → List Lexeme → Except ParseError k.Value → Prop where
  | name {x : String} (hx : IsName x) : Reads .operand [⟨.word x, false⟩] (.ok (Expr.ident x))
  | number {ds : List Char} (hd : IsNumber ds) :
    Reads .operand [⟨.number ds, false⟩] (do .ok (Expr.lit (← literalValue ds)))
  | negative {ds : List Char} (hd : IsNumber ds) :
    Reads .operand [⟨.op .sub, true⟩, ⟨.number ds, false⟩]
      (do .ok (Expr.lit (← literalValue ('-' :: ds))))
  | bracket {ls : List Lexeme} {v : Except ParseError Expr} (h : Reads (.level 0) ls v) :
    Reads .operand (inParens ls) v
  | call {f : String} {ls : List Lexeme} {vs : Except ParseError (List Expr)} (hf : IsName f)
    (h : Reads .args ls vs) :
    Reads .operand (⟨.word f, true⟩ :: inParens ls) (do .ok (Expr.call f (← vs)))
  | tight {ls : List Lexeme} {v : Except ParseError Expr} (h : Reads .operand ls v) :
    Reads (.level 6) ls v
  | loose {k : Nat} {ls : List Lexeme} {v : Except ParseError Expr} (hk : k < 6)
    (h : Reads (.level (k + 1)) ls v) : Reads (.level k) ls v
  | bin {k : Nat} {o : Op} {j : Bool} {ls ls' : List Lexeme} {v w : Except ParseError Expr}
    (hk : o.level = k) (hl : Reads (.level k) ls v) (hr : Reads (.level (k + 1)) ls' w) :
    Reads (.level k) (ls ++ ⟨.op o, j⟩ :: ls') (do .ok (Expr.bin o (← v) (← w)))
  | oneItem {ls : List Lexeme} {v : Except ParseError Expr} (h : Reads (.level 0) ls v) :
    Reads .items ls (do .ok ([← v] : List Expr))
  | moreItems {ls ls' : List Lexeme} {v : Except ParseError Expr}
    {vs : Except ParseError (List Expr)} (h : Reads (.level 0) ls v) (hs : Reads .items ls' vs) :
    Reads .items (ls ++ ⟨.comma, false⟩ :: ls') (do .ok ((← v) :: (← vs) : List Expr))
  | noArgs : Reads .args [] (.ok ([] : List Expr))
  | someArgs {ls : List Lexeme} {vs : Except ParseError (List Expr)} (h : Reads .items ls vs) :
    Reads .args ls vs
  | function {f : String} {ps : List String} {ls : List Lexeme} {j k : Bool}
    {v : Except ParseError Block} (hf : IsName f) (hp : ∀ p ∈ ps, IsName p)
    (hb : Reads .block ls v) :
    Reads (.stmt true) (⟨.word "fun", j⟩ :: ⟨.word f, k⟩ :: inParens (names ps) ++ inBraces ls)
      (do .ok (Stmt.function f ps (← v)))
  | declare {x : String} {j k : Bool} (hx : IsName x) :
    Reads (.stmt true) [⟨.word "var", j⟩, ⟨.word x, k⟩] (.ok (Stmt.var x none))
  | define {x : String} {ls : List Lexeme} {j : Bool} {v : Except ParseError Expr} (hx : IsName x)
    (h : Reads (.level 0) ls v) :
    Reads (.stmt false) (⟨.word "var", j⟩ :: ⟨.word x, false⟩ :: ⟨.assign, false⟩ :: ls)
      (do .ok (Stmt.var x (some (← v))))
  | loop {ls ls' : List Lexeme} {j : Bool} {v : Except ParseError Expr}
    {w : Except ParseError Block} (hc : Reads (.level 0) ls v) (hb : Reads .block ls' w) :
    Reads (.stmt true) (⟨.word "while", j⟩ :: inParens ls ++ inBraces ls')
      (do .ok (Stmt.loop (← v) (← w)))
  | ifThen {ls ls' : List Lexeme} {j : Bool} {v : Except ParseError Expr}
    {w : Except ParseError Block} (hc : Reads (.level 0) ls v) (hb : Reads .block ls' w) :
    Reads (.stmt true) (⟨.word "if", j⟩ :: inParens ls ++ inBraces ls')
      (do .ok (Stmt.ifThen (← v) (← w)))
  | ifElse {ls ls' ls'' : List Lexeme} {j k : Bool} {v : Except ParseError Expr}
    {w w' : Except ParseError Block} (hc : Reads (.level 0) ls v) (hb : Reads .block ls' w)
    (hb' : Reads .block ls'' w') :
    Reads (.stmt true)
      (⟨.word "if", j⟩ :: inParens ls ++ inBraces ls' ++ ⟨.word "else", k⟩ :: inBraces ls'')
      (do .ok (Stmt.ifElse (← v) (← w) (← w')))
  | ret {ls : List Lexeme} {j : Bool} {v : Except ParseError Expr} (h : Reads (.level 0) ls v) :
    Reads (.stmt false) (⟨.word "return", j⟩ :: ls) (do .ok (Stmt.ret (← v)))
  | assign {x : String} {ls : List Lexeme} {v : Except ParseError Expr} (hx : IsName x)
    (h : Reads (.level 0) ls v) :
    Reads (.stmt false) (⟨.word x, false⟩ :: ⟨.assign, false⟩ :: ls)
      (do .ok (Stmt.assign x (← v)))
  | expr {ls : List Lexeme} {v : Except ParseError Expr} (h : Reads (.level 0) ls v) :
    Reads (.stmt false) ls (do .ok (Stmt.expr (← v)))
  | nil : Reads .block [] (.ok ([] : List Stmt))
  | cons {ends : Bool} {ls ls' : List Lexeme} {v : Except ParseError Stmt}
    {vs : Except ParseError (List Stmt)} (h : Reads (.stmt ends) ls v) (hs : Reads .block ls' vs)
    (hn : ends = true ∨ ¬StartsOp ls') :
    Reads .block (ls ++ ls') (do .ok ((← v) :: (← vs) : List Stmt))

namespace Reads

variable {K : Kind} {k : Nat} {o : Op} {j : Bool} {ls ls' : List Lexeme}
  {v w : Except ParseError Expr}

/-! ## Flat chains -/

/-- A chain of a tighter level is one of a looser level. -/
theorem of_level {k' : Nat} (h : Reads (.level k') ls v) (hk : k ≤ k') (hk' : k' ≤ 6) :
    Reads (.level k) ls v := by
  induction hk using Nat.decreasingInduction with
  | self => exact h
  | of_succ k hk ih => exact .loose (by omega) ih

theorem of_operand (h : Reads .operand ls v) (hk : k ≤ 6) : Reads (.level k) ls v :=
  .of_level (.tight h) hk (Nat.le_refl 6)

theorem push_level {u : Except ParseError K.Value} (h : Reads K ls u) (hK : K = .level k)
    (hk : k ≤ o.level) (hr : Reads .operand ls' w) :
    ∃ u', Reads (.level k) (ls ++ ⟨.op o, j⟩ :: ls') u' := by
  induction h generalizing k with
  | tight h =>
    cases hK
    exact absurd hk (Nat.not_le_of_lt o.level_lt)
  | @loose k' _ _ hk' h ih =>
    cases hK
    by_cases ho : o.level = k'
    · exact ⟨_, .bin ho (.loose hk' h) (of_operand hr hk')⟩
    · obtain ⟨u', hu⟩ := ih rfl (by omega)
      exact ⟨u', .loose hk' hu⟩
  | @bin k' o' j' ls₁ ls₂ _ _ hk' hl hr' _ ihr =>
    cases hK
    have hlt := o'.level_lt
    by_cases ho : o.level = k'
    · exact ⟨_, .bin ho (.bin hk' hl hr') (of_operand hr (by omega))⟩
    · obtain ⟨u', hu⟩ := ihr rfl (by omega)
      rw [List.append_assoc, List.cons_append]
      exact ⟨_, .bin hk' hl hu⟩
  | _ => cases hK

/-- A chain goes on with one more operator and its right operand. -/
theorem push (h : Reads (.level 0) ls v) (hr : Reads .operand ls' w) :
    ∃ u, Reads (.level 0) (ls ++ ⟨.op o, j⟩ :: ls') u :=
  push_level h rfl (Nat.zero_le _) hr

end Reads

/-- Operators and their right operands. -/
inductive Tail : List Lexeme → Prop where
  | nil : Tail []
  | cons {o : Op} {j : Bool} {ls t : List Lexeme} {v : Except ParseError Expr}
    (h : Reads .operand ls v) (ht : Tail t) : Tail (⟨.op o, j⟩ :: ls ++ t)

theorem Tail.append {t t' : List Lexeme} (h : Tail t) (h' : Tail t') : Tail (t ++ t') := by
  induction h with
  | nil => exact h'
  | cons h _ ih =>
    rw [List.append_assoc]
    exact .cons h ih

namespace Reads

variable {K : Kind} {ls t : List Lexeme} {v : Except ParseError Expr}

theorem push_tail (h : Reads (.level 0) ls v) (ht : Tail t) :
    ∃ u, Reads (.level 0) (ls ++ t) u := by
  induction ht generalizing ls v with
  | nil => exact ⟨v, by rwa [List.append_nil]⟩
  | cons ha _ ih =>
    obtain ⟨u, hu⟩ := push h ha
    rw [← List.append_assoc]
    exact ih hu

theorem lead_level {k : Nat} {u : Except ParseError K.Value} (h : Reads K ls u)
    (hK : K = .level k) : ∃ a t w, ls = a ++ t ∧ Reads .operand a w ∧ Tail t := by
  induction h generalizing k with
  | tight h => exact ⟨_, [], _, (List.append_nil _).symm, h, .nil⟩
  | loose _ _ ih => exact ih rfl
  | @bin _ o j _ _ _ _ _ _ _ ihl ihr =>
    obtain ⟨a, t, w, rfl, ha, ht⟩ := ihl rfl
    obtain ⟨a', t', w', rfl, ha', ht'⟩ := ihr rfl
    exact ⟨a, t ++ (⟨.op o, j⟩ :: a' ++ t'), w, by simp, ha, ht.append (.cons ha' ht')⟩
  | _ => cases hK

/-- An expression begins with an operand and goes on with operators. -/
theorem lead {k : Nat} (h : Reads (.level k) ls v) :
    ∃ a t w, ls = a ++ t ∧ Reads .operand a w ∧ Tail t :=
  lead_level h rfl

end Reads

/-! ## How phrases begin -/

namespace Reads

variable {k : Nat} {ls : List Lexeme} {v : Except ParseError Expr}

theorem startsExpr_operand (h : Reads .operand ls v) : StartsExpr ls := by
  cases h with
  | name hx => exact startsExpr_word hx
  | call hf => exact startsExpr_word hf
  | number | negative | bracket => exact ⟨_, _, rfl, rfl⟩

theorem startsExpr (h : Reads (.level k) ls v) : StartsExpr ls := by
  obtain ⟨a, t, w, rfl, ha, -⟩ := h.lead
  exact ha.startsExpr_operand.append t

theorem startsStmt {ends : Bool} {u : Except ParseError Stmt} (h : Reads (.stmt ends) ls u) :
    ∃ l rest, ls = l :: rest ∧ l.token.startsStmt = true := by
  cases h with
  | assign hx =>
    exact ⟨_, _, rfl, Token.startsStmt_of_startsExpr (by simpa [Token.startsExpr] using hx.2)⟩
  | expr h =>
    obtain ⟨l, rest, rfl, hl⟩ := h.startsExpr
    exact ⟨l, rest, rfl, Token.startsStmt_of_startsExpr hl⟩
  | function | declare | define | loop | ifThen | ifElse | ret => exact ⟨_, _, rfl, rfl⟩

end Reads

end IntScript
