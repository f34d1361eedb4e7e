import IntScript.Proofs.Grammar.Statements
import IntScript.Proofs.Peg.Telling

/-!
# What a failure asks for

The rules at the furthest place come in a few combinations. Most attempts fail where they begin, or
come to an end with the operators that could go on with them. The others get further than what is
made of the text in the end, and the lexeme behind that is then one that nothing begins with, or a
bracket that the next attempt cannot close, either.

* `Asked` : the combinations; `Lists t a` : the record lists the rules of one;
* `Inside t` : it lists what is asked for inside a text;
* `Unclosed c t` : a bracket opens at the place and is not closed, `t` is what is reported inside;
* `ListsOps k n t` : the record comes to the place `n` and lists the operators from the level `k` on;
* `Halts B c t` : the record is further on than the place, behind which nothing goes on;
* `Told r c o t` : what is known of an attempt at the rule `r`;
* `tries_simple` : rules with nothing inside report themselves.
-/

namespace IntScript

open Lexeme Peg Furthest

variable {t t' t₀ : Furthest Rule} {a : Asked} {c d : Cursor} {o : Option Cursor} {k n : Nat}
  {r : Rule} {B B' : Lexeme → Prop}

/-! ## Combinations -/

/-- The rules for operators, in the order of messages. -/
def operatorRules : List Rule := [.orOp, .andOp, .eqOp, .relOp, .addOp, .mulOp]

/-- What a failure asks for. -/
inductive Asked where
  | program
  | identifier
  | product
  | operand
  | operators
  /-- Another statement; or the end of the text, or an operator behind the last statement. A function
  is asked for as a whole where its keyword is there. -/
  | statement (atEnd operators function : Bool)
deriving DecidableEq

namespace Asked

/-- The rules of the combination, in the order of messages. -/
def rules : Asked → List Rule
  | .program => [.program]
  | .identifier => [.identifier]
  | .product => [.product]
  | .operand => [.callee, .literal, .identifier]
  | .operators => operatorRules
  | .statement atEnd ops fn =>
    (if atEnd then [.endOfInput] else []) ++ (if fn then [.function] else []) ++
      [.loop, .conditional, .product] ++ (if ops then operatorRules else []) ++
      [.identifier] ++ (if fn then [] else [.funWord]) ++ [.varWord, .returnWord]

/-- It is asked for inside a text, and not for the whole or at its end. -/
def inner : Asked → Bool
  | .program | .statement true _ _ => false
  | _ => true

theorem rules_ne_nil (a : Asked) : a.rules ≠ [] := by
  rcases a with _ | _ | _ | _ | _ | ⟨_ | _, _ | _, _ | _⟩ <;> decide

theorem not_mem_rules_of_inner (a : Asked) (h : a.inner = true) :
    a ≠ .program ∧ .endOfInput ∉ a.rules := by
  rcases a with _ | _ | _ | _ | _ | ⟨_ | _, _ | _, _ | _⟩ <;> revert h <;> decide

/-- The rules are listed in the order of messages. -/
theorem filter_rules (a : Asked) : Rule.all.filter (· ∈ a.rules) = a.rules := by
  rcases a with _ | _ | _ | _ | _ | ⟨_ | _, _ | _, _ | _⟩ <;> decide

end Asked

/-- The record lists the rules of the combination. -/
def Lists (t : Furthest Rule) (a : Asked) : Prop := ∀ r, r ∈ t.expected ↔ r ∈ a.rules

theorem lists_listed {rs : List Rule} (h : ∀ r, r ∈ rs ↔ r ∈ a.rules) : Lists (listed n rs) a := h

/-- The record lists what is asked for inside a text. -/
def Inside (t : Furthest Rule) : Prop := ∃ a, a.inner = true ∧ Lists t a

theorem inside_listed (ha : a.inner = true) : Inside (listed n a.rules) := ⟨a, ha, fun _ => .rfl⟩

theorem Inside.absorb (h : Inside t) (ht : t.Absorbs t') : Inside (t.join t') := by
  obtain ⟨a, ha, hl⟩ := h
  exact ⟨a, ha, fun r => (ht.join.2 r).trans (hl r)⟩

/-! ## Rules with nothing inside -/

/-- A rule with no rules inside reports itself, if it fails. -/
theorem tries_simple (hr : r.atomic = true ∨ r.body.noRules = true)
    (h : grammar.Tries false false (.rule r) c o t) :
    t = if o.isSome then .initial else listed c.offset [r] := by
  cases h with
  | @rule _ _ _ _ _ t _ h ht =>
    have hinitial : t = .initial := by
      rcases hr with hr | hr
      · exact h.eq_initial_of_atomic ((Bool.false_or _).trans hr)
      · exact h.eq_initial_of_noRules hr
    rw [ht, hinitial]
    cases o with
    | none => exact ofRule_initial c.offset r
    | some d => rfl

/-! ## Operators -/

/-- The record comes to the place `n` at the furthest, and there it lists the rules for operators
from the level `k` on. -/
def ListsOps (k n : Nat) (t : Furthest Rule) : Prop :=
  t.offset ≤ n ∧ ∀ r, t.offset = n ∧ r ∈ t.expected ↔ ∃ i, k ≤ i ∧ i < 6 ∧ r = opRule i

theorem exists_opRule (r : Rule) :
    (∃ i, 0 ≤ i ∧ i < 6 ∧ r = opRule i) ↔ r ∈ operatorRules := by
  constructor
  · rintro ⟨i, -, hi, rfl⟩
    interval_cases i <;> decide
  · intro hr
    simp only [operatorRules, List.mem_cons, List.not_mem_nil, or_false] at hr
    rcases hr with rfl | rfl | rfl | rfl | rfl | rfl
    exacts [⟨0, by decide, by decide, rfl⟩, ⟨1, by decide, by decide, rfl⟩,
      ⟨2, by decide, by decide, rfl⟩, ⟨3, by decide, by decide, rfl⟩,
      ⟨4, by decide, by decide, rfl⟩, ⟨5, by decide, by decide, rfl⟩]

namespace ListsOps

/-- In front of the place anything is listed. -/
theorem of_lt (h : t.offset < n) : ListsOps 6 n t :=
  ⟨Nat.le_of_lt h, fun r => ⟨fun hr => absurd hr.1 (Nat.ne_of_lt h), fun ⟨i, hi, hi', _⟩ => by omega⟩⟩

theorem initial (n : Nat) : ListsOps 6 n .initial :=
  ⟨Nat.zero_le n, fun r => ⟨fun hr => absurd hr.2 List.not_mem_nil, fun ⟨i, hi, hi', _⟩ => by omega⟩⟩

/-- What was reported before is in front of the place. -/
theorem join_left (h : ListsOps k n t) (h₀ : t₀.offset < n) : ListsOps k n (t₀.join t) := by
  rcases Nat.lt_or_eq_of_le h.1 with hlt | heq
  · have hjoin : (t₀.join t).offset < n := by rw [offset_join]; omega
    refine ⟨Nat.le_of_lt hjoin, fun r => ?_⟩
    rw [← h.2 r]
    exact ⟨fun hr => absurd hr.1 (Nat.ne_of_lt hjoin), fun hr => absurd hr.1 (Nat.ne_of_lt hlt)⟩
  · rwa [join_of_lt (by omega)]

/-- Other rules are tried at the place. -/
theorem join_listed (h : ListsOps k n t) (rs : List Rule) :
    (t.join (listed n rs)).offset = n ∧ ∀ r, r ∈ (t.join (listed n rs)).expected ↔
      (∃ i, k ≤ i ∧ i < 6 ∧ r = opRule i) ∨ r ∈ rs := by
  refine ⟨by rw [offset_join]; exact Nat.max_eq_right h.1, fun r => ?_⟩
  rw [← h.2 r]
  rcases Nat.lt_or_eq_of_le h.1 with hlt | heq
  · rw [join_of_lt (by exact hlt)]
    simp [listed, Nat.ne_of_lt hlt]
  · rw [join_of_eq (by exact heq)]
    simp [listed, heq]

/-- One more level is tried at the place. -/
theorem step (h : ListsOps (k + 1) n t) (hk : k < 6) :
    ListsOps k n (t.join (listed n [opRule k])) := by
  obtain ⟨hoffset, hmem⟩ := h.join_listed [opRule k]
  refine ⟨Nat.le_of_eq hoffset, fun r => ?_⟩
  rw [and_iff_right hoffset, hmem r, List.mem_singleton]
  constructor
  · rintro (⟨i, hi, hi', hr⟩ | hr)
    · exact ⟨i, Nat.le_of_succ_le hi, hi', hr⟩
    · exact ⟨k, Nat.le_refl k, hk, hr⟩
  · rintro ⟨i, hi, hi', hr⟩
    rcases Nat.lt_or_eq_of_le hi with hi | rfl
    · exact .inl ⟨i, hi, hi', hr⟩
    · exact .inr hr

/-- At the end of an expression all operators are listed. -/
theorem lists (h : ListsOps 0 n t) : t.offset = n ∧ Lists t .operators := by
  have hn : t.offset = n := ((h.2 .orOp).2 ⟨0, Nat.le_refl 0, by decide, rfl⟩).1
  exact ⟨hn, fun r => ⟨fun hr => (exists_opRule r).1 ((h.2 r).1 ⟨hn, hr⟩),
    fun hr => ((h.2 r).2 ((exists_opRule r).2 hr)).2⟩⟩

theorem inside (h : ListsOps 0 n t) : Inside t := ⟨.operators, rfl, h.lists.2⟩

end ListsOps

/-! ## Halting -/

/-- A bracket opens at the place and is not closed behind its expression, and `t` is what the
expression reports. -/
def Unclosed (c : Cursor) (t : Furthest Rule) : Prop :=
  c.Settled ∧ ∃ p o, c.Before ⟨.openParen, false⟩ p ∧
    grammar.Tries false false expression (grammar.afterLayout false p) o t ∧
    ∀ e, o = some e → ¬BeforeParen (lexemes e.rest)

theorem Unclosed.unique (h : Unclosed c t) (h' : Unclosed c t') : t = t' := by
  obtain ⟨-, p, o, hb, ht, -⟩ := h
  obtain ⟨-, p', o', hb', ht', -⟩ := h'
  obtain ⟨-, rfl⟩ := hb.unique hb'
  exact (ht.unique ht').2

theorem Unclosed.lexemes_eq (h : Unclosed c t) :
    ∃ ls, lexemes c.rest = ⟨.openParen, false⟩ :: ls := by
  obtain ⟨-, p, o, hb, -⟩ := h
  exact ⟨_, hb.lexemes_eq⟩

/-- The record is further on than the place. Behind the place stands a lexeme in `B`, or a bracket
that is not closed, with nothing else to report inside. -/
def Halts (B : Lexeme → Prop) (c : Cursor) (t : Furthest Rule) : Prop :=
  c.offset < t.offset ∧ Inside t ∧
    ((∃ l ls, lexemes c.rest = l :: ls ∧ B l) ∨ ∃ t', Unclosed c t' ∧ t.Absorbs t')

namespace Halts

theorem mono (h : Halts B c t) (hB : ∀ l, B l → B' l) : Halts B' c t := by
  obtain ⟨hlt, hin, ⟨l, ls, hl, hb⟩ | hu⟩ := h
  · exact ⟨hlt, hin, .inl ⟨l, ls, hl, hB l hb⟩⟩
  · exact ⟨hlt, hin, .inr hu⟩

theorem join_left (h : Halts B c t) (h₀ : t₀.offset ≤ c.offset) : Halts B c (t₀.join t) := by
  rwa [join_of_lt (Nat.lt_of_le_of_lt h₀ h.1)]

theorem join_right (h : Halts B c t) (h₀ : t₀.offset ≤ c.offset) : Halts B c (t.join t₀) := by
  rwa [join_of_gt (Nat.lt_of_le_of_lt h₀ h.1)]

/-- The lexeme behind the place is in `B`, or it is an opening bracket. -/
theorem exists_lexeme (h : Halts B c t) :
    ∃ l ls, lexemes c.rest = l :: ls ∧ (B l ∨ l = ⟨.openParen, false⟩) := by
  obtain ⟨-, -, ⟨l, ls, hl, hb⟩ | ⟨t', hu, -⟩⟩ := h
  · exact ⟨l, ls, hl, .inl hb⟩
  · obtain ⟨ls, hls⟩ := hu.lexemes_eq
    exact ⟨_, ls, hls, .inr rfl⟩

end Halts

/-- The lexeme is an operator of the level `k` or a tighter one, and no sign. -/
def OpFrom (k : Nat) (l : Lexeme) : Prop :=
  ∃ o j, l = ⟨.op o, j⟩ ∧ k ≤ o.level ∧ (o = .sub → j = false)

/-- Behind an expression of the level `k`, a tighter operator can go on with it, or nothing can. -/
def LevelEnds (k : Nat) (c : Cursor) (t : Furthest Rule) : Prop :=
  ListsOps k c.offset t ∨ Halts (OpFrom k) c t

/-- No statement begins with the lexeme, and no block ends with it. -/
def Bars (l : Lexeme) : Prop := OpFrom 0 l ∨ l.token = .assign ∨ l.token = .word "else"

/-- Behind a statement, an operator can go on with it, or nothing can. -/
def StmtEnds (c : Cursor) (t : Furthest Rule) : Prop :=
  ListsOps 6 c.offset t ∨ ListsOps 0 c.offset t ∨ Halts Bars c t

/-! ## Rules -/

/-- Attempts at expressions of the level `k`, or at operands behind the last level. -/
def LevelTold (k : Nat) (c : Cursor) : Option Cursor → Furthest Rule → Prop
  | none, t => t = listed c.offset (if k < 6 then [.product] else [.callee, .literal, .identifier]) ∨
      c.offset < t.offset ∧ Inside t ∧ Unclosed c t
  | some d, t => LevelEnds k (grammar.afterLayout false d) t

/-- Attempts at calls. One that fails behind the name gets as far as the brackets would. -/
def CallTold (c : Cursor) : Option Cursor → Furthest Rule → Prop
  | none, t => t = listed c.offset [.callee] ∨
      ∃ s p, s ∉ keywords ∧ c.Before ⟨.word s, true⟩ p ∧ Halts (OpFrom 6) p t
  | some d, t => t.offset < d.offset

/-- Attempts at arguments. In front of anything but a closing bracket, the first expression would not
be closed, either. -/
def ArgsTold (c : Cursor) (o : Option Cursor) (t : Furthest Rule) : Prop :=
  ∃ d, o = some d ∧
    (BeforeParen (lexemes d.rest) → t.offset ≤ (grammar.afterLayout false d).offset) ∧
    (¬BeforeParen (lexemes d.rest) → c.offset ≤ t.offset ∧ Inside t ∧ ∃ o' t',
      grammar.Tries false false expression c o' t' ∧ t.Absorbs t' ∧
      ∀ e, o' = some e → ¬BeforeParen (lexemes e.rest))

/-- Attempts at parameters. -/
def ParamsTold (c : Cursor) (o : Option Cursor) (t : Furthest Rule) : Prop :=
  ∃ d, o = some d ∧ (t = .initial ∨ c.offset ≤ t.offset ∧ Lists t .identifier) ∧
    (BeforeParen (lexemes d.rest) → t.offset ≤ (grammar.afterLayout false d).offset)

/-- Attempts at statements that begin with the keyword `k`. Where they begin, one of the rules `rs`
is listed. -/
def WordTold (k : String) (rs : List Rule) (c : Cursor) : Option Cursor → Furthest Rule → Prop
  | none, t => (∃ r ∈ rs, t = listed c.offset [r]) ∨
      c.offset < t.offset ∧ Inside t ∧ c.word = k.toList
  | some d, t => c.word = k.toList ∧ StmtEnds (grammar.afterLayout false d) t

/-- Attempts at assignments. One that fails behind the sign gets further than the name. -/
def AssignTold (c : Cursor) (o : Option Cursor) (t : Furthest Rule) : Prop :=
  o = none ∧ t = listed c.offset [.identifier] ∨
    ∃ s j p, s ∉ keywords ∧ c.Before ⟨.word s, j⟩ p ∧
      ((∃ d, o = some d ∧ StmtEnds (grammar.afterLayout false d) t) ∨
        o = none ∧ (t = listed c.offset [.assignment] ∨
          (grammar.afterLayout false p).offset < t.offset ∧ Inside t ∧
            StartsAssign (lexemes p.rest)))

/-- Behind a block another statement is asked for, or the record is further on, but not in front of
a closing brace. -/
def BlockEnds (c : Cursor) (t : Furthest Rule) : Prop :=
  t.offset = c.offset ∧ (∃ ops fn, Lists t (.statement false ops fn)) ∨
    c.offset < t.offset ∧ Inside t ∧ ∀ ls, lexemes c.rest ≠ ⟨.closeBrace, false⟩ :: ls

/-- Attempts at blocks. At the beginning there is nothing to go on with. -/
def BlockTold (c : Cursor) (o : Option Cursor) (t : Furthest Rule) : Prop :=
  ∃ d, o = some d ∧ BlockEnds (grammar.afterLayout false d) t ∧
    (t.offset = c.offset → ∃ fn, Lists t (.statement false false fn))

/-- What is known of attempts at a rule where no layout is left. -/
def RuleTold : Rule → Cursor → Option Cursor → Furthest Rule → Prop
  | .block => BlockTold
  | .function => WordTold "fun" [.funWord, .function]
  | .params => ParamsTold
  | .variable => WordTold "var" [.varWord]
  | .loop => WordTold "while" [.loop]
  | .conditional => WordTold "if" [.conditional]
  | .ret => WordTold "return" [.returnWord]
  | .assignment => AssignTold
  | .disjunction => LevelTold 0
  | .conjunction => LevelTold 1
  | .equality => LevelTold 2
  | .relation => LevelTold 3
  | .sum => LevelTold 4
  | .product => LevelTold 5
  | .call => CallTold
  | .args => ArgsTold
  | _ => fun _ _ _ => True

/-- An attempt at a rule, and what is known of it. -/
def Told (r : Rule) (c : Cursor) (o : Option Cursor) (t : Furthest Rule) : Prop :=
  grammar.Tries false false (.rule r) c o t ∧ (c.Settled → RuleTold r c o t)

end IntScript
