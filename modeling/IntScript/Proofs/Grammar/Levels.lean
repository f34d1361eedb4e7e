import IntScript.FromNode
import IntScript.Proofs.Grammar.Finds
import Mathlib.Tactic.IntervalCases

/-!
# Levels of operators

* `Op.level` : the level of an operator, the loosest first;
* `levelPeg`, `opRule`, `opsAt` : the expressions, the rule for operators, and the operators of a
  level (`body_levelRule`, `body_opRule`);
* `finds_op`, `misses_op` : an operator is found at its level only;
* `Chains k ls v` : the lexemes are a chain of the level `k`, in front of no such operator a match
  of the level as a whole (`Chains.finds`).
-/

namespace IntScript

open Peg

/-- The level of the operator; those of the last level bind their operands most tightly. -/
def Op.level : Op → Nat
  | .or => 0
  | .and => 1
  | .eq | .ne => 2
  | .lt | .gt | .le | .ge => 3
  | .add | .sub => 4
  | .mul | .div | .mod => 5

theorem Op.level_lt (o : Op) : o.level < 6 := by cases o <;> decide

/-- The rule for chains of the level `k`. -/
def levelRule : Nat → Rule
  | 0 => .disjunction
  | 1 => .conjunction
  | 2 => .equality
  | 3 => .relation
  | 4 => .sum
  | _ => .product

/-- The rule for operators of the level `k`. -/
def opRule : Nat → Rule
  | 0 => .orOp
  | 1 => .andOp
  | 2 => .eqOp
  | 3 => .relOp
  | 4 => .addOp
  | _ => .mulOp

/-- The operators of the level `k`, in the order of the grammar. -/
def opsAt : Nat → List Op
  | 0 => [.or]
  | 1 => [.and]
  | 2 => [.eq, .ne]
  | 3 => [.le, .ge, .lt, .gt]
  | 4 => [.add, .sub]
  | _ => [.mul, .div, .mod]

/-- Chains of the level `k`; behind the last level come operands. -/
def levelPeg (k : Nat) : Peg Rule := if k < 6 then .rule (levelRule k) else operand

variable {k : Nat} {o : Op} {j : Bool}

theorem levelPeg_of_lt (hk : k < 6) : levelPeg k = .rule (levelRule k) := if_pos hk

theorem body_levelRule (hk : k < 6) : (levelRule k).body =
    .seq (levelPeg (k + 1)) (.many (.seq (.rule (opRule k)) (levelPeg (k + 1)))) := by
  interval_cases k <;> rfl

theorem body_opRule (hk : k < 6) : (opRule k).body = operators (opsAt k) := by
  interval_cases k <;> rfl

theorem atomic_levelRule (k : Nat) : (levelRule k).atomic = false := by
  unfold levelRule
  split <;> rfl

theorem atomic_opRule (k : Nat) : (opRule k).atomic = false := by
  unfold opRule
  split <;> rfl

/-! ## Operators -/

theorem find_opsAt (o : Op) : ((opsAt o.level).map fun op => op.symbol.toList).find?
    (·.isPrefixOf o.symbol.toList) = some o.symbol.toList := by
  cases o <;> decide

/-- No symbol begins that of an operator of another level. -/
theorem isPrefixOf_opsAt (hk : k < 6) (ho : o.level ≠ k) :
    ∀ op ∈ opsAt k, op.symbol.toList.isPrefixOf o.symbol.toList = false := by
  revert ho
  interval_cases k <;> cases o <;> decide

/-- An operator is found at its level. -/
theorem parses_op {c d : Cursor} (hc : c.Settled) (hb : c.Before ⟨.op o, j⟩ d) :
    grammar.Parses false (.rule (opRule o.level)) c
      (some (d, [.mk (opRule o.level) c d []])) := by
  have hbody : grammar.Parses false (opRule o.level).body c (some (d, [])) := by
    rw [body_opRule o.level_lt]
    exact parses_operators hc hb (find_opsAt o)
  exact parses_rule (atomic_opRule o.level) hbody

theorem finds_op (ho : o.level = k) : Finds (.rule (opRule k)) [⟨.op o, j⟩] (fun _ => True)
    fun ns => ∃ n, ns = [n] ∧ Op.ofNode n = .ok o := by
  subst ho
  intro c rest hc hl _
  obtain ⟨d, hb, hd⟩ := before_of_lexemes hc hl
  refine ⟨d, _, parses_op hc hb, hd, _, rfl, ?_⟩
  have hname : Node.name (.mk (opRule o.level) c d []) = o.symbol := by
    rw [Node.name, Node.text, hb.upTo]
    exact String.ofList_toList
  rw [Op.ofNode, hname, Op.ofSymbol?_symbol]

/-- Away from the operators of its level, none is found. -/
theorem misses_op (hk : k < 6) : Misses (.rule (opRule k)) fun ls =>
    ∀ o j rest, ls = ⟨.op o, j⟩ :: rest → o.level ≠ k := by
  refine Misses.rule (atomic_opRule k) fun c hc h => ?_
  rw [body_opRule hk]
  exact parses_operators_none hc fun o j ls hls => isPrefixOf_opsAt hk (h o j ls hls)

/-- Nothing but an operator is found. -/
theorem reaches_op {c d : Cursor} (hk : k < 6) (hc : c.Settled)
    (h : grammar.Reaches false (.rule (opRule k)) c d) : ∃ o j, c.Before ⟨.op o, j⟩ d := by
  obtain ⟨ns, h⟩ := h
  by_cases ho : ∃ o j rest, lexemes c.rest = ⟨.op o, j⟩ :: rest ∧ o.level = k
  · obtain ⟨o, j, rest, hl, rfl⟩ := ho
    obtain ⟨d', hb, -⟩ := before_of_lexemes hc hl
    obtain ⟨rfl, -⟩ := Prod.mk.inj (Option.some.inj (h.unique (parses_op hc hb)))
    exact ⟨o, j, hb⟩
  · cases h.unique (misses_op hk c hc fun o j rest hl hlevel => ho ⟨o, j, rest, hl, hlevel⟩)

/-! ## Chains -/

/-- The lexemes begin with no operator of the level `k` or a tighter one. -/
def Below (k : Nat) (ls : List Lexeme) : Prop :=
  ∀ o j rest, ls = ⟨.op o, j⟩ :: rest → o.level < k

theorem Below.mono {k' : Nat} {ls : List Lexeme} (h : Below k ls) (hk : k ≤ k') : Below k' ls :=
  fun o j rest hls => Nat.lt_of_lt_of_le (h o j rest hls) hk

/-- The nodes are one, which is read as `v`. -/
def IsExpr (v : Except ParseError Expr) (ns : List (Node Rule)) : Prop :=
  ∃ n, ns = [n] ∧ Expr.ofNode n = v

/-- The step of a chain of the level `k`. -/
def stepPeg (k : Nat) : Peg Rule := .seq (.rule (opRule k)) (levelPeg (k + 1))

/-- The lexemes are an operand of the level `k` and steps behind it, which are read as `v`. -/
def Chains (k : Nat) (ls : List Lexeme) (v : Except ParseError Expr) : Prop :=
  ∀ c rest, c.Settled → lexemes c.rest = ls ++ rest → Below (k + 1) rest →
    ∃ d n e ns, grammar.Parses false (levelPeg (k + 1)) c (some (d, [n])) ∧
      grammar.Steps false (stepPeg k) (grammar.afterLayout false d) e ns ∧
      lexemes e.rest = rest ∧ ns.length % 2 = 0 ∧ (do Expr.ofChain (← Expr.ofNode n) ns) = v

theorem ofNode_levelRule (k : Nat) (c d : Cursor) (n : Node Rule) (ns : List (Node Rule)) :
    Expr.ofNode (.mk (levelRule k) c d (n :: ns)) = (do Expr.ofChain (← Expr.ofNode n) ns) := by
  unfold levelRule
  split <;> simp [Expr.ofNode, Rule.isLevel]

/-- A chain goes on with an operator and its right operand. -/
theorem ofChain_append {n right : Node Rule} (hn : Op.ofNode n = .ok o) :
    ∀ (left : Expr) (ns : List (Node Rule)), ns.length % 2 = 0 →
      Expr.ofChain left (ns ++ [n, right]) =
        (do .ok (.bin o (← Expr.ofChain left ns) (← Expr.ofNode right)))
  | left, [], _ => by
    simp only [List.nil_append, Expr.ofChain, hn]
    cases Expr.ofNode right <;> rfl
  | _, [_], h => by cases h
  | left, n' :: right' :: ns, h => by
    have hlen : ns.length % 2 = 0 := by simpa [Nat.add_assoc] using h
    simp only [List.cons_append, Expr.ofChain]
    cases Op.ofNode n' with
    | error e => rfl
    | ok o' =>
      cases Expr.ofNode right' with
      | error e => rfl
      | ok r => exact ofChain_append hn (.bin o' left r) ns hlen

namespace Chains

variable {ls ls' : List Lexeme} {v w : Except ParseError Expr}

/-- An operand of the level is a chain. -/
theorem of_finds (h : Finds (levelPeg (k + 1)) ls (Below (k + 1)) (IsExpr v)) : Chains k ls v := by
  intro c rest hc hl hr
  obtain ⟨d, _, hd, hdl, n, rfl, hn⟩ := h c rest hc hl hr
  refine ⟨d, n, _, [], hd, .refl, by rwa [lexemes_afterLayout], rfl, ?_⟩
  rw [hn]
  cases v <;> rfl

/-- A chain in front of no operator of its level is found as a whole. -/
theorem finds (hk : k < 6) (h : Chains k ls v) : Finds (levelPeg k) ls (Below k) (IsExpr v) := by
  intro c rest hc hl hr
  obtain ⟨d, n, e, ns, hd, hs, hel, -, hv⟩ := h c rest hc hl (hr.mono (Nat.le_succ k))
  have hstop : grammar.Parses false (stepPeg k) (grammar.afterLayout false e) none :=
    (misses_op hk).seq _ (afterLayout_settled e) fun o j rest' h => by
      rw [lexemes_afterLayout, hel] at h
      exact Nat.ne_of_lt (hr o j rest' h)
  have hmany := Grammar.many_of_steps (afterLayout_of_settled (afterLayout_settled d)) hs hstop
  have hbody : grammar.Parses false (levelRule k).body c (some (e, n :: ns)) := by
    rw [body_levelRule hk]
    exact .seq hd hmany rfl
  rw [levelPeg_of_lt hk]
  refine ⟨e, _, parses_rule (atomic_levelRule k) hbody, hel, _, rfl, ?_⟩
  rw [ofNode_levelRule, hv]

/-- A chain goes on with an operator of its level. -/
theorem step (ho : o.level = k) (hl : Chains k ls v)
    (hr : Finds (levelPeg (k + 1)) ls' (Below (k + 1)) (IsExpr w)) :
    Chains k (ls ++ ⟨.op o, j⟩ :: ls') (do .ok (Expr.bin o (← v) (← w))) := by
  intro c rest hc hls hrest
  rw [List.append_assoc] at hls
  have hbelow : Below (k + 1) (⟨.op o, j⟩ :: (ls' ++ rest)) := by
    rintro o' j' rest' h
    cases h
    omega
  obtain ⟨d, n, e, ns, hd, hs, hel, hlen, hv⟩ := hl c _ hc hls hbelow
  have hstep := (finds_op (j := j) ho).seq hr fun _ _ => trivial
  obtain ⟨e', _, he', hel', _, _, ⟨on, rfl, hon⟩, ⟨rn, rfl, hrn⟩, rfl⟩ :=
    hstep _ rest (afterLayout_settled e) (by rw [lexemes_afterLayout, hel]; rfl) hrest
  refine ⟨d, n, e', ns ++ [on, rn], hd, hs.step he', hel', by simpa using hlen, ?_⟩
  rw [← hv, ← hrn]
  cases Expr.ofNode n with
  | error e => rfl
  | ok left => exact ofChain_append hon left ns hlen

end Chains

end IntScript
