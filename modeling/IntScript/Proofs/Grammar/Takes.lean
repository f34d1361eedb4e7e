import IntScript.Proofs.Syntax.Complete
import IntScript.Proofs.Syntax.Sound

/-!
# Phrases in front of anything

What stands behind a phrase can go on with it, but the recogniser gets through the whole phrase.

* `Takes x ls` : where the lexemes begin with `ls`, the expression matches these and maybe more;
* `Takes.seq`, `Takes.opt`, `Takes.many_cons`, ... : a rule for each form of expression;
* `takes_declare`, `takes_assign`, `takes_expr`, ... : the statements that can be gone on with;
* `Reads.taken` : each phrase that is read is taken, whatever stands behind it.
-/

namespace IntScript

open Lexeme Peg

/-- Where the lexemes are `ls` and any others behind them, the expression matches `ls` and maybe
some of those. -/
def Takes (x : Peg Rule) (ls : List Lexeme) : Prop :=
  ∀ c rest, c.Settled → lexemes c.rest = ls ++ rest →
    ∃ d, grammar.Reaches false x c d ∧ lexemes d.rest <:+ rest

variable {x y : Peg Rule} {ls ls' : List Lexeme} {F G : List Lexeme → Prop}
  {P : List Lexeme → Prop} {Q : List (Node Rule) → Prop} {k : Nat}

namespace Takes

theorem of_finds (h : Finds x ls (fun _ => True) Q) : Takes x ls := by
  intro c rest hc hl
  obtain ⟨d, ns, hp, hd, -⟩ := h c rest hc hl trivial
  exact ⟨d, ⟨ns, hp⟩, hd ▸ List.suffix_rfl⟩

/-- What is always found takes what there is for it. -/
theorem of_yields (hx : Yields x P)
    (ht : x.tame ranking.eats ranking.rank ranking.width = true)
    (hsome : ∀ c, ¬grammar.Parses false x c none) : Takes x [] := by
  intro c rest hc hl
  obtain ⟨o, ho⟩ := ranking.exists_parses false ht c
  cases o with
  | none => exact absurd ho (hsome c)
  | some p =>
    obtain ⟨ls, hls, -⟩ := hx c p.1 (ho.means sound rfl rfl) hc
    exact ⟨p.1, ⟨p.2, ho⟩, ls, hls.lexemes_eq.symm.trans hl⟩

theorem opt_nil (hx : Yields x P)
    (ht : x.tame ranking.eats ranking.rank ranking.width = true) : Takes (.opt x) [] := by
  refine of_yields hx.opt ht fun c h => ?_
  cases h with
  | opt _ ho => cases ho

theorem many_nil (hx : Yields x P)
    (ht : (Peg.many x).tame ranking.eats ranking.rank ranking.width = true) :
    Takes (.many x) [] := by
  refine of_yields hx.many ht fun c h => ?_
  cases h

theorem opt (h : Takes x ls) : Takes (.opt x) ls := by
  intro c rest hc hl
  obtain ⟨d, ⟨ns, hp⟩, hd⟩ := h c rest hc hl
  exact ⟨d, ⟨ns, .opt hp rfl⟩, hd⟩

theorem rule {r : Rule} (hr : r.atomic = false) (h : Takes r.body ls) : Takes (.rule r) ls := by
  intro c rest hc hl
  obtain ⟨d, ⟨ns, hp⟩, hd⟩ := h c rest hc hl
  exact ⟨d, ⟨_, parses_rule hr hp⟩, hd⟩

theorem altLeft (h : Takes x ls) : Takes (.alt x y) ls := by
  intro c rest hc hl
  obtain ⟨d, ⟨ns, hp⟩, hd⟩ := h c rest hc hl
  exact ⟨d, ⟨ns, .altLeft hp⟩, hd⟩

theorem altRight (hm : Misses x G) (h : Takes y ls) (hG : ∀ rest, G (ls ++ rest)) :
    Takes (.alt x y) ls := by
  intro c rest hc hl
  obtain ⟨d, ⟨ns, hp⟩, hd⟩ := h c rest hc hl
  exact ⟨d, ⟨ns, .altRight (hm c hc (hl ▸ hG rest)) hp⟩, hd⟩

/-- Something that is found as it is, and something behind it. -/
theorem seq (hx : Finds x ls F Q) (hy : Takes y ls') (hF : ∀ rest, F (ls' ++ rest)) :
    Takes (.seq x y) (ls ++ ls') := by
  intro c rest hc hl
  rw [List.append_assoc] at hl
  obtain ⟨d, ns, hp, hd, -⟩ := hx c _ hc hl (hF rest)
  obtain ⟨e, ⟨ns', hp'⟩, he⟩ :=
    hy _ rest (afterLayout_settled d) (by rw [lexemes_afterLayout, hd])
  exact ⟨e, ⟨_, .seq hp hp' rfl⟩, he⟩

theorem token_seq (l : Lexeme) (hy : Takes y ls) : Takes (.seq (.text l.token.text) y) (l :: ls) :=
  seq (Finds.token l) hy fun _ => trivial

/-- A keyword ahead, and then the keyword. -/
theorem peek_seq {w : String} {r : Rule} {j : Bool} (hr : r.atomic = true)
    (hbody : r.body = wholeWord w) (hw : w ∈ keywords) (hx : Takes x (⟨.word w, j⟩ :: ls)) :
    Takes (.seq (.peek (.rule r)) x) (⟨.word w, j⟩ :: ls) := by
  intro c rest hc hl
  obtain ⟨d, hb, -⟩ := before_of_lexemes hc hl
  obtain ⟨e, ⟨ns, he⟩, hel⟩ := hx c rest hc hl
  rw [← afterLayout_of_settled hc] at he
  exact ⟨e, ⟨_, .seq (parses_peek hr hbody hw hc hb) he rfl⟩, hel⟩

/-- The absence of something ahead, and then something else. -/
theorem deny_seq (hx : Misses x G) (hy : Takes y ls) (hG : ∀ rest, G (ls ++ rest)) :
    Takes (.seq (.deny x) y) ls := by
  intro c rest hc hl
  obtain ⟨e, ⟨ns, he⟩, hel⟩ := hy c rest hc hl
  rw [← afterLayout_of_settled hc] at he
  exact ⟨e, ⟨_, .seq (.deny (hx c hc (hl ▸ hG rest)) rfl) he rfl⟩, hel⟩

theorem many_of_takes (hx : Takes x ls) (hm : Takes (.many x) []) : Takes (.many x) ls := by
  intro c rest hc hl
  obtain ⟨d, ⟨ns, hp⟩, hd⟩ := hx c rest hc hl
  obtain ⟨e, ⟨ns', hp'⟩, he⟩ := hm _ _ (afterLayout_settled d) rfl
  rw [lexemes_afterLayout] at he
  obtain ⟨e', he', h⟩ := Grammar.many_cons hp hp'
  refine ⟨e', ⟨_, h⟩, ?_⟩
  rcases he' with rfl | ⟨rfl, rfl⟩
  · exact he.trans hd
  · exact hd

theorem many_cons (hx : Finds x ls F Q) (hm : Takes (.many x) ls')
    (hF : ∀ rest, F (ls' ++ rest)) : Takes (.many x) (ls ++ ls') := by
  intro c rest hc hl
  rw [List.append_assoc] at hl
  obtain ⟨d, ns, hp, hd, -⟩ := hx c _ hc hl (hF rest)
  obtain ⟨e, ⟨ns', hp'⟩, he⟩ :=
    hm _ rest (afterLayout_settled d) (by rw [lexemes_afterLayout, hd])
  obtain ⟨e', he', h⟩ := Grammar.many_cons hp hp'
  refine ⟨e', ⟨_, h⟩, ?_⟩
  rcases he' with rfl | ⟨rfl, rfl⟩
  · exact he
  · rwa [lexemes_afterLayout] at he

end Takes

/-! ## Levels -/

theorem yields_levelPeg (k : Nat) : Yields (levelPeg k) (Derives .expr) := by
  unfold levelPeg
  split
  · unfold levelRule
    split <;> exact fun _ _ h => h
  · exact yields_operands

theorem yields_opRule (k : Nat) : Yields (.rule (opRule k)) IsOp := by
  unfold opRule
  split <;> exact fun _ _ h => h

theorem takes_steps (hk : k < 6) : Takes (.many (stepPeg k)) [] := by
  refine .many_nil ((yields_opRule k).seq (yields_levelPeg (k + 1))) ?_
  interval_cases k <;> decide

/-- The lexemes are an operand of the level and maybe steps behind it. -/
def TakesChain (k : Nat) (ls : List Lexeme) : Prop :=
  ∀ c rest, c.Settled → lexemes c.rest = ls ++ rest →
    ∃ d ns e ns', grammar.Parses false (levelPeg (k + 1)) c (some (d, ns)) ∧
      grammar.Steps false (stepPeg k) (grammar.afterLayout false d) e ns' ∧
      lexemes e.rest <:+ rest

namespace TakesChain

theorem of_takes (h : Takes (levelPeg (k + 1)) ls) : TakesChain k ls := by
  intro c rest hc hl
  obtain ⟨d, ⟨ns, hp⟩, hd⟩ := h c rest hc hl
  exact ⟨d, ns, _, [], hp, .refl, by rwa [lexemes_afterLayout]⟩

/-- A chain with an operator of its level behind it is found as it is. -/
theorem step {o : Op} {j : Bool} {v : Except ParseError Expr} (ho : o.level = k)
    (hl : Chains k ls v) (hr : Takes (levelPeg (k + 1)) ls') :
    TakesChain k (ls ++ ⟨.op o, j⟩ :: ls') := by
  intro c rest hc hls
  rw [List.append_assoc] at hls
  have hbelow : Below (k + 1) (⟨.op o, j⟩ :: (ls' ++ rest)) := by
    rintro o' j' rest' h
    cases h
    omega
  obtain ⟨d, n, e, ns, hd, hs, hel, -, -⟩ := hl c _ hc hls hbelow
  have hstep : Takes (stepPeg k) (⟨.op o, j⟩ :: ls') :=
    Takes.seq (finds_op ho) hr fun _ => trivial
  obtain ⟨e', ⟨ns', he'⟩, hel'⟩ :=
    hstep _ rest (afterLayout_settled e) (by rw [lexemes_afterLayout, hel, List.cons_append])
  exact ⟨d, [n], e', _, hd, hs.step he', hel'⟩

/-- Behind the chain, the level takes the steps that there are. -/
theorem takes (hk : k < 6) (h : TakesChain k ls) : Takes (levelPeg k) ls := by
  intro c rest hc hl
  obtain ⟨d, ns, e, ns', hd, hs, he⟩ := h c rest hc hl
  obtain ⟨e', ⟨ns'', hm⟩, he'⟩ := takes_steps hk _ _ (afterLayout_settled e) rfl
  rw [lexemes_afterLayout] at he'
  obtain ⟨e'', heq, hgoes⟩ := Grammar.Goes.of_many hm
  have hmany := Grammar.many_of_goes (afterLayout_of_settled (afterLayout_settled d))
    (hs.goes hgoes)
  have hbody : grammar.Parses false (levelRule k).body c (some (e'', ns ++ (ns' ++ ns''))) := by
    rw [body_levelRule hk]
    exact .seq hd hmany rfl
  rw [levelPeg_of_lt hk]
  refine ⟨e'', ⟨_, parses_rule (atomic_levelRule k) hbody⟩, ?_⟩
  rcases heq with rfl | ⟨rfl, -⟩
  · exact he'.trans he
  · exact he

end TakesChain

/-- What an operand takes, each level does. -/
theorem takes_levelPeg (h : Takes operand ls) (hk : k ≤ 6) : Takes (levelPeg k) ls := by
  induction hk using Nat.decreasingInduction with
  | self => exact h
  | of_succ k hk ih => exact (TakesChain.of_takes ih).takes hk

/-- A name is taken, also if it is joined to a bracket: then with the brackets, if they are closed,
or else without them. -/
theorem takes_name {x : String} {j : Bool} (hx : IsName x) : Takes operand [⟨.word x, j⟩] := by
  intro c rest hc hl
  obtain ⟨d, hb, hd⟩ := before_of_lexemes hc hl
  obtain ⟨o, ho⟩ := ranking.exists_parses (x := .rule .call) false (by decide) c
  cases o with
  | some p =>
    have hspan : Spans (Derives .atom) c p.1 := ho.means sound rfl rfl
    obtain ⟨ls, hls, hatom⟩ := hspan hc
    obtain ⟨l, ls, rfl⟩ := List.exists_cons_of_ne_nil (by simpa using hatom.ne_nil)
    exact ⟨p.1, ⟨p.2, .altLeft ho⟩, ls, (List.cons.inj (hls.lexemes_eq.symm.trans hl)).2⟩
  | none =>
    have hlit : grammar.Parses false (.rule .literal) c none :=
      parses_literal_none hc (by simp [hl]) (by simp [hl])
    exact ⟨d, ⟨_, .altRight ho (.altRight hlit (.altLeft (parses_identifier hc hb hx.2)))⟩,
      hd ▸ List.suffix_rfl⟩

/-! ## Statements -/

theorem takes_equals : Takes (.opt (chain [string "=", expression])) [] :=
  .opt_nil (Yields.equals_seq yields_expression startsExpr_of_derives) (by decide)

theorem takes_else : Takes (.opt (chain [string "else", bracedBlock])) [] :=
  .opt_nil (Yields.wordSeq (by decide) Yields.inBraces fun _ _ _ _ => isNameChar_of_braces)
    (by decide)

theorem takes_statements : Takes (.many statement) [] := by
  refine .of_yields yields_block (by decide) fun c h => ?_
  cases h

/-- A declaration is none of the statements that are tried before it. -/
theorem takes_of_variable {j : Bool} (h : Takes (.rule .variable) (⟨.word "var", j⟩ :: ls)) :
    Takes statement (⟨.word "var", j⟩ :: ls) :=
  .altRight misses_function (.altLeft h) fun _ => notWord_cons (by simp)

theorem takes_declare {x : String} {i j : Bool} (hx : IsName x) :
    Takes statement [⟨.word "var", i⟩, ⟨.word x, j⟩] := by
  have hname := Takes.seq (finds_identifier (j := j) hx) takes_equals fun _ => trivial
  exact takes_of_variable (.rule rfl (.peek_seq rfl rfl (by decide)
    (hname.token_seq ⟨.word "var", i⟩)))

theorem takes_define {x : String} {j : Bool} (hx : IsName x) (h : Takes expression ls) :
    Takes statement (⟨.word "var", j⟩ :: ⟨.word x, false⟩ :: ⟨.assign, false⟩ :: ls) := by
  have hname := Takes.seq (finds_identifier (j := false) hx) (h.token_seq ⟨.assign, false⟩).opt
    fun _ => trivial
  exact takes_of_variable (.rule rfl (.peek_seq rfl rfl (by decide)
    (hname.token_seq ⟨.word "var", j⟩)))

theorem takes_ifThen {j : Bool} {v : Except ParseError Expr} {w : Except ParseError Block}
    (hc : FindsExpr ls v) (hb : FindsBlock ls' w) :
    Takes statement (⟨.word "if", j⟩ :: inParens ls ++ inBraces ls') := by
  have hthen := Takes.seq (finds_inBraces hb) takes_else fun _ => trivial
  have hcond := Takes.seq (finds_inParens hc fun _ => Below.beforeParen) hthen fun _ => trivial
  have hrule := (hcond.token_seq ⟨.word "if", j⟩).rule (r := .conditional) rfl
  rw [List.append_nil] at hrule
  exact .altRight misses_function (.altRight misses_variable (.altRight misses_loop
    (.altLeft hrule) fun _ => notWord_cons (by simp)) fun _ => notWord_cons (by simp))
    fun _ => notWord_cons (by simp)

theorem takes_ret {j : Bool} (h : Takes expression ls) :
    Takes statement (⟨.word "return", j⟩ :: ls) := by
  have hrule : Takes (.rule .ret) (⟨.word "return", j⟩ :: ls) :=
    .rule rfl (.peek_seq rfl rfl (by decide) (h.token_seq ⟨.word "return", j⟩))
  exact .altRight misses_function (.altRight misses_variable (.altRight misses_loop
    (.altRight misses_conditional (.altLeft hrule) fun _ => notWord_cons (by simp))
    fun _ => notWord_cons (by simp)) fun _ => notWord_cons (by simp))
    fun _ => notWord_cons (by simp)

/-- Assignments and expressions begin with no keyword. -/
theorem takes_of_startsExpr (hs : StartsExpr ls)
    (h : Takes (choice [.rule .assignment, expression]) ls) : Takes statement ls :=
  .altRight misses_function (.altRight misses_variable (.altRight misses_loop
    (.altRight misses_conditional (.altRight misses_ret h
    fun _ => hs.notWord (by decide)) fun _ => hs.notWord (by decide))
    fun _ => hs.notWord (by decide)) fun _ => hs.notWord (by decide))
    fun _ => hs.notWord (by decide)

theorem takes_assign {x : String} (hx : IsName x) (h : Takes expression ls) (hs : StartsExpr ls) :
    Takes statement (⟨.word x, false⟩ :: ⟨.assign, false⟩ :: ls) := by
  have hdeny := Takes.deny_seq misses_equals h fun rest => hs.append rest
  have hname := Takes.seq (finds_identifier (j := false) hx) (hdeny.token_seq ⟨.assign, false⟩)
    fun _ => trivial
  exact takes_of_startsExpr ⟨_, _, rfl, by simpa [Token.startsExpr] using hx.2⟩
    (.altLeft (.rule rfl hname))

/-- An expression is taken as a statement. If an assignment is found instead, then the expression
is its name. -/
theorem takes_expr (hs : StartsExpr ls)
    (ha : ∀ x j ls', ls = ⟨.word x, j⟩ :: ls' → ¬StartsAssign ls')
    (h : Takes expression ls) : Takes statement ls := by
  refine takes_of_startsExpr hs fun c rest hc hl => ?_
  obtain ⟨o, ho⟩ := ranking.exists_parses (x := .rule .assignment) false (by decide) c
  cases o with
  | none =>
    obtain ⟨d, ⟨ns, hp⟩, hd⟩ := h c rest hc hl
    exact ⟨d, ⟨ns, .altRight ho hp⟩, hd⟩
  | some p =>
    refine ⟨p.1, ⟨p.2, .altLeft ho⟩, ?_⟩
    have hname : ∃ l, ls = [l] := by
      obtain ⟨l, ls, rfl, -⟩ := hs
      cases ls with
      | nil => exact ⟨l, rfl⟩
      | cons l' ls =>
        have hnone := misses_assignment c hc fun x j rest' hx _ ⟨i, rest'', hrest⟩ => by
          rw [hl, hrest] at hx
          obtain ⟨rfl, rfl⟩ := List.cons.inj (List.cons.inj hx).2
          exact ha x j _ (by rw [(List.cons.inj hx).1]) ⟨i, ls, rfl⟩
        cases ho.unique hnone
    obtain ⟨l, rfl⟩ := hname
    have hspan : Spans (Derives .stmt) c p.1 := ho.means sound rfl rfl
    obtain ⟨ls', hls, hstmt⟩ := hspan hc
    obtain ⟨l', ls'', rfl⟩ := List.exists_cons_of_ne_nil (by simpa using hstmt.ne_nil)
    exact ⟨ls'', (List.cons.inj (hls.lexemes_eq.symm.trans hl)).2⟩

/-! ## Phrases -/

/-- What the recogniser does with a phrase in front of anything. -/
def Taken : Kind → List Lexeme → Prop
  | .operand, ls => Takes operand ls
  | .level k, ls => (k < 6 → TakesChain k ls) ∧ Takes (levelPeg k) ls
  | .items, _ | .args, _ => True
  | .stmt _, ls => Takes statement ls
  | .block, ls => Takes (.many statement) ls

/-- What is read is taken. -/
theorem Reads.taken {K : Kind} {v : Except ParseError K.Value} (h : Reads K ls v) :
    Taken K ls := by
  induction h with
  | name hx => exact .of_finds (Reads.name hx).matched
  | number hd => exact .of_finds (Reads.number hd).matched
  | negative hd => exact .of_finds (Reads.negative hd).matched
  | bracket h => exact .of_finds (Reads.bracket h).matched
  | call hf h => exact .of_finds (Reads.call hf h).matched
  | tight _ ih => exact ⟨fun h => absurd h (by decide), ih⟩
  | loose hk _ ih =>
    have hchain := TakesChain.of_takes ih.2
    exact ⟨fun _ => hchain, hchain.takes hk⟩
  | @bin _ _ j _ _ _ _ ho hl _ _ ihr =>
    have hk := ho ▸ Op.level_lt _
    have hchain := TakesChain.step (j := j) ho (hl.matched.1 hk) ihr.2
    exact ⟨fun _ => hchain, hchain.takes hk⟩
  | oneItem | moreItems | noArgs | someArgs => trivial
  | function hf hp hb => exact .of_finds (finds_function hf hp hb.matched)
  | declare hx => exact takes_declare hx
  | define hx _ ih => exact takes_define hx ih.2
  | loop hc hb => exact .of_finds (finds_loop hc.matched.expr hb.matched)
  | ifThen hc hb => exact takes_ifThen hc.matched.expr hb.matched
  | ifElse hc hb hb' => exact .of_finds (finds_ifElse hc.matched.expr hb.matched hb'.matched)
  | ret _ ih => exact takes_ret ih.2
  | assign hx h ih => exact takes_assign hx ih.2 h.startsExpr
  | expr h ih => exact takes_expr h.startsExpr (fun _ _ _ => h.not_startsAssign_tail) ih.2
  | nil => exact takes_statements
  | @cons _ ls ls' _ _ h hs hn ih ihs =>
    by_cases hls : ls' = []
    · rw [hls, List.append_nil]
      exact .many_of_takes ih takes_statements
    · exact .many_cons h.matched ihs fun rest => hs.follows_of_ne_nil hls hn rest

end IntScript
