import IntScript.Proofs.Grammar.Takes
import IntScript.Proofs.Prefix

/-!
# Phrases in front of brackets

A name at the end of a phrase can touch a bracket that belongs to what stands behind the phrase.
The recogniser gets through the phrase all the same.

* `touch` : lexemes the last of which is joined to something, if it is a word;
* `Reads.taken_touch` : a phrase that is read is taken, also in front of a bracket that it touches;
* `exists_reaches_of_derives` : where a text that ends at a place is a block, the statements of the
  text go on at least up to there.
-/

namespace IntScript

open Lexeme Peg

variable {ls ls' : List Lexeme} {l : Lexeme} {j : Bool} {text : List Char} {c d : Cursor}

/-! ## Last words -/

/-- Whether the token is a word. -/
def Token.isWord : Token → Bool
  | .word _ => true
  | _ => false

/-- Lexemes the last of which is joined to something just if it is a word. -/
def touch : List Lexeme → List Lexeme
  | [] => []
  | [l] => [⟨l.token, l.token.isWord⟩]
  | l :: l' :: ls => l :: touch (l' :: ls)

theorem touch_cons (h : ls ≠ []) (l : Lexeme) : touch (l :: ls) = l :: touch ls := by
  cases ls with
  | nil => exact absurd rfl h
  | cons => rfl

theorem touch_append (h : ls' ≠ []) (ls : List Lexeme) : touch (ls ++ ls') = ls ++ touch ls' := by
  induction ls with
  | nil => rfl
  | cons l ls ih => rw [List.cons_append, touch_cons (by simp [h]), ih, List.cons_append]

@[simp] theorem touch_inParens (ls : List Lexeme) : touch (inParens ls) = inParens ls :=
  touch_append (List.cons_ne_nil _ _) _

@[simp] theorem touch_inBraces (ls : List Lexeme) : touch (inBraces ls) = inBraces ls :=
  touch_append (List.cons_ne_nil _ _) _

theorem exists_touch_cons (l : Lexeme) (ls : List Lexeme) :
    ∃ j, touch (l :: ls) = ⟨l.token, j⟩ :: touch ls := by
  cases ls with
  | nil => exact ⟨_, rfl⟩
  | cons l' ls => exact ⟨l.joined, touch_cons (List.cons_ne_nil _ _) l⟩

theorem StartsExpr.ne_nil (h : StartsExpr ls) : ls ≠ [] := by
  obtain ⟨l, ls, rfl, -⟩ := h
  exact List.cons_ne_nil l ls

theorem StartsExpr.touch (h : StartsExpr ls) : StartsExpr (touch ls) := by
  obtain ⟨l, ls, rfl, hl⟩ := h
  obtain ⟨j, h⟩ := exists_touch_cons l ls
  exact ⟨_, _, h, hl⟩

theorem not_startsAssign_touch (h : ¬StartsAssign ls) : ¬StartsAssign (touch ls) := by
  rintro ⟨j, rest, heq⟩
  cases ls with
  | nil => cases heq
  | cons l ls =>
    obtain ⟨j', hl⟩ := exists_touch_cons l ls
    obtain ⟨t, i⟩ := l
    cases hl.symm.trans heq
    exact h ⟨_, _, rfl⟩

theorem Reads.not_startsAssign_touch {k : Nat} {x : String} {v : Except ParseError Expr}
    (h : Reads (.level k) ls v) (hls : touch ls = ⟨.word x, j⟩ :: ls') : ¬StartsAssign ls' := by
  obtain ⟨⟨t, i⟩, ls, rfl, -⟩ := h.startsExpr
  obtain ⟨j', hl⟩ := exists_touch_cons ⟨t, i⟩ ls
  cases hl.symm.trans hls
  exact IntScript.not_startsAssign_touch (h.not_startsAssign_tail rfl)

theorem Reads.follows_touch {ends : Bool} {vs : Except ParseError Block}
    (h : Reads .block ls vs) (hne : ls ≠ []) (hn : ends = true ∨ ¬StartsOp ls)
    (rest : List Lexeme) : Follows ends (touch ls ++ rest) := by
  cases h with
  | nil => exact absurd rfl hne
  | cons h hs =>
    obtain ⟨⟨t, i⟩, ls', rfl, hl⟩ := h.startsStmt
    rw [List.cons_append] at hn ⊢
    obtain ⟨j, ht⟩ := exists_touch_cons ⟨t, i⟩ (ls' ++ _)
    rw [ht]
    refine .of_startsStmt hl (hn.imp_right fun hop => ?_)
    rintro ⟨o, j, rest', heq⟩
    cases heq
    exact hop ⟨o, i, _, rfl⟩

theorem Reads.taken_touch {K : Kind} {v : Except ParseError K.Value} (h : Reads K ls v) :
    Taken K (touch ls) := by
  induction h with
  | name hx => exact takes_name hx
  | number hd => exact (Reads.number hd).taken
  | negative hd => exact (Reads.negative hd).taken
  | bracket h =>
    rw [touch_inParens]
    exact (Reads.bracket h).taken
  | call hf h =>
    rw [touch_cons (by simp [inParens]), touch_inParens]
    exact (Reads.call hf h).taken
  | tight _ ih => exact ⟨fun h => absurd h (by decide), ih⟩
  | loose hk _ ih =>
    have hchain := TakesChain.of_takes ih.2
    exact ⟨fun _ => hchain, hchain.takes hk⟩
  | @bin _ o j ls ls' _ _ ho hl hr _ ihr =>
    have hk := ho ▸ Op.level_lt _
    have hne := hr.startsExpr.ne_nil
    rw [touch_append (List.cons_ne_nil _ _), touch_cons hne]
    have hchain := TakesChain.step (j := j) ho (hl.matched.1 hk) ihr.2
    exact ⟨fun _ => hchain, hchain.takes hk⟩
  | oneItem | moreItems | noArgs | someArgs => trivial
  | function hf hp hb =>
    rw [touch_append (by simp [inBraces]), touch_inBraces]
    exact (Reads.function hf hp hb).taken
  | declare hx => exact takes_declare hx
  | define hx h ih =>
    rw [touch_cons (List.cons_ne_nil _ _), touch_cons (List.cons_ne_nil _ _),
      touch_cons h.startsExpr.ne_nil]
    exact takes_define hx ih.2
  | loop hc hb =>
    rw [touch_append (by simp [inBraces]), touch_inBraces]
    exact (Reads.loop hc hb).taken
  | ifThen hc hb =>
    rw [touch_append (by simp [inBraces]), touch_inBraces]
    exact (Reads.ifThen hc hb).taken
  | ifElse hc hb hb' =>
    rw [touch_append (List.cons_ne_nil _ _), touch_cons (by simp [inBraces]), touch_inBraces]
    exact (Reads.ifElse hc hb hb').taken
  | ret h ih =>
    rw [touch_cons h.startsExpr.ne_nil]
    exact takes_ret ih.2
  | assign hx h ih =>
    rw [touch_cons (List.cons_ne_nil _ _), touch_cons h.startsExpr.ne_nil]
    exact takes_assign hx ih.2 h.startsExpr.touch
  | expr h ih =>
    exact takes_expr h.startsExpr.touch (fun _ _ _ => h.not_startsAssign_touch) ih.2
  | nil => exact takes_statements
  | @cons _ ls ls' _ _ h hs hn ih ihs =>
    by_cases hls : ls' = []
    · rw [hls, List.append_nil]
      exact .many_of_takes ih takes_statements
    · rw [touch_append hls]
      exact .many_cons h.matched ihs (hs.follows_touch hls hn)

/-! ## Ends of texts -/

/-- Only words and signs are joined to something. -/
theorem Token.isWord_of_joins {t : Token} {rest : List Char} (h : t.joins rest = true) :
    t.isWord = true ∨ t.endsPhrase = false := by
  unfold joins at h
  split at h
  · exact .inl rfl
  · exact .inr rfl
  · cases h

theorem Cursor.Passes.isWord_of_joined (h : c.Passes ls d) (hl : l ∈ ls) (hj : l.joined = true) :
    l.token.isWord = true ∨ l.token.endsPhrase = false := by
  induction h with
  | refl => cases hl
  | layout _ ih => exact ih hl
  | token _ hb _ ih =>
    rcases List.mem_cons.1 hl with rfl | hl
    · exact Token.isWord_of_joins (hb.joined_eq.symm.trans hj)
    · exact ih hl

/-- Lexemes that are a block at the end of a text are so in front of anything, or else their last
one is a word that touches a bracket. -/
theorem Cursor.Passes.eq_or_touch (h : c.Passes ls d) (hd : Derives .block (unjoin ls)) :
    ls = unjoin ls ∨ ls = touch (unjoin ls) := by
  rcases List.eq_nil_or_concat ls with rfl | ⟨pre, ⟨t, j⟩, rfl⟩
  · exact .inl rfl
  rw [List.concat_eq_append] at h hd ⊢
  have hun : unjoin (pre ++ [⟨t, j⟩]) = pre ++ [⟨t, false⟩] :=
    unjoin_append (List.cons_ne_nil _ _) pre
  rw [hun] at hd ⊢
  cases j with
  | false => exact .inl rfl
  | true =>
    refine .inr ?_
    rw [touch_append (List.cons_ne_nil _ _)]
    obtain ⟨pre', l, heq, hl⟩ := hd.endsPhrase (by simp)
    obtain ⟨-, heq⟩ := List.append_inj' heq rfl
    cases heq
    rcases h.isWord_of_joined (l := ⟨t, true⟩) (by simp) rfl with hw | hn
    · rw [touch, hw]
    · exact absurd hl (by simp [hn])

/-- Where a text that ends at a place is a block, the statements of the text go on at least up to
there. -/
theorem exists_reaches_of_derives (h : (Cursor.start text).Passes ls c)
    (hd : Derives .block (lexemes (text.take c.offset))) : ∃ d,
      grammar.Reaches false (.rule .block) (grammar.afterLayout false (.start text)) d ∧
        lexemes d.rest <:+ lexemes c.rest := by
  obtain ⟨vs, hvs⟩ := hd.reads (linked_lexemes _)
  rw [h.lexemes_take] at hd hvs
  have htakes : Takes (.rule .block) ls := by
    rcases h.eq_or_touch hd with heq | heq
    · rw [heq]
      exact .rule rfl hvs.taken
    · rw [heq]
      exact .rule rfl hvs.taken_touch
  exact htakes _ _ (afterLayout_settled _) ((lexemes_afterLayout _).trans h.lexemes_eq)

/-- Places are in the order of what stands behind them. -/
theorem Cursor.Passes.offset_le_of_suffix (h : c.Passes ls d) (hd : d.Settled) {e : Cursor}
    (he : c.Passes ls' e) (hs : lexemes e.rest <:+ lexemes d.rest) :
    d.offset ≤ (grammar.afterLayout false e).offset := by
  obtain ⟨ls'', hs⟩ := hs
  have heq := h.lexemes_eq.symm.trans he.lexemes_eq
  rw [← hs, ← List.append_assoc] at heq
  obtain rfl := List.append_cancel_right heq
  rw [he.afterLayout_eq, Cursor.past_append, ← h.afterLayout_eq, afterLayout_of_settled hd]
  exact Cursor.le_offset_past _ _

end IntScript
