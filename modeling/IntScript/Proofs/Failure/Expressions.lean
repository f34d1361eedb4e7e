import IntScript.Proofs.Failure.Asked
import IntScript.Proofs.Grammar.Takes
import IntScript.Proofs.Grammar.Truthful

/-!
# What expressions report

* `tells_bracketed`, `tells_operand` : attempts at brackets and operands;
* `tells_rounds` : a chain reports the operators that it does not go on with, or it halts in front of
  one that no operand follows;
* `told_level` : attempts at the levels of operators;
* `told_call`, `told_args`, `told_params` : attempts at calls, arguments and parameters.
-/

namespace IntScript

open Lexeme Peg Furthest

variable {t t' t₀ : Furthest Rule} {c d p : Cursor} {o : Option Cursor} {k n : Nat} {r : Rule}
  {l : Lexeme} {x y : Peg Rule}

/-! ## Places -/

theorem Cursor.Before.pass? (h : c.Before l d) : c.pass? l.token.text = some d := by
  rw [Cursor.pass?_of_eq h.rest_eq, h.advance_eq]

theorem Cursor.Before.lt_offset (h : c.Before l d) (hl : l.token.text ≠ []) :
    c.offset < d.offset := by
  rw [h.advance_eq]
  exact Nat.lt_add_of_pos_right (List.length_pos_iff.2 hl)

theorem Token.Plain.before {tok : Token} (ht : tok.Plain) (hc : c.Settled)
    (h : c.pass? tok.text = some d) : c.Before ⟨tok, false⟩ d := by
  obtain ⟨j, hb⟩ := before_of_solid ht.solid hc h
  obtain rfl : j = false := hb.joined_eq.trans (ht.joins d.rest)
  exact hb

/-- The first character of a text is passed. -/
theorem lt_offset_of_pass? {y : Char} {s : List Char} (h : c.pass? (y :: s) = some d) :
    c.offset < (grammar.afterLayout false d).offset := by
  refine Nat.lt_of_lt_of_le ?_ (Grammar.offset_afterLayout _ _ _)
  rw [(Cursor.eq_of_pass? h).2]
  exact Nat.lt_add_of_pos_right (Nat.succ_pos _)

theorem lt_offset_of_reaches (hx : x.eats ranking.eats = true)
    (h : grammar.Reaches false x c d) : c.offset < (grammar.afterLayout false d).offset :=
  Nat.lt_of_lt_of_le (ranking.lt_offset hx h) (Grammar.offset_afterLayout _ _ _)

/-- Where no layout is left, none is given back at the end of a repetition. -/
theorem eq_afterLayout {e e' : Cursor} (hc : c.Settled)
    (he : e' = grammar.afterLayout false e ∨ e = c ∧ e' = c) :
    e' = grammar.afterLayout false e := by
  rcases he with he | ⟨rfl, rfl⟩
  · exact he
  · exact (afterLayout_of_settled hc).symm

theorem beforeParen_of_pass? (h : (grammar.afterLayout false c).pass? ")".toList = some d) :
    BeforeParen (lexemes c.rest) := by
  have hb := Token.Plain.closeParen.before (afterLayout_settled c) h
  exact ⟨_, (lexemes_afterLayout c).symm.trans hb.lexemes_eq⟩

theorem not_beforeParen_of_pass? (h : (grammar.afterLayout false c).pass? ")".toList = none) :
    ¬BeforeParen (lexemes c.rest) := by
  rintro ⟨rest, hrest⟩
  obtain ⟨d, hb, -⟩ := before_of_lexemes (afterLayout_settled c)
    ((lexemes_afterLayout c).trans hrest)
  exact Option.some_ne_none d (hb.pass?.symm.trans h)

/-! ## Names -/

/-- An atomic rule ahead, and something else. -/
theorem tells_peek_seq (hr : r.atomic = true)
    (h : grammar.Tells Told (.seq (.peek (.rule r)) y) c o t) (hc : c.Settled) :
    (o = none ∧ t = listed c.offset [r]) ∨
      (∃ d, grammar.Reaches false (.rule r) c d) ∧ grammar.Tells Told y c o t := by
  rcases h with ⟨rfl, p, ⟨htries, -⟩, hp⟩ | ⟨c', t₁, t₂, ⟨p, ⟨htries, -⟩, hp⟩, h, rfl⟩
  · obtain rfl := Option.map_eq_none_iff.1 hp.symm
    exact .inl ⟨rfl, tries_simple (.inl hr) htries⟩
  · obtain ⟨d, rfl, rfl⟩ := Option.map_eq_some_iff.1 hp.symm
    obtain rfl : t₁ = .initial := tries_simple (.inl hr) htries
    rw [afterLayout_of_settled hc] at h
    exact .inr ⟨⟨d, htries.reaches⟩, by rwa [initial_join]⟩

/-- A name, and something else. -/
theorem tells_name_seq (h : grammar.Tells Told (.seq (.rule .identifier) y) c o t)
    (hc : c.Settled) : (o = none ∧ t = listed c.offset [.identifier] ∧
      grammar.Parses false (.rule .identifier) c none) ∨ ∃ s j p, s ∉ keywords ∧
        c.Before ⟨.word s, j⟩ p ∧ grammar.Tells Told y (grammar.afterLayout false p) o t := by
  rcases h with ⟨rfl, htries, -⟩ | ⟨p, t₁, t₂, ⟨htries, -⟩, h, rfl⟩
  · exact .inl ⟨rfl, tries_simple (.inl rfl) htries, htries.parses_none⟩
  · obtain rfl : t₁ = .initial := tries_simple (.inl rfl) htries
    obtain ⟨s, j, hs, hb⟩ := reaches_identifier hc htries.reaches
    exact .inr ⟨s, j, p, hs, hb, by rwa [initial_join]⟩

/-! ## Levels -/

theorem inside_startRules (k n : Nat) :
    Inside (listed n (if k < 6 then [.product] else [.callee, .literal, .identifier])) := by
  split
  · exact inside_listed (a := .product) rfl
  · exact inside_listed (a := .operand) rfl

namespace LevelTold

theorem none_inside (h : LevelTold k c none t) : c.offset ≤ t.offset ∧ Inside t := by
  rcases h with rfl | ⟨hlt, hin, -⟩
  · exact ⟨Nat.le_refl _, inside_startRules k _⟩
  · exact ⟨Nat.le_of_lt hlt, hin⟩

theorem some_inside (h : LevelTold 0 c (some d) t) :
    (grammar.afterLayout false d).offset ≤ t.offset ∧ Inside t := by
  rcases h with h | ⟨hlt, hin, -⟩
  · exact ⟨Nat.le_of_eq h.lists.1.symm, h.inside⟩
  · exact ⟨Nat.le_of_lt hlt, hin⟩

end LevelTold

namespace LevelEnds

theorem join_left (h : LevelEnds k c t) (h₀ : t₀.offset < c.offset) :
    LevelEnds k c (t₀.join t) :=
  h.imp (·.join_left h₀) (·.join_left (Nat.le_of_lt h₀))

/-- In front of a lexeme that is neither an operator of the level nor an opening bracket, nothing
halts. -/
theorem ops_of_lexeme (h : LevelEnds k c t) {ls : List Lexeme} (hl : lexemes c.rest = l :: ls)
    (hop : ¬OpFrom k l) (hp : l ≠ ⟨.openParen, false⟩) : ListsOps k c.offset t := by
  rcases h with h | h
  · exact h
  · obtain ⟨l', ls', hl', h'⟩ := h.exists_lexeme
    obtain ⟨rfl, -⟩ := List.cons.inj (hl.symm.trans hl')
    exact absurd h' (not_or.2 ⟨hop, hp⟩)

end LevelEnds

theorem not_opFrom (h : ∀ op, l.token ≠ .op op) : ¬OpFrom k l := by
  rintro ⟨op, j, rfl, -⟩
  exact h op rfl

/-! ## Brackets -/

/-- Attempts at a bracketed expression. -/
theorem tells_bracketed (h : grammar.Tells Told bracketed c o t) (hc : c.Settled) :
    (o = none ∧ (t = .initial ∨ c.offset < t.offset ∧ Inside t ∧ Unclosed c t)) ∨
      ∃ d, o = some d ∧ c.offset < t.offset ∧ t.offset < d.offset ∧ Inside t := by
  rcases h.text_seq with ⟨-, rfl, rfl⟩ | ⟨p, hp, h⟩
  · exact .inl ⟨rfl, .inl rfl⟩
  have hb := Token.Plain.openParen.before hc hp
  have hlt := lt_offset_of_pass? hp
  rcases h.seq_text with ⟨rfl, htries, htold⟩ | ⟨e, ⟨htries, htold⟩, ho⟩
  · obtain ⟨hle, hin⟩ := (htold (afterLayout_settled p)).none_inside
    exact .inl ⟨rfl, .inr ⟨Nat.lt_of_lt_of_le hlt hle, hin, hc, p, _, hb, htries, nofun⟩⟩
  have htold : LevelTold 0 (grammar.afterLayout false p) (some e) t := htold (afterLayout_settled p)
  obtain ⟨hle, hin⟩ := htold.some_inside
  have hce : c.offset < t.offset := by
    have := lt_offset_of_reaches (by decide) htries.reaches
    omega
  cases o with
  | none =>
    refine .inl ⟨rfl, .inr ⟨hce, hin, hc, p, _, hb, htries, fun e' he' => ?_⟩⟩
    obtain rfl := Option.some.inj he'
    exact not_beforeParen_of_pass? ho.symm
  | some d =>
    obtain ⟨rest, hrest⟩ := beforeParen_of_pass? ho.symm
    have hops := LevelEnds.ops_of_lexeme htold ((lexemes_afterLayout e).trans hrest)
      (not_opFrom nofun) nofun
    have hbd := Token.Plain.closeParen.before (afterLayout_settled e) ho.symm
    exact .inr ⟨d, rfl, hce, Nat.lt_of_le_of_lt hops.1 (hbd.lt_offset (by simp [Token.text])), hin⟩

/-! ## Operands -/

theorem Grammar.Tries.not_none (h : grammar.Tries false false x c (some d) t) :
    ¬grammar.Parses false x c none := fun hn => by
  obtain ⟨ns, hp⟩ := h.reaches
  cases hp.unique hn

/-- Behind operands there is no operator to halt at. -/
theorem Halts.unclosed (h : Halts (OpFrom 6) c t) : ∃ t', Unclosed c t' ∧ t.Absorbs t' := by
  obtain ⟨-, -, ⟨l, ls, -, o, j, -, ho, -⟩ | hu⟩ := h
  · exact absurd o.level_lt (Nat.not_lt.2 ho)
  · exact hu

/-- Attempts at operands. -/
theorem tells_operand (h : grammar.Tells Told operand c o t) (hc : c.Settled) :
    LevelTold 6 c o t := by
  have hbefore : ∀ {d : Cursor} {t : Furthest Rule}, t.offset < d.offset →
      LevelTold 6 c (some d) t := fun h =>
    .inl (.of_lt (Nat.lt_of_lt_of_le h (Grammar.offset_afterLayout _ _ _)))
  rcases h with ⟨d, rfl, -, htold⟩ | ⟨t₁, t', ⟨-, hcall⟩, h, rfl⟩
  · exact hbefore (htold hc)
  rcases h with ⟨d, rfl, hlit, -⟩ | ⟨t₂, t'', ⟨hlit, -⟩, h, rfl⟩
  · -- a literal, where no name comes first
    obtain rfl : t' = .initial := tries_simple (.inl rfl) hlit
    rw [join_initial]
    rcases hcall hc with rfl | ⟨s, p, -, hb, -⟩
    · exact .inl (.of_lt (lt_offset_of_reaches (by decide) hlit.reaches))
    · exact absurd (parses_literal_none hc (by simp [hb.lexemes_eq]) (by simp [hb.lexemes_eq]))
        hlit.not_none
  obtain rfl : t₂ = listed c.offset [.literal] := tries_simple (.inl rfl) hlit
  rcases h with ⟨d, rfl, hid, -⟩ | ⟨t₃, t₄, ⟨hid, -⟩, h, rfl⟩
  · -- a name; if it is that of a call which failed, the brackets behind it are not closed
    obtain rfl : t'' = .initial := tries_simple (.inl rfl) hid
    rw [join_initial]
    rcases hcall hc with rfl | ⟨s, p, hs, hb, hhalts⟩
    · rw [listed_join_listed]
      exact .inl (.of_lt (lt_offset_of_reaches (by decide) hid.reaches))
    · obtain ⟨ns, hp⟩ := hid.reaches
      cases hp.unique (parses_identifier hc hb hs)
      obtain ⟨t', ⟨hsettled, -⟩, -⟩ := hhalts.unclosed
      refine .inr ?_
      rw [afterLayout_of_settled hsettled]
      exact hhalts.join_right (hid.le_offset.1 _ rfl)
  obtain rfl : t₃ = listed c.offset [.identifier] := tries_simple (.inl rfl) hid
  -- no name comes first
  obtain rfl : t₁ = listed c.offset [.callee] := by
    rcases hcall hc with h | ⟨s, p, hs, hb, -⟩
    · exact h
    · cases hid.parses_none.unique (parses_identifier hc hb hs)
  rw [← join_assoc, ← join_assoc, listed_join_listed, listed_join_listed]
  rcases tells_bracketed h hc with ⟨rfl, rfl | ⟨hlt, hin, hu⟩⟩ | ⟨d, rfl, hlt, hd, -⟩
  · rw [join_initial]
    exact .inl rfl
  · rw [join_of_lt (by exact hlt)]
    exact .inr ⟨hlt, hin, hu⟩
  · rw [join_of_lt (by exact hlt)]
    exact hbefore hd

/-! ## Chains -/

theorem levelRule_told (hk : k < 6) : RuleTold (levelRule k) = LevelTold k := by
  interval_cases k <;> rfl

theorem tells_levelPeg (h : grammar.Tells Told (levelPeg k) c o t) (hk : k ≤ 6) (hc : c.Settled) :
    LevelTold k c o t := by
  rcases Nat.lt_or_eq_of_le hk with hk | rfl
  · rw [levelPeg_of_lt hk] at h
    have htold := h.2 hc
    rwa [levelRule_told hk] at htold
  · exact tells_operand h hc

/-- An attempt at a step of a chain: there is no operator of the level, or an operand is tried
behind it. A sign in front of a number is always gone on with. -/
theorem tells_stepPeg (hk : k < 6) (h : grammar.Tells Told (stepPeg k) c o t) (hc : c.Settled) :
    (o = none ∧ t = listed c.offset [opRule k]) ∨
      ∃ op j p, op.level = k ∧ c.Before ⟨.op op, j⟩ p ∧
        LevelTold (k + 1) (grammar.afterLayout false p) o t ∧
        (o = none → op = .sub → j = false) := by
  have hsimple : (opRule k).body.noRules = true := by
    rw [body_opRule hk]
    interval_cases k <;> rfl
  rcases h with ⟨rfl, htries, -⟩ | ⟨p, t₁, t₂, ⟨htries, -⟩, h, rfl⟩
  · exact .inl ⟨rfl, tries_simple (.inr hsimple) htries⟩
  obtain rfl : t₁ = .initial := tries_simple (.inr hsimple) htries
  obtain ⟨op, j, hb⟩ := reaches_op hk hc htries.reaches
  have hop : op.level = k := by
    by_contra hne
    refine htries.not_none (misses_op hk c hc fun op' j' rest hl => ?_)
    rw [hb.lexemes_eq] at hl
    cases hl
    exact hne
  rw [initial_join]
  refine .inr ⟨op, j, p, hop, hb, tells_levelPeg h hk (afterLayout_settled p), ?_⟩
  rintro rfl rfl
  by_contra hj
  obtain rfl : j = true := by simpa using hj
  obtain ⟨hp, j', e, hnum⟩ := before_of_joined hb
  obtain ⟨hds, rfl⟩ := isNumber_of_before hnum
  obtain rfl : k = 4 := hop.symm
  obtain ⟨d, ⟨ns, hd⟩, -⟩ := (Reads.loose (by decide) (.tight (.number hds))).taken.2 p _ hp
    hnum.lexemes_eq
  rw [afterLayout_of_settled hp] at h
  cases hd.unique h.1.parses_none

theorem OpFrom.mono {k' : Nat} (hk : k' ≤ k) (l : Lexeme) (h : OpFrom k l) : OpFrom k' l := by
  obtain ⟨o, j, rfl, ho, hj⟩ := h
  exact ⟨o, j, rfl, hk.trans ho, hj⟩

theorem not_opFrom_succ {op : Op} {j : Bool} : ¬OpFrom (op.level + 1) ⟨.op op, j⟩ := by
  rintro ⟨op', j', h, hlevel, -⟩
  cases h
  exact Nat.not_succ_le_self _ hlevel

/-- The steps of a chain, behind an operand that has reported `t₀`. -/
theorem tells_rounds {e : Cursor} (hk : k < 6)
    (h : grammar.Repeats Told (stepPeg k) c e t) (hc : c.Settled) (h₀ : LevelEnds (k + 1) c t₀) :
    LevelEnds k e (t₀.join t) := by
  induction h generalizing t₀ with
  | @stop c t h =>
    rcases tells_stepPeg hk h.1 hc with ⟨-, rfl⟩ | ⟨op, j, p, rfl, hb, htold, hsub⟩
    · rcases h₀ with h₀ | h₀
      · exact .inl (h₀.step hk)
      · exact .inr ((h₀.mono (OpFrom.mono (Nat.le_succ k))).join_right (Nat.le_refl _))
    · -- the operand behind the operator is missing
      have hops := h₀.ops_of_lexeme hb.lexemes_eq not_opFrom_succ nofun
      obtain ⟨hle, hin⟩ := htold.none_inside
      have hlt : c.offset < t.offset :=
        Nat.lt_of_lt_of_le (hb.lt_offset (by cases op <;> exact List.cons_ne_nil _ _))
          ((Grammar.offset_afterLayout _ _ _).trans hle)
      rw [join_of_lt (Nat.lt_of_le_of_lt hops.1 hlt)]
      exact .inr ⟨hlt, hin, .inl ⟨_, _, hb.lexemes_eq, op, j, rfl, Nat.le_refl _, hsub rfl⟩⟩
  | @go c d e t t' h hm ih =>
    rcases tells_stepPeg hk h.1 hc with ⟨ho, -⟩ | ⟨op, j, p, rfl, hb, htold, -⟩
    · cases ho
    · have hops := h₀.ops_of_lexeme hb.lexemes_eq not_opFrom_succ nofun
      have heats : (stepPeg op.level).eats ranking.eats = true := by
        cases op <;> rfl
      have hlt := Nat.lt_of_le_of_lt hops.1 (lt_offset_of_reaches heats (h.2 d rfl))
      rw [← join_assoc]
      exact ih (afterLayout_settled d) (LevelEnds.join_left htold hlt)

/-- Attempts at a level of operators. -/
theorem told_level (hk : k < 6) (h : grammar.Tells Told (levelRule k).body c o t)
    (hc : c.Settled) :
    LevelTold k c o (t.ofRule false false c.offset (levelRule k) o.isSome) := by
  rw [body_levelRule hk] at h
  rcases h with ⟨rfl, h⟩ | ⟨d, t₁, t₂, h, ⟨e, e', hm, rfl, he⟩, rfl⟩
  · rcases tells_levelPeg h hk hc with rfl | ⟨hlt, hin, hu⟩
    · refine .inl ?_
      rw [Option.isSome_none, ofRule_listed, if_pos hk]
      rcases Nat.lt_or_eq_of_le (Nat.succ_le_of_lt hk) with hk' | hk'
      · rw [if_pos hk']
        rfl
      · obtain rfl : k = 5 := Nat.succ.inj hk'
        rfl
    · rw [Option.isSome_none, ofRule_of_lt hlt]
      exact .inr ⟨hlt, hin, hu⟩
  · obtain rfl := eq_afterLayout (afterLayout_settled d) he
    exact tells_rounds hk hm (afterLayout_settled d) (tells_levelPeg h hk hc)

/-! ## Calls -/

/-- A name that is joined to something is joined to an opening bracket. -/
theorem exists_openParen {s : String} (hb : c.Before ⟨.word s, true⟩ p) :
    p.Settled ∧ ∃ q, p.Before ⟨.openParen, false⟩ q := by
  have hj := hb.joined_eq
  rcases hr : p.rest with _ | ⟨x, rest⟩
  · simp [hr, Token.joins] at hj
  · obtain rfl : x = '(' := by simpa [hr, Token.joins] using hj
    have hp : p.Settled := by
      rw [Cursor.Settled, hr]
      rfl
    exact ⟨hp, _, Token.Plain.openParen.before hp (Cursor.pass?_of_eq (s := ['(']) hr)⟩

/-- Attempts at calls. -/
theorem told_call (h : grammar.Tells Told Rule.call.body c o t) (hc : c.Settled) :
    CallTold c o (t.ofRule false false c.offset .call o.isSome) := by
  rcases tells_peek_seq rfl h hc with ⟨rfl, rfl⟩ | ⟨⟨d, hcallee⟩, h⟩
  · exact .inl (ofRule_one c.offset Rule.call Rule.callee)
  obtain ⟨s, ls, hs, hls⟩ := reaches_callee hc hcallee
  obtain ⟨p, hb, -⟩ := before_of_lexemes hc hls
  obtain ⟨hp, q, hq⟩ := exists_openParen hb
  rcases tells_name_seq h hc with ⟨-, -, hno⟩ | ⟨s', j, p', -, hb', h⟩
  · cases hno.unique (parses_identifier hc hb hs)
  obtain ⟨-, rfl⟩ := hb.unique hb'
  rw [afterLayout_of_settled hp] at h
  rcases h.text_seq with ⟨hno, -⟩ | ⟨q', hq', h⟩
  · exact absurd (hq.pass?.symm.trans hno) (Option.some_ne_none q)
  obtain rfl : q = q' := Option.some.inj (hq.pass?.symm.trans hq')
  rcases h.seq_text with ⟨rfl, -, hargs⟩ | ⟨e, ⟨-, hargs⟩, ho⟩
  · obtain ⟨d, hd, -⟩ := hargs (afterLayout_settled q)
    cases hd
  obtain ⟨e', he', hclosed, hunclosed⟩ : ArgsTold _ (some e) t := hargs (afterLayout_settled q)
  obtain rfl := Option.some.inj he'
  cases o with
  | some d =>
    have hbd := Token.Plain.closeParen.before (afterLayout_settled e) ho.symm
    exact Nat.lt_of_le_of_lt (hclosed (beforeParen_of_pass? ho.symm))
      (hbd.lt_offset (by simp [Token.text]))
  | none =>
    obtain ⟨hle, hin, o', t', htries, habs, hopen⟩ :=
      hunclosed (not_beforeParen_of_pass? ho.symm)
    have hpt : p.offset < t.offset := Nat.lt_of_lt_of_le (lt_offset_of_pass? hq') hle
    have hct : c.offset < t.offset := by
      rw [hb.advance_eq] at hpt
      exact Nat.lt_of_le_of_lt (Nat.le_add_right _ _) hpt
    rw [Option.isSome_none, ofRule_of_lt hct]
    exact .inr ⟨s, p, hs, hb, hpt, hin, .inr ⟨t', ⟨hp, q, o', hq, htries, hopen⟩, habs⟩⟩

/-! ## Lists with commas -/

/-- A comma and something else. -/
theorem tells_comma_seq (h : grammar.Tells Told (.seq (string ",") y) c o t) (hc : c.Settled) :
    (o = none ∧ t = .initial) ∨ ∃ p, c.Before ⟨.comma, false⟩ p ∧
      c.offset < (grammar.afterLayout false p).offset ∧
      grammar.Tells Told y (grammar.afterLayout false p) o t := by
  rcases h.text_seq with ⟨-, ho, ht⟩ | ⟨p, hp, h⟩
  · exact .inl ⟨ho, ht⟩
  · exact .inr ⟨p, Token.Plain.comma.before hc hp, lt_offset_of_pass? hp, h⟩

theorem not_beforeParen_of_comma (hb : c.Before ⟨.comma, false⟩ p) :
    ¬BeforeParen (lexemes c.rest) := by
  rintro ⟨rest, hrest⟩
  rw [hb.lexemes_eq] at hrest
  cases hrest

/-- The further arguments, behind an expression that has reported `t₀`. In front of a closing
bracket the operators are listed; elsewhere the record is inside the text. -/
theorem tells_arguments {e : Cursor}
    (h : grammar.Repeats Told (.seq (string ",") expression) c e t)
    (hc : c.Settled) (h₀ : LevelEnds 0 c t₀) :
    c.offset ≤ (t₀.join t).offset ∧ Inside (t₀.join t) ∧
      (BeforeParen (lexemes e.rest) → (t₀.join t).offset ≤ e.offset) := by
  induction h generalizing t₀ with
  | @stop c t h =>
    rcases tells_comma_seq h.1 hc with ⟨-, rfl⟩ | ⟨p, hb, hlt, -, htold⟩
    · rw [join_initial]
      rcases h₀ with h₀ | h₀
      · have hoffset := h₀.lists.1
        exact ⟨hoffset.ge, h₀.inside, fun _ => hoffset.le⟩
      · refine ⟨Nat.le_of_lt h₀.1, h₀.2.1, ?_⟩
        rintro ⟨rest, hrest⟩
        have hops := LevelEnds.ops_of_lexeme (.inr h₀) hrest (not_opFrom nofun) nofun
        exact hops.1
    · -- the expression behind the comma is missing
      have hops := h₀.ops_of_lexeme hb.lexemes_eq (not_opFrom nofun) nofun
      obtain ⟨hle, hin⟩ : (grammar.afterLayout false p).offset ≤ t.offset ∧ Inside t :=
        LevelTold.none_inside (htold (afterLayout_settled p))
      have hct := Nat.lt_of_lt_of_le hlt hle
      rw [join_of_lt (Nat.lt_of_le_of_lt hops.1 hct)]
      exact ⟨Nat.le_of_lt hct, hin, fun hp => absurd hp (not_beforeParen_of_comma hb)⟩
  | @go c d e t t' h hm ih =>
    rcases tells_comma_seq h.1 hc with ⟨ho, -⟩ | ⟨p, hb, -, -, htold⟩
    · cases ho
    · have hops := h₀.ops_of_lexeme hb.lexemes_eq (not_opFrom nofun) nofun
      have htold : LevelEnds 0 (grammar.afterLayout false d) t := htold (afterLayout_settled p)
      have hlt := lt_offset_of_reaches (by decide) (h.2 d rfl)
      rw [← join_assoc]
      obtain ⟨hle, hin, hclosed⟩ := ih (afterLayout_settled d)
        (htold.join_left (Nat.lt_of_le_of_lt hops.1 hlt))
      exact ⟨(Nat.le_of_lt hlt).trans hle, hin, hclosed⟩

/-- In front of a closing bracket a repetition behind commas takes no step. -/
theorem eq_of_rounds {e : Cursor}
    (h : grammar.Repeats Told (.seq (string ",") x) c e t)
    (hc : c.Settled) (hp : BeforeParen (lexemes c.rest)) : e = c := by
  cases h with
  | stop => rfl
  | go h _ =>
    rcases tells_comma_seq h.1 hc with ⟨ho, -⟩ | ⟨p, hb, -⟩
    · cases ho
    · exact absurd hp (not_beforeParen_of_comma hb)

/-- Attempts at arguments. -/
theorem told_args (h : grammar.Tells Told Rule.args.body c o t) (hc : c.Settled) :
    ArgsTold c o t := by
  obtain ⟨p, h, rfl⟩ := h
  refine ⟨p.getD c, rfl, ?_⟩
  rcases h with ⟨rfl, htries, htold⟩ | ⟨d, t₁, t₂, ⟨htries, htold⟩, ⟨e, e', hm, rfl, he⟩, rfl⟩
  · have htold : LevelTold 0 c none t := htold hc
    obtain ⟨hle, hin⟩ := htold.none_inside
    change (BeforeParen (lexemes c.rest) → t.offset ≤ (grammar.afterLayout false c).offset) ∧
      (¬BeforeParen (lexemes c.rest) → _)
    rw [afterLayout_of_settled hc]
    refine ⟨fun ⟨rest, hrest⟩ => ?_, fun _ => ⟨hle, hin, none, t, htries, .refl t, nofun⟩⟩
    rcases htold with rfl | ⟨-, -, hu⟩
    · exact Nat.le_refl _
    · obtain ⟨ls, hls⟩ := hu.lexemes_eq
      cases hrest.symm.trans hls
  · obtain rfl := eq_afterLayout (afterLayout_settled d) he
    have htold : LevelEnds 0 (grammar.afterLayout false d) t₁ := htold hc
    obtain ⟨hle, hin, hclosed⟩ := tells_arguments hm (afterLayout_settled d) htold
    have hcd := lt_offset_of_reaches (by decide) htries.reaches
    rw [lexemes_afterLayout] at hclosed
    refine ⟨hclosed, fun hno => ⟨(Nat.le_of_lt hcd).trans hle, hin, some d, t₁, htries,
      absorbs_join_left t₁ t₂, fun d' hd' => ?_⟩⟩
    obtain rfl := Option.some.inj hd'
    intro hp
    have heq := eq_of_rounds hm (afterLayout_settled d) (by rwa [lexemes_afterLayout])
    refine hno ?_
    change BeforeParen (lexemes e.rest)
    rwa [← lexemes_afterLayout e, heq, lexemes_afterLayout]

/-- The further parameters report nothing, or that a name is missing behind a comma. -/
theorem tells_names {e : Cursor}
    (h : grammar.Repeats Told (.seq (string ",") (.rule .identifier)) c e t)
    (hc : c.Settled) : t = .initial ∨ c.offset ≤ t.offset ∧ Lists t .identifier ∧
      ¬BeforeParen (lexemes e.rest) := by
  induction h with
  | @stop c t h =>
    rcases tells_comma_seq h.1 hc with ⟨-, rfl⟩ | ⟨p, hb, hlt, htries, -⟩
    · exact .inl rfl
    · obtain rfl : t = listed _ [.identifier] := tries_simple (.inl rfl) htries
      exact .inr ⟨Nat.le_of_lt hlt, fun _ => .rfl, not_beforeParen_of_comma hb⟩
  | @go c d e t t' h hm ih =>
    rcases tells_comma_seq h.1 hc with ⟨ho, -⟩ | ⟨p, hb, -, htries, -⟩
    · cases ho
    · obtain rfl : t = .initial := tries_simple (.inl rfl) htries
      rw [initial_join]
      have hlt := lt_offset_of_reaches (by decide) (h.2 d rfl)
      exact (ih (afterLayout_settled d)).imp_right fun ⟨hle, hl⟩ =>
        ⟨(Nat.le_of_lt hlt).trans hle, hl⟩

/-- Attempts at parameters. -/
theorem told_params (h : grammar.Tells Told Rule.params.body c o t) (hc : c.Settled) :
    ParamsTold c o t := by
  obtain ⟨p, h, rfl⟩ := h
  refine ⟨p.getD c, rfl, ?_⟩
  rcases tells_name_seq h hc with ⟨rfl, rfl, -⟩ | ⟨s, j, d, -, hb, e, e', hm, rfl, he⟩
  · refine ⟨.inr ⟨Nat.le_refl _, fun _ => .rfl⟩, fun _ => ?_⟩
    exact Grammar.offset_afterLayout _ _ _
  · obtain rfl := eq_afterLayout (afterLayout_settled d) he
    have hcd : c.offset ≤ (grammar.afterLayout false d).offset := by
      refine Nat.le_trans ?_ (Grammar.offset_afterLayout _ _ _)
      rw [hb.advance_eq]
      exact Nat.le_add_right _ _
    rcases tells_names hm (afterLayout_settled d) with rfl | ⟨hle, hl, hno⟩
    · exact ⟨.inl rfl, fun _ => Nat.zero_le _⟩
    · rw [lexemes_afterLayout] at hno
      exact ⟨.inr ⟨hcd.trans hle, hl⟩, fun hp => absurd hp hno⟩

end IntScript
