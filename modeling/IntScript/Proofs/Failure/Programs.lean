import IntScript.Proofs.Expected
import IntScript.Proofs.Failure.Statements
import Mathlib.Data.List.Perm.Subperm

/-!
# What programs report

* `TailTold` : attempts at the last alternatives of a statement; `tells_alt_word` : with one more that
  begins with a keyword;
* `tells_statement`, `tells_statements` : attempts at statements, one after another;
* `Tries.told` : every attempt at a rule is as `Told` says;
* `exists_tries_of_recognise` : what a text with a syntax error has been tried as.
-/

namespace IntScript

open Lexeme Peg Furthest

variable {t t₁ t₂ t₀ : Furthest Rule} {c d p : Cursor} {o : Option Cursor} {k : String} {r r' : Rule}
  {rs rs' : List Rule} {ks : List String} {l : Lexeme} {x y : Peg Rule}

/-! ## Alternatives -/

/-- Attempts at the alternatives of a statement from some on. The keywords of those are `ks`, and
`rs` is listed where they begin. -/
def TailTold (ks : List String) (rs : List Rule) (c : Cursor) :
    Option Cursor → Furthest Rule → Prop
  | none, t => t = listed c.offset rs ∨
      c.offset < t.offset ∧ Inside t ∧ ((∃ k ∈ ks, c.word = k.toList) ∨ Unclosed c t)
  | some d, t => StmtEnds (grammar.afterLayout false d) t ∧
      c.offset < (grammar.afterLayout false d).offset ∧
      ∀ k ∈ keywords, c.word = k.toList → k ∈ ks

/-- No bracket opens at a keyword. -/
theorem Unclosed.not_keyword (h : Unclosed c t) (hk : k ∈ keywords) : c.word ≠ k.toList := by
  intro hw
  obtain ⟨-, j, d, hb⟩ := before_of_keyword hk hw
  obtain ⟨ls, hls⟩ := h.lexemes_eq
  cases hb.lexemes_eq.symm.trans hls

/-- One more alternative in front, which begins with a keyword of its own. -/
theorem tells_alt_word (hr : RuleTold r = WordTold k (r' :: rs')) (heats : r.eats = true)
    (hk : k ∈ keywords) (hks : k ∉ ks)
    (h : grammar.Tells Told (.alt (.rule r) y) c o t) (hc : c.Settled)
    (hy : ∀ t, grammar.Tells Told y c o t → TailTold ks rs c o t) :
    ∃ s ∈ r' :: rs', TailTold (k :: ks) (s :: rs) c o t := by
  rcases h with ⟨d, rfl, htries, htold⟩ | ⟨t₁, t₂, ⟨-, htold⟩, h, rfl⟩
  · obtain ⟨hw, hends⟩ : WordTold k (r' :: rs') c (some d) t := hr ▸ htold hc
    have hlt := lt_offset_of_reaches (x := .rule r) heats htries.reaches
    refine ⟨r', List.mem_cons_self, hends, hlt, ?_⟩
    intro k' _ hw'
    rw [String.toList_inj.1 (hw'.symm.trans hw)]
    exact List.mem_cons_self
  have htold : WordTold k (r' :: rs') c none t₁ := hr ▸ htold hc
  have hy := hy t₂ h
  cases o with
  | some d =>
    obtain ⟨hends, hlt, hword⟩ := hy
    rcases htold with ⟨s, hs, rfl⟩ | ⟨-, -, hw⟩
    · exact ⟨s, hs, hends.join_left hlt, hlt, fun k' hk' hw => .tail _ (hword k' hk' hw)⟩
    · exact absurd (hword k hk hw) hks
  | none =>
    rcases htold with ⟨s, hs, rfl⟩ | ⟨hlt, hin, hw⟩
    · refine ⟨s, hs, ?_⟩
      rcases hy with rfl | ⟨hlt, hin, hstop⟩
      · exact .inl (listed_join_listed c.offset [s] rs)
      · rw [join_of_lt (by exact hlt)]
        exact .inr ⟨hlt, hin, hstop.imp_left fun ⟨k', hk', hw⟩ => ⟨k', .tail _ hk', hw⟩⟩
    · -- the keyword is none of the other ones
      refine ⟨r', List.mem_cons_self, ?_⟩
      rcases hy with rfl | ⟨-, -, ⟨k', hk', hw'⟩ | hu⟩
      · rw [join_of_gt (by exact hlt)]
        exact .inr ⟨hlt, hin, .inl ⟨k, List.mem_cons_self, hw⟩⟩
      · rw [String.toList_inj.1 (hw'.symm.trans hw)] at hk'
        exact absurd hk' hks
      · exact absurd hw (hu.not_keyword hk)

theorem tells_alt_one (hr : RuleTold r = WordTold k [r']) (heats : r.eats = true)
    (hk : k ∈ keywords) (hks : k ∉ ks) (h : grammar.Tells Told (.alt (.rule r) y) c o t)
    (hc : c.Settled) (hy : ∀ t, grammar.Tells Told y c o t → TailTold ks rs c o t) :
    TailTold (k :: ks) (r' :: rs) c o t := by
  obtain ⟨s, hs, htold⟩ := tells_alt_word hr heats hk hks h hc hy
  rwa [List.mem_singleton.1 hs] at htold

/-- An expression that begins with a name is found, and in front of the sign of an assignment it is
just the name. -/
theorem reaches_expression_of_name {s : String} {j : Bool} (hc : c.Settled)
    (hb : c.Before ⟨.word s, j⟩ p) (hs : s ∉ keywords) :
    ∃ d, grammar.Reaches false expression c d ∧ (StartsAssign (lexemes p.rest) →
      grammar.afterLayout false d = grammar.afterLayout false p) := by
  have hword : IsName s :=
    ⟨isWord_of_mem_lexemes (hb.lexemes_eq ▸ List.mem_cons_self) rfl, hs⟩
  obtain ⟨d, hd, -⟩ := takes_levelPeg (takes_name hword) (Nat.zero_le 6) c _ hc hb.lexemes_eq
  refine ⟨d, hd, fun ⟨i, ls, hl⟩ => ?_⟩
  obtain rfl : j = false := by
    by_contra hj
    obtain rfl : j = true := by simpa using hj
    obtain ⟨-, q, hq⟩ := exists_openParen hb
    cases hq.lexemes_eq.symm.trans hl
  have hread : Reads (.level 0) [⟨.word s, false⟩] (.ok (.ident s)) :=
    (Reads.tight (.name hword)).of_level (Nat.zero_le 6) (Nat.le_refl 6)
  have hbelow : Below 0 (lexemes p.rest) := by
    rintro op j' rest hop
    cases hop.symm.trans hl
  obtain ⟨e, ns, he, hel, -⟩ := hread.matched.expr c _ hc hb.lexemes_eq hbelow
  obtain ⟨ns', hd⟩ := hd
  obtain ⟨rfl, -⟩ := Prod.mk.inj (Option.some.inj (hd.unique he))
  have hspan : Spans (Derives .expr) c d := hd.means sound rfl rfl
  obtain ⟨ls', hls, -⟩ := hspan hc
  obtain rfl : ls' = [⟨.word s, false⟩] := by
    have heq := hls.lexemes_eq.symm.trans hb.lexemes_eq
    rw [hel] at heq
    exact List.append_cancel_right heq
  exact hls.afterLayout_eq.trans (Cursor.Passes.single hc hb).afterLayout_eq.symm

/-- Attempts at the last two alternatives, which begin with no keyword. -/
theorem tells_plain (h : grammar.Tells Told (choice [.rule .assignment, expression]) c o t)
    (hc : c.Settled) : TailTold [] [.identifier, .product] c o t := by
  have hkeyword : ∀ {s j p}, s ∉ keywords → c.Before ⟨.word s, j⟩ p →
      ∀ k ∈ keywords, c.word = k.toList → k ∈ ([] : List String) := fun hs hb k hk hw => by
    rw [(word_of_before hb hc).1] at hw
    exact absurd (String.toList_inj.1 hw ▸ hk) hs
  rcases h with ⟨d, rfl, htries, htold⟩ | ⟨t₁, t₂, ⟨-, htold⟩, ⟨hexpr, hlevel⟩, rfl⟩
  · rcases htold hc with ⟨ho, -⟩ | ⟨s, j, p, hs, hb, ⟨d', hd, hends⟩ | ⟨ho, -⟩⟩
    · cases ho
    · obtain rfl := Option.some.inj hd
      exact ⟨hends, lt_offset_of_reaches (by decide) htries.reaches, hkeyword hs hb⟩
    · cases ho
  have hlevel : LevelTold 0 c o t₂ := hlevel hc
  cases o with
  | none =>
    obtain rfl : t₁ = listed c.offset [.identifier] := by
      rcases htold hc with ⟨-, h⟩ | ⟨s, j, p, hs, hb, -⟩
      · exact h
      · obtain ⟨d, ⟨ns, hd⟩, -⟩ := reaches_expression_of_name hc hb hs
        cases hd.unique hexpr.parses_none
    rcases hlevel with rfl | ⟨hlt, hin, hu⟩
    · exact .inl (listed_join_listed c.offset [Rule.identifier] [Rule.product])
    · rw [join_of_lt (by exact hlt)]
      exact .inr ⟨hlt, hin, .inr hu⟩
  | some d =>
    have hlt := lt_offset_of_reaches (by decide) hexpr.reaches
    have hword : ∀ k ∈ keywords, c.word = k.toList → k ∈ ([] : List String) := by
      intro k hk hw
      obtain ⟨-, j, q, hb⟩ := before_of_keyword hk hw
      refine absurd (misses_expression c hc ?_) hexpr.not_none
      rintro ⟨l, ls, hl, hs⟩
      rw [hb.lexemes_eq] at hl
      cases hl
      simp [Token.startsExpr, hk] at hs
    have hjoin : ∀ r', StmtEnds (grammar.afterLayout false d) ((listed c.offset [r']).join t₂) :=
      fun r' => (StmtEnds.of_level hlevel).join_left hlt
    rcases htold hc with
      ⟨-, rfl⟩ | ⟨s, j, p, hs, hb, ⟨d', hd', -⟩ | ⟨-, rfl | ⟨hpt, hin, hassign⟩⟩⟩
    · exact ⟨hjoin _, hlt, hword⟩
    · cases hd'
    · exact ⟨hjoin _, hlt, hword⟩
    · -- the expression is just the name, and it ends in front of the sign
      refine ⟨?_, hlt, hword⟩
      obtain ⟨d', ⟨ns, hd'⟩, hdp⟩ := reaches_expression_of_name hc hb hs
      obtain ⟨ns', hd⟩ := hexpr.reaches
      obtain ⟨rfl, -⟩ := Prod.mk.inj (Option.some.inj (hd.unique hd'))
      have hdp := hdp hassign
      obtain ⟨i, ls, hl⟩ := hassign
      have hl' : lexemes (grammar.afterLayout false d).rest = ⟨.assign, i⟩ :: ls := by
        rw [hdp, lexemes_afterLayout, hl]
      have hops := LevelEnds.ops_of_lexeme hlevel hl' (not_opFrom (by simp)) (by simp)
      rw [← hdp] at hpt
      have hhalts : Halts Bars (grammar.afterLayout false d) t₁ :=
        ⟨hpt, hin, .inl ⟨_, ls, hl', .inr (.inl rfl)⟩⟩
      exact .inr (.inr (hhalts.join_right hops.1))

/-- The rules that are listed where no statement begins, in the order of the attempts. -/
def statementRules (fn : Bool) : List Rule :=
  [if fn then .function else .funWord, .varWord, .loop, .conditional, .returnWord, .identifier,
    .product]

theorem mem_statementRules (fn : Bool) (r : Rule) :
    r ∈ statementRules fn ↔ r ∈ (Asked.statement false false fn).rules := by
  cases fn <;> cases r <;> decide

/-- The keywords that statements begin with. -/
def statementWords : List String := ["fun", "var", "while", "if", "return"]

theorem mem_keywords (hk : k ∈ statementWords) : k ∈ keywords ∧ k ≠ "else" := by
  have h : ∀ k ∈ statementWords, k ∈ keywords ∧ k ≠ "else" := by decide
  exact h k hk

/-- Attempts at statements. -/
theorem tells_statement (h : grammar.Tells Told statement c o t) (hc : c.Settled) :
    ∃ fn, TailTold statementWords (statementRules fn) c o t := by
  have hplain := fun t h => tells_plain (o := o) (t := t) h hc
  have hret := fun t h => tells_alt_one (r := .ret) (t := t) rfl rfl (by decide) (by decide) h hc
    hplain
  have hconditional := fun t h => tells_alt_one (r := .conditional) (t := t) rfl rfl (by decide)
    (by decide) h hc hret
  have hloop := fun t h => tells_alt_one (r := .loop) (t := t) rfl rfl (by decide) (by decide) h hc
    hconditional
  have hvariable := fun t h => tells_alt_one (r := .variable) (t := t) rfl rfl (by decide)
    (by decide) h hc hloop
  obtain ⟨s, hs, htold⟩ := tells_alt_word (r := .function) rfl rfl (by decide) (by decide) h hc
    hvariable
  simp only [List.mem_cons, List.not_mem_nil, or_false] at hs
  rcases hs with rfl | rfl
  · exact ⟨false, htold⟩
  · exact ⟨true, htold⟩

/-! ## Blocks -/

theorem parses_expression_none (h : grammar.Parses false operand c none) :
    grammar.Parses false expression c none := by
  have hlevel : ∀ k ≤ 6, grammar.Parses false (levelPeg k) c none := by
    intro k hk
    induction hk using Nat.decreasingInduction with
    | self => exact h
    | of_succ k hk ih =>
      rw [levelPeg_of_lt hk]
      refine parses_rule (o := none) (atomic_levelRule k) ?_
      rw [body_levelRule hk]
      exact .seqFail ih
  exact hlevel 0 (by decide)

/-- Where a lexeme comes first that is neither a literal's nor a word, unless it is `else`, and where
no bracket is closed, there is no statement. -/
theorem parses_statement_none {ls : List Lexeme} (hc : c.Settled) (hl : lexemes c.rest = l :: ls)
    (hword : ∀ s, l.token = .word s → s = "else") (hnumber : ∀ ds, l.token ≠ .number ds)
    (hsign : l ≠ ⟨.op .sub, true⟩) (hbracketed : grammar.Parses false bracketed c none) :
    grammar.Parses false statement c none := by
  have hnot : ∀ k ∈ keywords, k ≠ "else" → NotWord k (lexemes c.rest) := by
    intro k hk hne j rest hrest
    rw [hl] at hrest
    cases hrest
    exact hne (hword k rfl)
  have hname : ∀ s j rest, lexemes c.rest = ⟨.word s, j⟩ :: rest → s ∈ keywords := by
    intro s j rest hrest
    rw [hl] at hrest
    cases hrest
    rw [hword s rfl]
    decide
  have hliteral : grammar.Parses false (.rule .literal) c none := misses_literal c hc (by
    intro l' rest hrest
    rw [hl] at hrest
    cases hrest
    exact ⟨hnumber, hsign⟩)
  have hoperand : grammar.Parses false operand c none :=
    .altRight (misses_call c hc fun s rest => hname s true rest)
      (.altRight hliteral (.altRight (misses_identifier c hc hname) hbracketed))
  exact .altRight (misses_function c hc (hnot _ (by decide) (by decide)))
    (.altRight (misses_variable c hc (hnot _ (by decide) (by decide)))
    (.altRight (misses_loop c hc (hnot _ (by decide) (by decide)))
    (.altRight (misses_conditional c hc (hnot _ (by decide) (by decide)))
    (.altRight (misses_ret c hc (hnot _ (by decide) (by decide)))
    (.altRight (misses_assignment c hc fun s j rest hrest hs => absurd (hname s j rest hrest) hs)
      (parses_expression_none hoperand))))))

/-- Where nothing goes on, there is no statement. -/
theorem Halts.parses_none (h : Halts Bars c t) (hc : c.Settled) :
    grammar.Parses false statement c none := by
  obtain ⟨-, -, ⟨l, ls, hl, hbars⟩ | ⟨t', ⟨-, p, o, hb, htries, hopen⟩, -⟩⟩ := h
  · have hparen : grammar.Parses false bracketed c none :=
      .seqFail (parses_solid_none Token.solid_openParen hc fun j rest hrest => by
        rw [hl] at hrest
        cases hrest
        rcases hbars with ⟨op, j, h, -⟩ | h | h <;> cases h)
    refine parses_statement_none hc hl (fun s hs => ?_) (fun ds hds => ?_) ?_ hparen
    · rcases hbars with ⟨op, j, rfl, -⟩ | h | h
      · cases hs
      · cases h.symm.trans hs
      · exact (Token.word.inj (h.symm.trans hs)).symm
    · rcases hbars with ⟨op, j, rfl, -⟩ | h | h
      · cases hds
      · cases h.symm.trans hds
      · cases h.symm.trans hds
    · rintro rfl
      rcases hbars with ⟨op, j, h, -, hsub⟩ | h | h
      · cases h
        cases hsub rfl
      · cases h
      · cases h
  · have hparen : grammar.Parses false bracketed c none := by
      refine .seq (p := none) (parses_token hb) ?_ rfl
      obtain ⟨q, hq, rfl⟩ := htries.parses
      cases q with
      | none => exact .seqFail hq
      | some q =>
        refine .seq (p := none) hq (.text ?_) rfl
        cases hp : (grammar.afterLayout false q.1).pass? ")".toList with
        | none => rfl
        | some d => exact absurd (beforeParen_of_pass? hp) (hopen q.1 rfl)
    exact parses_statement_none hc hb.lexemes_eq nofun nofun nofun hparen

/-- What a statement can get beyond its beginning with: a keyword, or a bracket that is not
closed. -/
def Ventures (c : Cursor) (t : Furthest Rule) : Prop :=
  (∃ k ∈ statementWords, c.word = k.toList) ∨ Unclosed c t

theorem Ventures.exists_lexeme (h : Ventures c t) :
    ∃ l ls, lexemes c.rest = l :: ls ∧ ¬Bars l ∧ l.token ≠ .closeBrace := by
  rcases h with ⟨k, hk, hw⟩ | hu
  · obtain ⟨hkeyword, helse⟩ := mem_keywords hk
    obtain ⟨-, j, d, hb⟩ := before_of_keyword hkeyword hw
    refine ⟨_, _, hb.lexemes_eq, ?_, nofun⟩
    rintro (⟨op, j, h, -⟩ | h | h)
    · cases h
    · cases h
    · exact helse (Token.word.inj h)
  · obtain ⟨ls, hls⟩ := hu.lexemes_eq
    refine ⟨_, ls, hls, ?_, nofun⟩
    rintro (⟨op, j, h, -⟩ | h | h) <;> cases h

/-- Where nothing goes on, no statement gets any further, either. -/
theorem Halts.absorbs (h : Halts Bars c t₀) (ht : Ventures c t) : t₀.Absorbs t := by
  obtain ⟨l, ls, hl, hbars, -⟩ := ht.exists_lexeme
  obtain ⟨-, -, ⟨l', ls', hl', hbars'⟩ | ⟨t', hu, habsorbs⟩⟩ := h
  · cases hl.symm.trans hl'
    exact absurd hbars' hbars
  · rcases ht with ⟨k, hk, hw⟩ | hu'
    · exact absurd hw (hu.not_keyword (mem_keywords hk).1)
    · exact hu'.unique hu ▸ habsorbs

/-- The further statements, behind one that has reported `t₀`. -/
theorem tells_statements {e : Cursor} (h : grammar.Repeats Told statement c e t) (hc : c.Settled)
    (h₀ : StmtEnds c t₀) : BlockEnds e (t₀.join t) := by
  induction h generalizing t₀ with
  | @stop c t h =>
    obtain ⟨fn, rfl | ⟨hlt, hin, hstop⟩⟩ := tells_statement h.1 hc
    · rcases h₀ with h₀ | h₀ | h₀
      · obtain ⟨hoffset, hmem⟩ := h₀.join_listed (statementRules fn)
        refine .inl ⟨hoffset, false, fn, fun r => (hmem r).trans ?_⟩
        rw [mem_statementRules, or_iff_right]
        rintro ⟨i, hi, hi', -⟩
        omega
      · obtain ⟨hoffset, hmem⟩ := h₀.join_listed (statementRules fn)
        refine .inl ⟨hoffset, true, fn, fun r => (hmem r).trans ?_⟩
        rw [mem_statementRules, exists_opRule]
        cases fn <;> cases r <;> decide
      · rw [join_of_gt (by exact h₀.1)]
        refine .inr ⟨h₀.1, h₀.2.1, fun ls hls => ?_⟩
        obtain ⟨l, ls', hl, hbars | rfl⟩ := h₀.exists_lexeme
        · cases hls.symm.trans hl
          rcases hbars with ⟨op, j, h, -⟩ | h | h <;> cases h
        · cases hls.symm.trans hl
    · have hventures : Ventures c t := hstop
      have hclose : ∀ ls, lexemes c.rest ≠ ⟨.closeBrace, false⟩ :: ls := fun ls hls => by
        obtain ⟨l, ls', hl, -, hne⟩ := hventures.exists_lexeme
        cases hls.symm.trans hl
        exact hne rfl
      have hbeyond : t₀.offset ≤ c.offset → BlockEnds c (t₀.join t) := fun h₀ => by
        rw [join_of_lt (Nat.lt_of_le_of_lt h₀ hlt)]
        exact .inr ⟨hlt, hin, hclose⟩
      rcases h₀ with h₀ | h₀ | h₀
      · exact hbeyond h₀.1
      · exact hbeyond h₀.1
      · have habsorbs := h₀.absorbs hventures
        refine .inr ⟨?_, h₀.2.1.absorb habsorbs, hclose⟩
        rw [habsorbs.join.1]
        exact h₀.1
  | @go c d e t t' h hm ih =>
    obtain ⟨fn, hends, hlt, -⟩ := tells_statement h.1 hc
    rw [← join_assoc]
    refine ih (afterLayout_settled d) ?_
    rcases h₀ with h₀ | h₀ | h₀
    · exact hends.join_left (Nat.lt_of_le_of_lt h₀.1 hlt)
    · exact hends.join_left (Nat.lt_of_le_of_lt h₀.1 hlt)
    · obtain ⟨ns, hd⟩ := h.2 d rfl
      cases hd.unique (h₀.parses_none hc)

theorem BlockEnds.exists_mem (h : BlockEnds c t) : ∃ r, r ∈ t.expected := by
  obtain ⟨a, hl⟩ : ∃ a, Lists t a := by
    rcases h with ⟨-, ops, fn, hl⟩ | ⟨-, ⟨a, -, hl⟩, -⟩
    · exact ⟨_, hl⟩
    · exact ⟨a, hl⟩
  obtain ⟨r, hr⟩ := List.exists_mem_of_ne_nil _ a.rules_ne_nil
  exact ⟨r, (hl r).2 hr⟩

theorem BlockEnds.le_offset (h : BlockEnds c t) : c.offset ≤ t.offset := by
  rcases h with ⟨h, -⟩ | ⟨h, -⟩
  · exact h.ge
  · exact h.le

/-- Attempts at blocks. -/
theorem told_block (h : grammar.Tells Told Rule.block.body c o t) (hc : c.Settled) :
    BlockTold c o t := by
  obtain ⟨d, d', hm, rfl, hd⟩ := h
  obtain rfl := eq_afterLayout hc hd
  have hends := tells_statements hm hc (.inl (.initial c.offset))
  rw [initial_join] at hends
  refine ⟨d, rfl, hends, fun hoffset => ?_⟩
  cases hm with
  | stop h =>
    obtain ⟨fn, rfl | ⟨hlt, -⟩⟩ := tells_statement h.1 hc
    · exact ⟨fn, lists_listed (mem_statementRules fn)⟩
    · exact absurd hoffset hlt.ne'
  | @go _ e _ t₁ t₂ h hm =>
    -- behind a first statement, the record is behind it, too
    obtain ⟨fn, hends₁, hlt, -⟩ := tells_statement h.1 hc
    have hle := (tells_statements hm (afterLayout_settled e) hends₁).le_offset
    have hgo := hm.le_offset
    omega

/-! ## Rules -/

/-- What is known of the attempts at a rule follows from what its body tells. -/
theorem told_of_tells
    (h : grammar.Tries false false (.rule r) c o (t.ofRule false false c.offset r o.isSome))
    (hr : grammar.atomic r = false → grammar.Tells Told (grammar.body r) c o t) :
    Told r c o (t.ofRule false false c.offset r o.isSome) := by
  refine ⟨h, fun hc => ?_⟩
  -- blocks, parameters and arguments are always found, so nothing is reported of them
  cases r
  case block =>
    have htold := told_block (hr rfl) hc
    obtain ⟨d, rfl, -⟩ := id htold
    exact htold
  case function => exact told_function (hr rfl) hc
  case params =>
    have htold := told_params (hr rfl) hc
    obtain ⟨d, rfl, -⟩ := id htold
    exact htold
  case «variable» => exact told_variable (hr rfl) hc
  case loop => exact told_loop (hr rfl)
  case conditional => exact told_conditional (hr rfl)
  case ret => exact told_ret (hr rfl) hc
  case assignment => exact told_assignment (hr rfl) hc
  case disjunction => exact told_level (k := 0) (by decide) (hr rfl) hc
  case conjunction => exact told_level (k := 1) (by decide) (hr rfl) hc
  case equality => exact told_level (k := 2) (by decide) (hr rfl) hc
  case relation => exact told_level (k := 3) (by decide) (hr rfl) hc
  case sum => exact told_level (k := 4) (by decide) (hr rfl) hc
  case product => exact told_level (k := 5) (by decide) (hr rfl) hc
  case call => exact told_call (hr rfl) hc
  case args =>
    have htold := told_args (hr rfl) hc
    obtain ⟨d, rfl, -⟩ := id htold
    exact htold
  all_goals trivial

/-- Every attempt at a rule is as told. -/
theorem Grammar.Tries.told (h : grammar.Tries false false (.rule r) c o t) : Told r c o t :=
  Grammar.Tries.tells (fun c => afterLayout_of_settled (afterLayout_settled c))
    (fun _ _ _ _ h hr => told_of_tells h hr) h rfl rfl

/-! ## Whole texts -/

/-- Where the statements of a text end, its end is asked for as well. -/
theorem Lists.join_end {ops fn : Bool} (h : Lists t (.statement false ops fn)) :
    Lists (t.join (listed t.offset [.endOfInput])) (.statement true ops fn) := fun r => by
  rw [join_of_eq (by rfl), List.mem_append, h r]
  simp [Asked.rules, listed, or_comm, or_assoc]

theorem BlockEnds.exists_lists (h : BlockEnds c t) : ∃ a ≠ .program,
    Lists (t.join (listed c.offset [.endOfInput])) a ∧
      (.endOfInput ∈ a.rules ↔ t.offset = c.offset) := by
  rcases h with ⟨hoffset, ops, fn, hl⟩ | ⟨hlt, ⟨a, ha, hl⟩, -⟩
  · exact ⟨.statement true ops fn, nofun, hoffset ▸ hl.join_end, by simp [Asked.rules, hoffset]⟩
  · obtain ⟨hne, hend⟩ := a.not_mem_rules_of_inner ha
    refine ⟨a, hne, ?_, iff_of_false hend hlt.ne'⟩
    rwa [join_of_gt (by exact hlt)]

/-- What is reported of a text, when the block it is tried as ends at `d` and reports `t`. -/
def reported (d : Cursor) (t : Furthest Rule) : Furthest Rule :=
  if t.offset = 0 then listed 0 [.program]
  else t.join (listed (grammar.afterLayout false d).offset [.endOfInput])

theorem offset_reported_eq_zero (d : Cursor) (t : Furthest Rule) :
    (reported d t).offset = 0 ↔ t.offset = 0 := by
  rw [reported]
  split
  · next ht => exact iff_of_true rfl ht
  · next ht => exact iff_of_false (by rw [offset_join]; omega) ht

theorem reported_of_pos (h : 0 < (reported d t).offset) :
    reported d t = t.join (listed (grammar.afterLayout false d).offset [.endOfInput]) := by
  rw [reported] at h ⊢
  split at h
  · cases h
  · next ht => rw [if_neg ht]

/-- The rule for programs stands for the several rules that are tried at the beginning. -/
theorem ofRule_program (h : BlockEnds (grammar.afterLayout false d) t) :
    (t.join (listed (grammar.afterLayout false d).offset [.endOfInput])).ofRule false false 0
      .program false = reported d t := by
  rw [reported]
  split
  · next hzero =>
    obtain ⟨hoffset, ops, fn, hl⟩ | ⟨hlt, -⟩ := h
    · have hsubset : [.loop, .conditional] ⊆ t.expected := fun r hr => (hl r).2 <| by
        simp only [List.mem_cons, List.not_mem_nil, or_false] at hr
        rcases hr with rfl | rfl <;> simp [Asked.rules]
      have hlength : 2 ≤ t.expected.length :=
        (List.Nodup.subperm (by decide) hsubset).length_le
      rw [← hoffset, hzero, join_of_eq (by exact hzero)]
      change initial.report _ 0 _ _ = _
      rw [initial_report (.inr (Nat.zero_le _)), countAt_of_eq (by exact hzero), if_neg]
      · rfl
      · simp only [hzero, List.length_append, Nat.lt_irrefl, false_or]
        omega
    · omega
  · rw [ofRule_of_lt]
    rw [offset_join]
    omega

theorem le_offset_reported (d : Cursor) (t : Furthest Rule) : t.offset ≤ (reported d t).offset := by
  rw [reported]
  split
  · next ht => exact Nat.le_of_eq ht
  · rw [offset_join]
    exact Nat.le_max_left _ _

/-- A text with a syntax error is tried as a block, behind the layout that it begins with. -/
theorem exists_tries_of_recognise {text : List Char} {f : Furthest Rule}
    (h : recognise text = .failed f) : ∃ d t,
      grammar.Tries false false (.rule .block) (grammar.afterLayout false (.start text)) (some d) t ∧
        BlockEnds (grammar.afterLayout false d) t ∧ f = reported d t := by
  have hended : (recognise text).ended? = some (none, f) := by rw [h]; rfl
  obtain ⟨t', rfl, htries⟩ := Grammar.tries_of_run hended
  rw [initial_join]
  have hc := afterLayout_settled (.start text)
  cases htries with
  | rule hbody ht =>
    cases hbody with
    | seqFail hstart =>
      cases hstart with
      | start ho => cases ho
    | seq hstart hrest =>
      cases hstart with
      | start ho =>
        obtain rfl := Option.some.inj ho
        cases hrest with
        | seqFail hblock =>
          obtain ⟨d, hd, -⟩ := hblock.told.2 hc
          cases hd
        | @seq _ _ _ _ _ d _ t t₁ hblock hend =>
          obtain ⟨d', hd, hends, -⟩ := hblock.told.2 hc
          obtain rfl := Option.some.inj hd
          obtain rfl : t₁ = listed _ [.endOfInput] := tries_simple (.inr rfl) hend
          rw [initial_join] at ht
          exact ⟨d, t, hblock, hends, ht.trans (ofRule_program hends)⟩

/-- What a text with a syntax error reports is one of the combinations, and at its beginning that is
the whole program. -/
theorem exists_lists_of_recognise {text : List Char} {f : Furthest Rule}
    (h : recognise text = .failed f) : ∃ a, Lists f a ∧ (a = .program ↔ f.offset = 0) := by
  obtain ⟨d, t, -, hends, rfl⟩ := exists_tries_of_recognise h
  rw [reported]
  split
  · exact ⟨.program, fun _ => .rfl, iff_of_true rfl rfl⟩
  · obtain ⟨a, hne, hl, -⟩ := hends.exists_lists
    refine ⟨a, hl, iff_of_false hne ?_⟩
    rw [offset_join]
    omega

end IntScript
