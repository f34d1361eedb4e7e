import IntScript.Proofs.Failure.Expressions

/-!
# What statements report

* `Fails c t` : nothing is reported, or what is asked for behind the place `c`;
* `tells_word_seq` : a keyword is tried as a text, and what stands behind it only if it is a word;
* `tells_braced` : attempts at bodies;
* `told_function`, `told_variable`, `told_loop`, `told_conditional`, `told_ret`, `told_assignment` :
  attempts at the statements.
-/

namespace IntScript

open Lexeme Peg Furthest

variable {t t₁ t₂ t₀ : Furthest Rule} {c d p : Cursor} {o : Option Cursor} {k : String} {r : Rule}
  {rs : List Rule} {l : Lexeme} {x y : Peg Rule}

/-! ## Failures -/

/-- Nothing is reported, or what is asked for further on inside the text. -/
def Fails (c : Cursor) (t : Furthest Rule) : Prop := t = .initial ∨ c.offset < t.offset ∧ Inside t

/-- What is reported further back does not matter, and neither does it if nothing is reported. -/
theorem Fails.join (h : Fails d t₂) (h₁ : Inside t₁) (hc : c.offset < t₁.offset)
    (hd : t₁.offset ≤ d.offset) : c.offset < (t₁.join t₂).offset ∧ Inside (t₁.join t₂) := by
  rcases h with rfl | ⟨hlt, hin⟩
  · rw [join_initial]
    exact ⟨hc, h₁⟩
  · rw [join_of_lt (by omega)]
    exact ⟨by omega, hin⟩

/-- A statement that begins with the keyword and fails. -/
theorem WordTold.of_fails (hr : r ∈ rs) (h : Fails c t) (hw : c.word = k.toList) :
    WordTold k rs c none (t.ofRule false false c.offset r false) := by
  rcases h with rfl | ⟨hlt, hin⟩
  · exact .inl ⟨r, hr, ofRule_initial c.offset r⟩
  · rw [ofRule_of_lt hlt]
    exact .inr ⟨hlt, hin, hw⟩

/-! ## Ends -/

theorem StmtEnds.of_lt (h : t.offset < c.offset) : StmtEnds c t := .inl (.of_lt h)

theorem StmtEnds.of_level (h : LevelEnds 0 c t) : StmtEnds c t :=
  .inr (h.imp_right (·.mono fun _ h => .inl h))

theorem StmtEnds.join_left (h : StmtEnds c t) (h₀ : t₀.offset < c.offset) :
    StmtEnds c (t₀.join t) :=
  h.imp (·.join_left h₀) (·.imp (·.join_left h₀) (·.join_left (Nat.le_of_lt h₀)))

theorem Cursor.Before.le_offset (h : c.Before l p) :
    c.offset ≤ (grammar.afterLayout false p).offset := by
  refine Nat.le_trans ?_ (Grammar.offset_afterLayout _ _ _)
  rw [h.advance_eq]
  exact Nat.le_add_right _ _

/-- An equals sign is that of an assignment or half of an equality. -/
theorem exists_bars_of_equals (hc : c.Settled) (h : c.pass? "=".toList = some p) :
    ∃ l ls, lexemes c.rest = l :: ls ∧ Bars l := by
  have hx : c.rest = '=' :: p.rest := (Cursor.eq_of_pass? h).1
  by_cases hp : p.rest.head? = some '='
  · obtain ⟨rest, hrest⟩ := List.head?_eq_some_iff.1 hp
    rw [hrest] at hx
    obtain ⟨e, hb, -⟩ := before_of_cut hc hx (cut_equals_equals rest)
    exact ⟨_, _, hb.lexemes_eq, .inl ⟨.eq, _, rfl, Nat.zero_le _, nofun⟩⟩
  · obtain ⟨e, hb, -⟩ := before_of_cut hc hx (cut_equals hp)
    exact ⟨_, _, hb.lexemes_eq, .inr (.inl rfl)⟩

/-! ## Keywords -/

/-- A keyword that is tried as a text, and something behind it that begins with no name
character. -/
theorem tells_word_seq (hk : k ∈ keywords)
    (h : grammar.Tells Told (.seq (string k) y) c o t)
    (hy : ∀ p x rest o t, p.rest = x :: rest → isNameChar x = true →
      grammar.Tells Told y p o t → o = none ∧ t = .initial) :
    (o = none ∧ t = .initial) ∨ c.word = k.toList ∧ ∃ p, c.pass? k.toList = some p ∧
      grammar.Tells Told y (grammar.afterLayout false p) o t := by
  rcases h.text_seq with ⟨-, ho, ht⟩ | ⟨p, hp, h⟩
  · exact .inl ⟨ho, ht⟩
  have hw := word_of_pass? (all_isNameChar_keyword k hk) hp
  by_cases hnil : p.word = []
  · rw [hnil, List.append_nil] at hw
    exact .inr ⟨hw, p, hp, h⟩
  · obtain ⟨x, rest, hx, hn⟩ := exists_of_word_ne_nil hnil
    rw [afterLayout_of_settled (settled_of_isNameChar hx hn)] at h
    exact .inl (hy p x rest o t hx hn h)

/-- A text that begins with no name character is not tried at one with success. -/
theorem tells_text_nameChar {z : Char} {s rest : List Char} {x' : Char} (hz : isNameChar z = false)
    (h : grammar.Tells Told (.seq (.text (z :: s)) y) p o t) (hx : p.rest = x' :: rest)
    (hn : isNameChar x' = true) : o = none ∧ t = .initial := by
  rcases h.text_seq with ⟨-, ho, ht⟩ | ⟨q, hq, -⟩
  · exact ⟨ho, ht⟩
  · rw [eq_of_pass?_cons hq hx, hz] at hn
    cases hn

/-! ## Conditions and bodies -/

/-- A condition, and something behind it. -/
theorem tells_bracketed_seq (h : grammar.Tells Told (.seq bracketed y) c o t) (hc : c.Settled) :
    (o = none ∧ Fails c t) ∨ ∃ e t₁ t₂, c.offset < t₁.offset ∧ t₁.offset < e.offset ∧ Inside t₁ ∧
      grammar.Tells Told y (grammar.afterLayout false e) o t₂ ∧ t = t₁.join t₂ := by
  rcases h with ⟨rfl, h⟩ | ⟨e, t₁, t₂, h, hy, rfl⟩
  · rcases tells_bracketed h hc with ⟨-, h⟩ | ⟨d, hd, -⟩
    · exact .inl ⟨rfl, h.imp_right fun ⟨hlt, hin, _⟩ => ⟨hlt, hin⟩⟩
    · cases hd
  · rcases tells_bracketed h hc with ⟨he, -⟩ | ⟨d, hd, hlt, hle, hin⟩
    · cases he
    · obtain rfl := Option.some.inj hd
      exact .inr ⟨e, t₁, t₂, hlt, hle, hin, hy, rfl⟩

theorem tells_bracketed_nameChar {x' : Char} {rest : List Char}
    (h : grammar.Tells Told (.seq bracketed y) p o t) (hx : p.rest = x' :: rest)
    (hn : isNameChar x' = true) : o = none ∧ t = .initial := by
  rcases h with ⟨rfl, h⟩ | ⟨e, t₁, t₂, h, -, -⟩
  · exact tells_text_nameChar (s := []) rfl h hx hn
  · cases (tells_text_nameChar (s := []) rfl h hx hn).1

/-- Attempts at a body. -/
theorem tells_braced (h : grammar.Tells Told bracedBlock c o t) :
    (o = none ∧ Fails c t) ∨ ∃ d, o = some d ∧ c.offset < d.offset ∧ t.offset < d.offset := by
  rcases h.text_seq with ⟨-, rfl, rfl⟩ | ⟨p, hp, h⟩
  · exact .inl ⟨rfl, .inl rfl⟩
  have hlt := lt_offset_of_pass? hp
  rcases h.seq_text with ⟨rfl, -, htold⟩ | ⟨e, ⟨htries, htold⟩, ho⟩
  · obtain ⟨d, hd, -⟩ := htold (afterLayout_settled p)
    cases hd
  obtain ⟨d, hd, hends, -⟩ := htold (afterLayout_settled p)
  obtain rfl := Option.some.inj hd
  have hle := (htries.le_offset.1 e rfl).trans (Grammar.offset_afterLayout grammar false e)
  cases o with
  | none =>
    refine .inl ⟨rfl, .inr ?_⟩
    rcases hends with ⟨heq, ops, fn, hl⟩ | ⟨hlt', hin, -⟩
    · exact ⟨by omega, _, rfl, hl⟩
    · exact ⟨by omega, hin⟩
  | some d =>
    have hb := Token.Plain.closeBrace.before (afterLayout_settled e) ho.symm
    have hed := hb.lt_offset (by simp [Token.text])
    rcases hends with ⟨heq, -⟩ | ⟨-, -, hno⟩
    · exact .inr ⟨d, rfl, by omega, by omega⟩
    · exact absurd hb.lexemes_eq (hno _)

/-! ## Statements -/

/-- Attempts at functions. Without the brackets behind the name, or with something else between
them, the function is asked for as a whole. -/
theorem told_function (h : grammar.Tells Told Rule.function.body c o t) (hc : c.Settled) :
    WordTold "fun" [.funWord, .function] c o
      (t.ofRule false false c.offset .function o.isSome) := by
  rcases tells_peek_seq rfl h hc with ⟨rfl, rfl⟩ | ⟨⟨d, hd⟩, h⟩
  · exact .inl ⟨.funWord, by simp, ofRule_one c.offset Rule.function Rule.funWord⟩
  have hw : c.word = "fun".toList := word_of_reaches rfl rfl (by decide) hd
  have hfails : ∀ {t}, Fails c t → WordTold "fun" [.funWord, .function] c none
      (t.ofRule false false c.offset .function false) := fun h => .of_fails (by simp) h hw
  rcases h.text_seq with ⟨-, rfl, rfl⟩ | ⟨p, hp, h⟩
  · exact hfails (.inl rfl)
  have hcp := lt_offset_of_pass? hp
  rcases tells_name_seq h (afterLayout_settled p) with ⟨rfl, rfl, -⟩ | ⟨s, j, q, -, hb, h⟩
  · exact hfails (.inr ⟨hcp, inside_listed (a := .identifier) rfl⟩)
  have hpq := hb.le_offset
  rcases h.text_seq with ⟨-, rfl, rfl⟩ | ⟨q', hq', h⟩
  · exact hfails (.inl rfl)
  have hqq' := lt_offset_of_pass? hq'
  rcases h with ⟨rfl, -, hparams⟩ | ⟨e, t₁, t₂, ⟨htries, hparams⟩, hbody, rfl⟩
  · obtain ⟨e, he, -⟩ := hparams (afterLayout_settled q')
    cases he
  obtain ⟨e', he', hnames, hclosed⟩ : ParamsTold _ (some e) t₁ := hparams (afterLayout_settled q')
  obtain rfl := Option.some.inj he'
  have hqe := (htries.le_offset.1 e rfl).trans (Grammar.offset_afterLayout grammar false e)
  have hfails₁ : Fails c t₁ := hnames.imp_right fun ⟨hle, hl⟩ => ⟨by omega, _, rfl, hl⟩
  rcases hbody.text_seq with ⟨-, rfl, rfl⟩ | ⟨e', he', hbraced⟩
  · rw [join_initial]
    exact hfails hfails₁
  have ht₁ := hclosed (beforeParen_of_pass? he')
  have hee' := lt_offset_of_pass? he'
  rcases tells_braced hbraced with ⟨rfl, rfl | ⟨hlt, hin⟩⟩ | ⟨d, rfl, hed, htd⟩
  · rw [join_initial]
    exact hfails hfails₁
  · rw [join_of_lt (by omega)]
    exact hfails (.inr ⟨by omega, hin⟩)
  · refine ⟨hw, .of_lt (Nat.lt_of_lt_of_le ?_ (Grammar.offset_afterLayout _ _ _))⟩
    change (t₁.join t₂).offset < d.offset
    rw [offset_join]
    omega

/-- Attempts at declarations. Behind the name, an initialiser that fails is given up. -/
theorem told_variable (h : grammar.Tells Told Rule.variable.body c o t) (hc : c.Settled) :
    WordTold "var" [.varWord] c o (t.ofRule false false c.offset .variable o.isSome) := by
  rcases tells_peek_seq rfl h hc with ⟨rfl, rfl⟩ | ⟨⟨d, hd⟩, h⟩
  · exact .inl ⟨.varWord, by simp, ofRule_one c.offset Rule.variable Rule.varWord⟩
  have hw : c.word = "var".toList := word_of_reaches rfl rfl (by decide) hd
  rcases h.text_seq with ⟨hno, -⟩ | ⟨p, hp, h⟩
  · have hpass := pass?_word c
    rw [hw] at hpass
    cases hpass.symm.trans hno
  have hcp := lt_offset_of_pass? hp
  rcases tells_name_seq h (afterLayout_settled p) with ⟨rfl, rfl, -⟩ | ⟨s, j, q, -, hb, h⟩
  · rw [Option.isSome_none, ofRule_of_lt hcp]
    exact .inr ⟨hcp, inside_listed (a := .identifier) rfl, hw⟩
  have hq := afterLayout_settled q
  obtain ⟨p', hinit, rfl⟩ := h
  refine ⟨hw, ?_⟩
  rcases hinit.text_seq with ⟨-, rfl, rfl⟩ | ⟨q', hq', -, htold⟩
  · exact .inl (.initial _)
  cases p' with
  | none =>
    obtain ⟨hle, hin⟩ := LevelTold.none_inside (htold (afterLayout_settled q'))
    have hlt := Nat.lt_of_lt_of_le (lt_offset_of_pass? hq') hle
    change StmtEnds (grammar.afterLayout false (grammar.afterLayout false q)) t
    rw [afterLayout_of_settled hq]
    exact .inr (.inr ⟨hlt, hin, .inl (exists_bars_of_equals hq hq')⟩)
  | some d => exact .of_level (htold (afterLayout_settled q'))

/-- Attempts at loops. -/
theorem told_loop (h : grammar.Tells Told Rule.loop.body c o t) :
    WordTold "while" [.loop] c o (t.ofRule false false c.offset .loop o.isSome) := by
  rcases tells_word_seq (by decide) h fun _ _ _ _ _ hx hn h => tells_bracketed_nameChar h hx hn with
    ⟨rfl, rfl⟩ | ⟨hw, p, hp, h⟩
  · exact .inl ⟨.loop, by simp, ofRule_initial c.offset Rule.loop⟩
  have hcp := lt_offset_of_pass? hp
  rcases tells_bracketed_seq h (afterLayout_settled p) with
    ⟨rfl, hf⟩ | ⟨e, t₁, t₂, hlt, hle, hin, hbody, rfl⟩
  · exact .of_fails (by simp) (hf.imp_right fun ⟨hlt, hin⟩ => ⟨by omega, hin⟩) hw
  have hee := Grammar.offset_afterLayout grammar false e
  rcases tells_braced hbody with ⟨rfl, hf⟩ | ⟨d, rfl, hed, htd⟩
  · exact .of_fails (by simp) (.inr (hf.join hin (by omega) (by omega))) hw
  · refine ⟨hw, .of_lt (Nat.lt_of_lt_of_le ?_ (Grammar.offset_afterLayout _ _ _))⟩
    change (t₁.join t₂).offset < d.offset
    rw [offset_join]
    omega

/-- Attempts at conditionals. Behind the first body, an alternative that fails is given up. -/
theorem told_conditional (h : grammar.Tells Told Rule.conditional.body c o t) :
    WordTold "if" [.conditional] c o (t.ofRule false false c.offset .conditional o.isSome) := by
  rcases tells_word_seq (by decide) h fun _ _ _ _ _ hx hn h => tells_bracketed_nameChar h hx hn with
    ⟨rfl, rfl⟩ | ⟨hw, p, hp, h⟩
  · exact .inl ⟨.conditional, by simp, ofRule_initial c.offset Rule.conditional⟩
  have hcp := lt_offset_of_pass? hp
  rcases tells_bracketed_seq h (afterLayout_settled p) with
    ⟨rfl, hf⟩ | ⟨e, t₁, t', hlt, hle, hin, hbody, rfl⟩
  · exact .of_fails (by simp) (hf.imp_right fun ⟨hlt, hin⟩ => ⟨by omega, hin⟩) hw
  have hee := Grammar.offset_afterLayout grammar false e
  have hfails : ∀ {t₂}, Fails (grammar.afterLayout false e) t₂ → WordTold "if" [.conditional] c none
      ((t₁.join t₂).ofRule false false c.offset .conditional false) := fun h =>
    .of_fails (by simp) (.inr (h.join hin (by omega) (by omega))) hw
  rcases hbody with ⟨rfl, hbraced⟩ | ⟨q, t₂, t₃, hbraced, ⟨p', helse, rfl⟩, rfl⟩
  · rcases tells_braced hbraced with ⟨-, h⟩ | ⟨d, hd, -⟩
    · exact hfails h
    · cases hd
  rcases tells_braced hbraced with ⟨hq, -⟩ | ⟨q', hq', heq, htq⟩
  · cases hq
  obtain rfl := Option.some.inj hq'
  have hqq := Grammar.offset_afterLayout grammar false q
  have hq := afterLayout_settled q
  refine ⟨hw, ?_⟩
  change StmtEnds _ (t₁.join (t₂.join t₃))
  rw [← join_assoc]
  have hends : ∀ {d}, StmtEnds d t₃ → q.offset ≤ d.offset → StmtEnds d ((t₁.join t₂).join t₃) :=
    fun h hd => h.join_left (by rw [offset_join]; omega)
  rcases tells_word_seq (by decide) helse fun _ _ _ _ _ hx hn h =>
      tells_text_nameChar (s := []) rfl h hx hn with ⟨rfl, rfl⟩ | ⟨helseWord, p', hp', hbraced'⟩
  · refine hends (.inl (.initial _)) ?_
    exact hqq.trans (Grammar.offset_afterLayout _ _ _)
  have hqp := lt_offset_of_pass? hp'
  rcases tells_braced hbraced' with
    ⟨rfl, rfl | ⟨hlt', hin'⟩⟩ | ⟨d, rfl, hpd, htd⟩
  · refine hends (.inl (.initial _)) ?_
    exact hqq.trans (Grammar.offset_afterLayout _ _ _)
  · obtain ⟨-, j, d, hb⟩ := before_of_keyword (by decide) helseWord
    change StmtEnds (grammar.afterLayout false (grammar.afterLayout false q)) _
    rw [afterLayout_of_settled hq]
    exact hends (.inr (.inr ⟨by omega, hin', .inl ⟨_, _, hb.lexemes_eq, .inr (.inr rfl)⟩⟩)) hqq
  · have hdd := Grammar.offset_afterLayout grammar false d
    change StmtEnds (grammar.afterLayout false d) _
    exact hends (.of_lt (Nat.lt_of_lt_of_le htd hdd)) (by omega)

/-- Attempts at returns. -/
theorem told_ret (h : grammar.Tells Told Rule.ret.body c o t) (hc : c.Settled) :
    WordTold "return" [.returnWord] c o (t.ofRule false false c.offset .ret o.isSome) := by
  rcases tells_peek_seq rfl h hc with ⟨rfl, rfl⟩ | ⟨⟨d, hd⟩, h⟩
  · exact .inl ⟨.returnWord, by simp, ofRule_one c.offset Rule.ret Rule.returnWord⟩
  have hw : c.word = "return".toList := word_of_reaches rfl rfl (by decide) hd
  rcases h.text_seq with ⟨hno, -⟩ | ⟨p, hp, -, htold⟩
  · have hpass := pass?_word c
    rw [hw] at hpass
    cases hpass.symm.trans hno
  cases o with
  | none =>
    obtain ⟨hle, hin⟩ := LevelTold.none_inside (htold (afterLayout_settled p))
    have hlt := Nat.lt_of_lt_of_le (lt_offset_of_pass? hp) hle
    rw [Option.isSome_none, ofRule_of_lt hlt]
    exact .inr ⟨hlt, hin, hw⟩
  | some d => exact ⟨hw, .of_level (htold (afterLayout_settled p))⟩

/-- Attempts at assignments. The sign is one equals sign, with no other behind it. -/
theorem told_assignment (h : grammar.Tells Told Rule.assignment.body c o t) (hc : c.Settled) :
    AssignTold c o (t.ofRule false false c.offset .assignment o.isSome) := by
  rcases tells_name_seq h hc with ⟨rfl, rfl, -⟩ | ⟨s, j, p, hs, hb, h⟩
  · exact .inl ⟨rfl, ofRule_one c.offset Rule.assignment Rule.identifier⟩
  refine .inr ⟨s, j, p, hs, hb, ?_⟩
  have hcp := hb.le_offset
  have hp := afterLayout_settled p
  rcases h.text_seq with ⟨-, rfl, rfl⟩ | ⟨q, hq, h⟩
  · exact .inr ⟨rfl, .inl (ofRule_initial c.offset Rule.assignment)⟩
  rcases h with ⟨rfl, hno, -⟩ | ⟨q', t₁, t₂, ⟨hno, p', hdeny, hq'⟩, ⟨-, htold⟩, rfl⟩
  · rw [hno rfl]
    exact .inr ⟨rfl, .inl (ofRule_initial c.offset Rule.assignment)⟩
  rw [hno rfl, initial_join]
  obtain rfl : p' = none := by
    by_contra hsome
    rw [if_pos (Option.isSome_iff_ne_none.2 hsome)] at hq'
    cases hq'
  obtain rfl : q' = grammar.afterLayout false q := Option.some.inj hq'
  have hpq := lt_offset_of_pass? hq
  cases o with
  | some d => exact .inl ⟨d, rfl, .of_level (htold (afterLayout_settled _))⟩
  | none =>
    obtain ⟨hle, hin⟩ := LevelTold.none_inside (htold (afterLayout_settled _))
    rw [afterLayout_of_settled (afterLayout_settled q)] at hle
    have hassign : (grammar.afterLayout false p).rest = '=' :: q.rest := (Cursor.eq_of_pass? hq).1
    have hone : q.rest.head? ≠ some '=' := by
      intro hhead
      obtain ⟨rest, hrest⟩ := List.head?_eq_some_iff.1 hhead
      have hsettled : q.Settled := by
        rw [Cursor.Settled, hrest]
        rfl
      rw [afterLayout_of_settled hsettled] at hdeny
      cases hdeny.unique (.text (by rw [Cursor.pass?_of_eq (s := "=".toList) hrest]))
    obtain ⟨e, hbe, -⟩ := before_of_cut hp hassign (cut_equals hone)
    rw [Option.isSome_none, ofRule_of_lt (by omega)]
    exact .inr ⟨rfl, .inr ⟨by omega, hin, _, _, (lexemes_afterLayout p).symm.trans hbe.lexemes_eq⟩⟩

end IntScript
