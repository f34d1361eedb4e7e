import IntScript.Proofs.Grammar.Truthful

/-!
# Rules that can stand call only such rules

* `truthful_chain`, `truthful_loop`, ... : the bodies of the rules, one after the other;
* `keeps_call` : a call, whose name has to be joined to its bracket;
* `Stuck.keeps` : the rules of expressions in front of an equals sign;
* `Stands.keeps` : all rules.
-/

namespace IntScript

open Lexeme Peg

variable {x y : Peg Rule} {text : List Char} {c d : Cursor}

/-! ## Expressions -/

/-- A rule that spans its phrases stands where these are awaited. -/
theorem truthful_rule (r : Rule) (hr : r ∉ [.endOfInput, .program, .callee, .keyword, .funWord,
    .varWord, .returnWord]) : Truthful (.rule r) r.phrase := by
  have h : (∀ c d, Sound r c d = Spans r.phrase c d) ∧
      ∀ text c, Awaits text r.phrase c → Stands text r c := by
    cases r <;> first
      | exact ⟨fun _ _ => rfl, fun _ _ => .inl⟩
      | exact absurd hr (by decide)
  exact ⟨r.writable_phrase, fun c d hm => h.1 c d ▸ hm, h.2⟩

theorem truthful_expression : Truthful expression (Derives .expr) :=
  truthful_rule .disjunction (by decide)

theorem truthful_identifier : Truthful (.rule .identifier) IsIdent :=
  truthful_rule .identifier (by decide)

theorem truthful_bracketed : Truthful bracketed (InParens (Derives .expr)) :=
  .inParens truthful_expression

theorem truthful_operand : Truthful operand (Derives .atom) := by
  have hcall : Truthful (.rule .call) (Derives .atom) := truthful_rule .call (by decide)
  have hlit : Truthful (.rule .literal) (Derives .atom) := truthful_rule .literal (by decide)
  have hname : Truthful (.rule .identifier) (Derives .atom) :=
    truthful_identifier.mono (fun _ _ _ => derives_of_isIdent) Unjoins.derives
  have hbracket : Truthful bracketed (Derives .atom) := by
    refine truthful_bracketed.mono ?_ Unjoins.derives
    rintro _ - - ⟨ls, h, rfl⟩
    exact .bracket h
  exact hcall.alt (hlit.alt (hname.alt hbracket))

/-- Operands with operators between them. -/
theorem truthful_chain (hx : Truthful x (Derives .expr)) (hy : Truthful y IsOp) :
    Truthful (.seq x (.many (.seq y x))) (Derives .expr) := by
  refine (hx.seq (hy.seq hx).many).mono ?_ Unjoins.derives
  rintro _ - - ⟨ls₁, ls₂, h₁, h₂, rfl⟩
  exact h₁.chain h₂

theorem truthful_product : Truthful Rule.product.body (Derives .expr) := by
  have hoperand : Truthful operand (Derives .expr) :=
    truthful_operand.mono (fun _ _ _ h => .single h) Unjoins.derives
  exact truthful_chain hoperand (truthful_rule .mulOp (by decide))

theorem truthful_args : Truthful Rule.args.body (Derives .args) := by
  have hcomma := Truthful.plain_seq .comma truthful_expression
  exact (truthful_expression.seq hcomma.many).opt.mono (fun _ _ _ => derives_args) Unjoins.derives

theorem truthful_params : Truthful Rule.params.body IsParams :=
  (truthful_identifier.seq (Truthful.plain_seq .comma truthful_identifier).many).opt

/-- Where a called name is ahead, the name and the bracket are passed. -/
theorem passes_callee {e d' : Cursor} (hc : c.Settled)
    (he : grammar.Reaches false (.rule .callee) c e)
    (hd : grammar.Reaches false (.rule .identifier) c d)
    (hd' : grammar.Reaches false (string "(") (grammar.afterLayout false d) d') :
    ∃ ls, c.Passes ls d' ∧ IsCallee ls := by
  obtain ⟨s, ls, -, hls⟩ := reaches_callee hc he
  obtain ⟨f, j, hf, hb⟩ := reaches_identifier hc hd
  obtain ⟨i, hb'⟩ := before_of_solid Token.solid_openParen (afterLayout_settled d)
    (means_of_reaches hd')
  have hword := hb.lexemes_eq
  obtain ⟨heq, -⟩ := List.cons.inj (hls.symm.trans hword)
  cases heq
  obtain rfl : i = false := hb'.joined_eq
  have hisWord : isWord s.toList = true :=
    isWord_of_mem_lexemes (hword ▸ List.mem_cons_self) rfl
  exact ⟨_, .token hc hb (.layout (.single (afterLayout_settled d) hb')), s, ⟨hisWord, hf⟩, rfl⟩

/-- The name of a call and its bracket are ahead when the arguments are asked for. -/
theorem keeps_call (h : Awaits text (Derives .atom) c) :
    grammar.Keeps (Stands text) Rule.call.body c := by
  have hargs : Truthful (.rule .args) (Derives .args) := truthful_rule .args (by decide)
  have hclose := hargs.seq (.plain .closeParen)
  refine ⟨.inl (h.complete [')'] fun _ _ _ => derives_of_isCallee), fun c' hpeek => ?_⟩
  obtain ⟨rfl, e, he⟩ : c' = c ∧ ∃ e, grammar.Reaches false (.rule .callee) c e :=
    means_of_reaches hpeek
  rw [afterLayout_of_settled h.settled]
  refine ⟨truthful_identifier.keeps text c' (h.mono fun _ _ _ => derives_of_isIdent),
    fun d hd => ⟨trivial, fun d' hd' => hclose.keeps text _ ?_⟩⟩
  have hboth : Awaits text
      (Both IsCallee (Both (Derives .args) (· = [⟨.closeParen, false⟩]))) c' := h.mono <| by
    rintro _ - - ⟨_, _, ⟨f, hf, rfl⟩, ⟨ls, _, hls, rfl, rfl⟩, rfl⟩
    exact .call hf hls
  obtain ⟨ls, hl, hls⟩ := passes_callee h.settled he hd hd'
  exact hboth.step (Rule.writable_phrase .callee).unjoins hl hls

/-! ## In front of other characters -/

/-- Behind characters that the text does not go on with, nothing is asked for. -/
theorem keeps_text_seq {z w : Char} {cs rest : List Char} (hz : c.rest = z :: rest) (hne : z ≠ w) :
    grammar.Keeps (Stands text) (.seq (.text (w :: cs)) y) c :=
  ⟨trivial, fun _ hd => absurd (eq_of_pass?_cons (means_of_reaches hd) hz) hne⟩

theorem ne_of_isNameChar {z w : Char} (hz : isNameChar z = true) (hw : isNameChar w = false) :
    z ≠ w := by
  rintro rfl
  rw [hw] at hz
  cases hz

theorem keeps_braces {z : Char} {rest : List Char} (hz : c.rest = z :: rest)
    (hn : isNameChar z = true) : grammar.Keeps (Stands text) bracedBlock c :=
  keeps_text_seq hz (ne_of_isNameChar hn rfl)

theorem keeps_bracketed_seq {z : Char} {rest : List Char} (hz : c.rest = z :: rest)
    (hn : isNameChar z = true) : grammar.Keeps (Stands text) (.seq bracketed y) c := by
  have hne : z ≠ '(' := ne_of_isNameChar hn rfl
  refine ⟨keeps_text_seq hz hne, fun d hd => ?_⟩
  obtain ⟨e, hpass, -⟩ := means_of_reaches hd
  exact absurd (eq_of_pass?_cons hpass hz) hne

/-! ## In front of an equals sign -/

/-- No expression is spanned from an equals sign. -/
theorem Stuck.not_spans (h : Stuck text c) : ¬Spans (Derives .expr) c d := by
  intro hspan
  obtain ⟨ls, hl, hls⟩ := hspan h.settled
  have hstarts := (startsExpr_of_derives ls hls).append (lexemes d.rest)
  rw [← hl.lexemes_eq] at hstarts
  exact not_startsExpr_of_equals h.head hstarts

theorem Stuck.not_reaches (h : Stuck text c) (hx : Yields x (Derives .expr)) :
    ¬grammar.Reaches false x c d := fun hd => h.not_spans (hx c d (means_of_reaches hd))

/-- Operands are asked for, and none is found. -/
theorem Stuck.keeps (h : Stuck text c) {r : Rule} (hr : r ∈ exprRules) (ha : r.atomic = false) :
    grammar.Keeps (Stands text) r.body c := by
  obtain ⟨rest, hrest⟩ := List.head?_eq_some_iff.1 h.head
  have hlevel : ∀ {s t : Rule}, Stands text s c → Yields (.rule s) (Derives .expr) →
      grammar.Keeps (Stands text) (chainl s t) c := fun hs hy =>
    ⟨hs, fun d hd => absurd hd (h.not_reaches hy)⟩
  cases r
  case disjunction | conjunction | equality | relation | sum =>
    exact hlevel (.inr ⟨h, by decide⟩) fun _ _ hm => hm
  case product =>
    exact ⟨⟨.inr ⟨h, by decide⟩, .inr ⟨h, by decide⟩, .inr ⟨h, by decide⟩,
      keeps_text_seq hrest (by decide)⟩, fun d hd => absurd hd (h.not_reaches yields_operands)⟩
  case call =>
    refine ⟨.inr ⟨h, by decide⟩, fun d hd => ?_⟩
    obtain ⟨-, e, he⟩ : d = c ∧ ∃ e, grammar.Reaches false (.rule .callee) c e :=
      means_of_reaches hd
    obtain ⟨s, ls, hs, hls⟩ := reaches_callee h.settled he
    exact absurd ⟨_, ls, hls, by simpa [Token.startsExpr] using hs⟩
      (not_startsExpr_of_equals h.head)
  case callee | literal | identifier => cases ha
  all_goals exact absurd hr (by decide)

/-! ## Statements -/

theorem truthful_braces : Truthful bracedBlock InBraces := by
  have hblock : Truthful (.rule .block) (Derives .block) := truthful_rule .block (by decide)
  refine (Truthful.plain_seq .openBrace (hblock.seq (.plain .closeBrace))).mono ?_ .inBraces
  rintro _ - - ⟨_, ⟨ls', _, h, rfl, rfl⟩, rfl⟩
  exact ⟨ls', h, rfl⟩

theorem truthful_function : Truthful Rule.function.body (Derives .stmt) := by
  have hparams : Truthful (.rule .params) IsParams := truthful_rule .params (by decide)
  have hbrace := Truthful.plain_seq .closeParen truthful_braces
  have hparen := Truthful.plain_seq .openParen (hparams.seq hbrace)
  exact (Truthful.peek_seq (r := .funWord) rfl rfl (by decide) (fun _ _ => .inl)
    (truthful_identifier.seq hparen)).mono (fun _ _ => derives_function) Unjoins.derives

theorem truthful_variable : Truthful Rule.variable.body (Derives .stmt) := by
  have hinit := (Truthful.equals_seq truthful_expression fun _ _ h => .inr ⟨h, by decide⟩).opt
  exact (Truthful.peek_seq (r := .varWord) rfl rfl (by decide) (fun _ _ => .inl)
    (truthful_identifier.seq hinit)).mono (fun _ _ => derives_variable) Unjoins.derives

theorem truthful_loop : Truthful Rule.loop.body (Derives .stmt) := by
  have hcond := truthful_bracketed.seq truthful_braces
  exact (Truthful.wordSeq (by decide) hcond (fun _ _ _ _ => isNameChar_of_parens)
    fun _ _ _ _ => keeps_bracketed_seq).mono (fun _ _ _ => derives_loop) Unjoins.derives

theorem truthful_conditional : Truthful Rule.conditional.body (Derives .stmt) := by
  have helse := Truthful.wordSeq (k := "else") (by decide) truthful_braces
    (fun _ _ _ _ => isNameChar_of_braces) fun _ _ _ _ => keeps_braces
  have hcond := truthful_bracketed.seq (truthful_braces.seq helse.opt)
  exact (Truthful.wordSeq (by decide) hcond (fun _ _ _ _ => isNameChar_of_parens)
    fun _ _ _ _ => keeps_bracketed_seq).mono (fun _ _ _ => derives_conditional) Unjoins.derives

theorem truthful_ret : Truthful Rule.ret.body (Derives .stmt) :=
  (Truthful.peek_seq (r := .returnWord) rfl rfl (by decide) (fun _ _ => .inl)
    truthful_expression).mono (fun _ _ _ => derives_ret) Unjoins.derives

/-- The expression of an assignment, in front of which there is no further equals sign. -/
theorem truthful_denied : Truthful (.seq (.deny (string "=")) expression) (Derives .expr) where
  toWritable := truthful_expression.toWritable
  yields := by
    rintro c d ⟨c', ⟨hc', -⟩, hm⟩ hc
    rw [hc', afterLayout_of_settled hc] at hm
    exact yields_expression c d hm hc
  keeps text c h := by
    refine ⟨rfl, fun d hd => ?_⟩
    obtain ⟨rfl, -⟩ : d = c ∧ _ := means_of_reaches hd
    rw [afterLayout_of_settled h.settled]
    exact truthful_expression.keeps text _ h

theorem truthful_assignment : Truthful Rule.assignment.body (Derives .stmt) := by
  refine (truthful_identifier.seq (Truthful.equals_seq truthful_denied fun text c h => ?_)).mono
    (fun _ _ => derives_assignment) Unjoins.derives
  -- the expression is not even asked for
  refine ⟨rfl, fun d hd => ?_⟩
  obtain ⟨rest, hrest⟩ := List.head?_eq_some_iff.1 h.head
  obtain ⟨-, hnone⟩ : d = c ∧ grammar.Parses false (string "=") c none := means_of_reaches hd
  have hpass : c.pass? ['='] = some (c.advance 1) := Cursor.pass?_of_eq hrest
  have hsome : grammar.Parses false (string "=") c (some (c.advance 1, [])) :=
    .text (by rw [show "=".toList = ['='] from rfl, hpass]; rfl)
  cases hnone.unique hsome

theorem truthful_block : Truthful Rule.block.body (Derives .block) := by
  have hexpr : Truthful expression (Derives .stmt) :=
    truthful_expression.mono (fun _ _ _ h => .expr h) Unjoins.derives
  have hstatement : Truthful statement (Derives .stmt) :=
    (truthful_rule .function (by decide)).alt
      ((truthful_rule .variable (by decide)).alt
        ((truthful_rule .loop (by decide)).alt
          ((truthful_rule .conditional (by decide)).alt
            ((truthful_rule .ret (by decide)).alt
              ((truthful_rule .assignment (by decide)).alt hexpr)))))
  exact hstatement.many.mono (fun _ _ _ h => .stmts h) Unjoins.derives

/-! ## All rules -/

theorem keeps_program (text : List Char) :
    grammar.Keeps (Stands text) Rule.program.body (.start text) := by
  refine ⟨trivial, fun c hc => ?_⟩
  obtain rfl : c = .start text := means_of_reaches hc
  have hopen : Open (Derives .block) [] := ⟨[], fun ls hls _ => by simpa using hls⟩
  have hawaits : Awaits text (Derives .block) (grammar.afterLayout false (.start text)) :=
    ⟨afterLayout_settled _, [], (Cursor.Passes.refl _).behind, hopen, hopen⟩
  refine ⟨.inl hawaits, fun d hd => ?_⟩
  have hspan : Spans (Derives .block) (grammar.afterLayout false (.start text)) d :=
    means_of_reaches hd
  obtain ⟨ls, hl, hls⟩ := hspan hawaits.settled
  have hend := hl.layout.behind
  exact ⟨⟨afterLayout_settled d, ls, hend⟩, hend.lexemes_take ▸ hls.unjoin⟩

/-- Where its phrases are awaited, a rule calls only rules that can stand. -/
theorem Awaits.keeps {r : Rule} (h : Awaits text r.phrase c) (hr : r ≠ .program)
    (ha : r.atomic = false) : grammar.Keeps (Stands text) r.body c := by
  cases r
  case program => exact absurd rfl hr
  case block => exact truthful_block.keeps text c h
  case function => exact truthful_function.keeps text c h
  case params => exact truthful_params.keeps text c h
  case «variable» => exact truthful_variable.keeps text c h
  case loop => exact truthful_loop.keeps text c h
  case conditional => exact truthful_conditional.keeps text c h
  case ret => exact truthful_ret.keeps text c h
  case assignment => exact truthful_assignment.keeps text c h
  case disjunction => exact (truthful_chain (truthful_rule .conjunction (by decide))
      (truthful_rule .orOp (by decide))).keeps text c h
  case conjunction => exact (truthful_chain (truthful_rule .equality (by decide))
      (truthful_rule .andOp (by decide))).keeps text c h
  case equality => exact (truthful_chain (truthful_rule .relation (by decide))
      (truthful_rule .eqOp (by decide))).keeps text c h
  case relation => exact (truthful_chain (truthful_rule .sum (by decide))
      (truthful_rule .relOp (by decide))).keeps text c h
  case sum => exact (truthful_chain (truthful_rule .product (by decide))
      (truthful_rule .addOp (by decide))).keeps text c h
  case product => exact truthful_product.keeps text c h
  case call => exact keeps_call h
  case args => exact truthful_args.keeps text c h
  case endOfInput | orOp | andOp | eqOp | relOp | addOp | mulOp =>
    exact Grammar.keeps_of_noRules rfl
  case callee | literal | identifier | keyword | funWord | varWord | returnWord => cases ha

/-- A rule that can stand calls only such rules. -/
theorem Stands.keeps {r : Rule} (h : Stands text r c) (ha : r.atomic = false) :
    grammar.Keeps (Stands text) r.body c := by
  by_cases hp : r = .program
  · subst hp
    obtain rfl : c = .start text := h
    exact keeps_program text
  by_cases he : r = .endOfInput
  · subst he
    exact Grammar.keeps_of_noRules rfl
  · rcases h.awaits_or_stuck hp he with h | ⟨h, hr⟩
    · exact h.keeps hp ha
    · exact h.keeps hr ha

end IntScript
