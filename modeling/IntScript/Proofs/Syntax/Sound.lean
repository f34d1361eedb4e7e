import IntScript.Proofs.Grammar.Levels
import IntScript.Proofs.Grammar.Ranking
import IntScript.Proofs.Grammar.Yields

/-!
# What is accepted is documented

Each rule of the recogniser spans a phrase of the documented grammar (`sound_of_means`), so a text
that it accepts is a block of that grammar (`derives_of_parses`).
-/

namespace IntScript

open Lexeme Peg

variable {ls ls' : List Lexeme} {c d : Cursor}

/-! ## Phrases -/

/-- Expressions with an operator between them are an expression. -/
theorem Derives.join {o : Op} {j : Bool} {p : Phrase} (hl : Derives .expr ls) (h : Derives p ls')
    (hp : p = .expr) : Derives .expr (ls ++ ⟨.op o, j⟩ :: ls') := by
  induction h with
  | single h => exact .operation hl h
  | operation _ hr ih =>
    rw [← List.cons_append, ← List.append_assoc]
    exact .operation (ih rfl) hr
  | _ => cases hp

/-- A chain of operators and operands is an expression. -/
theorem Derives.chain (h : Derives .expr ls)
    (hs : IsMany (Both IsOp (Derives .expr)) ls') :
    Derives .expr (ls ++ ls') := by
  obtain ⟨lss, hlss, rfl⟩ := hs
  induction lss generalizing ls with
  | nil => rwa [List.flatten_nil, List.append_nil]
  | cons a lss ih =>
    obtain ⟨_, ls₂, ⟨o, j, rfl⟩, h₂, rfl⟩ := hlss a (by simp)
    rw [List.flatten_cons, ← List.append_assoc]
    exact ih (h.join h₂ rfl) fun b hb => hlss b (by simp [hb])

theorem Derives.commas (h : Derives .expr ls)
    (hs : IsMany (Token.comma.Then (Derives .expr)) ls') :
    Derives .items (ls ++ ls') := by
  obtain ⟨lss, hlss, rfl⟩ := hs
  induction lss generalizing ls with
  | nil =>
    rw [List.flatten_nil, List.append_nil]
    exact .oneItem h
  | cons a lss ih =>
    obtain ⟨ls₂, h₂, rfl⟩ := hlss a (by simp)
    rw [List.flatten_cons, List.cons_append]
    exact .moreItems h (ih h₂ fun b hb => hlss b (by simp [hb]))

/-- A word in front of something other than a bracket is joined to nothing. -/
theorem Linked.eq_false {x : String} {j : Bool} {l : Lexeme}
    (h : Linked (⟨.word x, j⟩ :: l :: ls)) (hl : l.token ≠ .openParen) : j = false := by
  cases j with
  | false => rfl
  | true =>
    obtain ⟨rest, hr⟩ := h [] x _ rfl
    cases hr
    exact absurd rfl hl

/-- In front of anything but an opening bracket, the names are joined to nothing. -/
theorem IsParams.eq_names {l : Lexeme} (rest : List Lexeme) (h : IsParams ls)
    (hlk : Linked (ls ++ l :: rest)) (hl : l.token ≠ .openParen) :
    ∃ ps, (∀ p ∈ ps, IsName p) ∧ ls = names ps := by
  rcases h with rfl | ⟨ls₁, _, h, ⟨lss, hlss, rfl⟩, rfl⟩
  · exact ⟨[], by simp, rfl⟩
  have hnames : ∃ p ps, (∀ q ∈ p :: ps, IsName q) ∧ ls₁ ++ lss.flatten = names (p :: ps) := by
    induction lss generalizing ls₁ with
    | nil =>
      obtain ⟨x, j, hx, rfl⟩ := h
      obtain rfl := Linked.eq_false hlk hl
      exact ⟨x, [], by simpa using hx, rfl⟩
    | cons a lss ih =>
      obtain ⟨x, j, hx, rfl⟩ := h
      obtain ⟨ls₂, h₂, rfl⟩ := hlss a (by simp)
      obtain rfl := Linked.eq_false hlk (by simp)
      obtain ⟨p, ps, hp, hnames⟩ := ih ls₂ h₂ (fun b hb => hlss b (by simp [hb]))
        (by simpa using hlk.tail.tail)
      refine ⟨x, p :: ps, ?_, ?_⟩
      · rintro q (_ | ⟨_, hq⟩)
        · exact hx
        · exact hp q hq
      · rw [names, ← hnames, List.flatten_cons]
        rfl
  obtain ⟨p, ps, hp, hn⟩ := hnames
  exact ⟨p :: ps, hp, hn⟩

theorem Derives.stmts (hs : IsMany (Derives .stmt) ls) : Derives .block ls := by
  obtain ⟨lss, hlss, rfl⟩ := hs
  induction lss with
  | nil => exact .nil
  | cons a lss ih =>
    rw [List.flatten_cons]
    exact .cons (hlss a (by simp)) (ih fun b hb => hlss b (by simp [hb]))

theorem derives_args (h : Maybe (Both (Derives .expr)
    (IsMany (Token.comma.Then (Derives .expr)))) ls) : Derives .args ls := by
  rcases h with rfl | ⟨ls₁, ls₂, h₁, h₂, rfl⟩
  · exact .noArgs
  · exact .someArgs (h₁.commas h₂)

theorem derives_function (hl : Linked (ls ++ ls')) (h : WordThen "fun" (Both IsIdent
    (Token.openParen.Then (Both IsParams (Token.closeParen.Then InBraces)))) ls) :
    Derives .stmt ls := by
  obtain ⟨i, _, ⟨_, _, ⟨f, j, hf, rfl⟩, ⟨_, ⟨ps, _, hps, ⟨_, ⟨ls, h, rfl⟩, rfl⟩, rfl⟩, rfl⟩, rfl⟩,
    rfl⟩ := h
  obtain ⟨ps, hp, rfl⟩ := hps.eq_names (l := ⟨.closeParen, false⟩) (Lexeme.inBraces ls ++ ls')
    (by simpa using hl.tail.tail.tail) (by simp)
  have hstmt := Derives.function (j := i) (k := j) hf hp h
  simpa [Lexeme.inParens] using hstmt

theorem derives_variable (hl : Linked (ls ++ ls')) (h : WordThen "var" (Both IsIdent
    (Maybe (Token.assign.Then (Derives .expr)))) ls) : Derives .stmt ls := by
  obtain ⟨i, _, ⟨_, _, ⟨x, j, hx, rfl⟩, rfl | ⟨ls, h, rfl⟩, rfl⟩, rfl⟩ := h
  · exact .declare hx
  · obtain rfl := Linked.eq_false hl.tail (by simp)
    exact .define hx h

theorem derives_loop (h : WordThen "while" (Both (InParens (Derives .expr)) InBraces) ls) :
    Derives .stmt ls := by
  obtain ⟨j, _, ⟨_, _, ⟨ls, h, rfl⟩, ⟨ls', h', rfl⟩, rfl⟩, rfl⟩ := h
  exact .loop h h'

theorem derives_conditional (h : WordThen "if" (Both (InParens (Derives .expr))
    (Both InBraces (Maybe (WordThen "else" InBraces)))) ls) : Derives .stmt ls := by
  obtain ⟨i, _, ⟨_, _, ⟨ls, h, rfl⟩, ⟨_, _, ⟨ls', h', rfl⟩, rfl | ⟨j, _, ⟨ls'', h'', rfl⟩, rfl⟩,
    rfl⟩, rfl⟩, rfl⟩ := h
  · rw [List.append_nil]
    exact .ifThen h h'
  · rw [← List.append_assoc, ← List.cons_append]
    exact .ifElse h h' h''

theorem derives_ret (h : WordThen "return" (Derives .expr) ls) : Derives .stmt ls := by
  obtain ⟨j, ls, h, rfl⟩ := h
  exact .ret h

theorem derives_assignment (hl : Linked (ls ++ ls'))
    (h : Both IsIdent (Token.assign.Then (Derives .expr)) ls) : Derives .stmt ls := by
  obtain ⟨_, _, ⟨x, j, hx, rfl⟩, ⟨ls, h, rfl⟩, rfl⟩ := h
  obtain rfl := Linked.eq_false hl (by simp)
  exact .assign hx h

theorem derives_of_isIdent (h : IsIdent ls) : Derives .atom ls := by
  obtain ⟨x, j, hx, rfl⟩ := h
  exact .name hx

/-! ## Expressions -/

/-- Operands with operators between them. -/
theorem yields_chain {x y : Peg Rule} (hx : Yields x (Derives .expr)) (hy : Yields y IsOp) :
    Yields (.seq x (.many (.seq y x))) (Derives .expr) := by
  refine (hx.seq (hy.seq hx).many).mono ?_
  rintro _ - - ⟨ls₁, ls₂, h₁, h₂, rfl⟩
  exact h₁.chain h₂

theorem yields_expression : Yields expression (Derives .expr) := fun _ _ h => h

theorem yields_identifier : Yields (.rule .identifier) IsIdent := fun _ _ h => h

theorem yields_operand : Yields operand (Derives .atom) := by
  have hcall : Yields (.rule .call) (Derives .atom) := fun _ _ h => h
  have hlit : Yields (.rule .literal) (Derives .atom) := fun _ _ h => h
  have hname : Yields (.rule .identifier) (Derives .atom) :=
    yields_identifier.mono fun _ _ _ => derives_of_isIdent
  have hbracket : Yields bracketed (Derives .atom) := by
    refine (Yields.inParens yields_expression).mono ?_
    rintro _ - - ⟨ls, h, rfl⟩
    exact .bracket h
  exact hcall.alt (hlit.alt (hname.alt hbracket))

theorem yields_call : Yields Rule.call.body (Derives .atom) := by
  have hargs : Yields (.rule .args) (Derives .args) := fun _ _ h => h
  have hname := yields_identifier.seq (Yields.inParens hargs)
  rintro c d ⟨c', ⟨hc', e, he⟩, hm⟩ hc
  rw [hc', afterLayout_of_settled hc] at hm
  obtain ⟨_, hl, _, _, ⟨x, j, hx, rfl⟩, ⟨ls, h, rfl⟩, rfl⟩ := hname c d hm hc
  obtain ⟨s, ls', -, hs⟩ := reaches_callee hc he
  rw [hl.lexemes_eq] at hs
  cases hs
  exact ⟨_, hl, .call hx h⟩

theorem yields_args : Yields Rule.args.body (Derives .args) := by
  have hcomma := Yields.solid_seq Token.solid_comma (fun _ => rfl) yields_expression
  exact (yields_expression.seq hcomma.many).opt.mono fun _ _ _ => derives_args

theorem yields_params : Yields Rule.params.body IsParams :=
  (yields_identifier.seq
    (Yields.solid_seq Token.solid_comma (fun _ => rfl) yields_identifier).many).opt

/-! ## Statements -/

theorem startsExpr_of_derives (ls : List Lexeme) (h : Derives .expr ls) : StartsExpr ls :=
  h.startsExpr (.inr rfl)

theorem yields_function : Yields Rule.function.body (Derives .stmt) := by
  have hparams : Yields (.rule .params) IsParams := fun _ _ h => h
  have hbrace := Yields.solid_seq Token.solid_closeParen (fun _ => rfl) Yields.inBraces
  have hparen := Yields.solid_seq Token.solid_openParen (fun _ => rfl) (hparams.seq hbrace)
  exact (Yields.peek_seq rfl rfl (by decide) (yields_identifier.seq hparen)).mono
    fun _ _ => derives_function

theorem yields_variable : Yields Rule.variable.body (Derives .stmt) := by
  have hinit := (Yields.equals_seq yields_expression startsExpr_of_derives).opt
  exact (Yields.peek_seq rfl rfl (by decide) (yields_identifier.seq hinit)).mono
    fun _ _ => derives_variable

theorem eq_of_pass?_cons {x y : Char} {s rest : List Char} (h : c.pass? (y :: s) = some d)
    (hr : c.rest = x :: rest) : x = y := by
  rw [(Cursor.eq_of_pass? h).1] at hr
  exact (List.cons.inj hr).1.symm

/-- A bracket is no name character. -/
theorem isNameChar_of_parens {x y : Peg Rule} {z : Char} {rest : List Char}
    (h : grammar.Means Sound (.seq (.seq (string "(") x) y) c d) (hr : c.rest = z :: rest) :
    isNameChar z = false := by
  obtain ⟨_, ⟨_, hp, -⟩, -⟩ := h
  rw [eq_of_pass?_cons hp hr]
  rfl

theorem isNameChar_of_braces {z : Char} {rest : List Char}
    (h : grammar.Means Sound bracedBlock c d) (hr : c.rest = z :: rest) :
    isNameChar z = false := by
  obtain ⟨_, hp, -⟩ := h
  rw [eq_of_pass?_cons hp hr]
  rfl

theorem yields_loop : Yields Rule.loop.body (Derives .stmt) := by
  have hcond := (Yields.inParens yields_expression).seq Yields.inBraces
  exact (Yields.wordSeq (by decide) hcond fun _ _ _ _ => isNameChar_of_parens).mono
    fun _ _ _ => derives_loop

theorem yields_conditional : Yields Rule.conditional.body (Derives .stmt) := by
  have helse := Yields.wordSeq (k := "else") (by decide) Yields.inBraces
    fun _ _ _ _ => isNameChar_of_braces
  have hcond := (Yields.inParens yields_expression).seq (Yields.inBraces.seq helse.opt)
  exact (Yields.wordSeq (by decide) hcond fun _ _ _ _ => isNameChar_of_parens).mono
    fun _ _ _ => derives_conditional

theorem yields_ret : Yields Rule.ret.body (Derives .stmt) :=
  (Yields.peek_seq rfl rfl (by decide) yields_expression).mono fun _ _ _ => derives_ret

theorem yields_assignment : Yields Rule.assignment.body (Derives .stmt) := by
  have hdeny : Yields (.seq (.deny (string "=")) expression) (Derives .expr) := by
    rintro c d ⟨c', ⟨hc', -⟩, hm⟩ hc
    rw [hc', afterLayout_of_settled hc] at hm
    exact yields_expression c d hm hc
  exact (yields_identifier.seq (Yields.equals_seq hdeny startsExpr_of_derives)).mono
    fun _ _ => derives_assignment

theorem yields_block : Yields Rule.block.body (Derives .block) := by
  have hstmt : ∀ r, (∀ c d, Sound r c d = Spans (Derives .stmt) c d) →
      Yields (.rule r) (Derives .stmt) := fun r hr c d h => hr c d ▸ h
  have hexpr : Yields expression (Derives .stmt) := yields_expression.mono fun _ _ _ h => .expr h
  have hstatement : Yields statement (Derives .stmt) :=
    (hstmt .function fun _ _ => rfl).alt ((hstmt .variable fun _ _ => rfl).alt
      ((hstmt .loop fun _ _ => rfl).alt ((hstmt .conditional fun _ _ => rfl).alt
        ((hstmt .ret fun _ _ => rfl).alt ((hstmt .assignment fun _ _ => rfl).alt hexpr)))))
  exact hstatement.many.mono fun _ _ _ h => .stmts h

/-! ## All rules -/

theorem isNumber_of_before {ds : List Char} {j : Bool} (h : c.Before ⟨.number ds, j⟩ d) :
    IsNumber ds ∧ j = false :=
  ⟨isNumber_of_mem_lexemes (h.lexemes_eq ▸ List.mem_cons_self) rfl, h.joined_eq⟩

theorem sound_literal (h : grammar.Reaches false (.rule .literal) c d) :
    Spans (Derives .atom) c d := by
  intro hc
  rcases reaches_literal hc h with ⟨ds, j, hb⟩ | ⟨e, ds, j, hb, hb'⟩
  · obtain ⟨hd, rfl⟩ := isNumber_of_before hb
    exact ⟨_, .single hc hb, .number hd⟩
  · obtain ⟨hd, rfl⟩ := isNumber_of_before hb'
    exact ⟨_, .token hc hb (.single (before_of_joined hb).1 hb'), .negative hd⟩

theorem sound_identifier (h : grammar.Reaches false (.rule .identifier) c d) :
    Spans IsIdent c d := by
  intro hc
  obtain ⟨x, j, hx, hb⟩ := reaches_identifier hc h
  have hword : isWord x.toList = true :=
    isWord_of_mem_lexemes (hb.lexemes_eq ▸ List.mem_cons_self) rfl
  exact ⟨_, .single hc hb, x, j, ⟨hword, hx⟩, rfl⟩

theorem sound_op {k : Nat} (hk : k < 6) (h : grammar.Reaches false (.rule (opRule k)) c d) :
    Spans IsOp c d := by
  intro hc
  obtain ⟨o, j, hb⟩ := reaches_op hk hc h
  exact ⟨_, .single hc hb, o, j, rfl⟩

theorem sound_program (h : grammar.Means Sound Rule.program.body c d) :
    Derives .block (lexemes c.rest) := by
  obtain ⟨_, rfl, e, he, hend⟩ := h
  obtain ⟨ls, hl, hls⟩ := he (afterLayout_settled _)
  have hnil : lexemes e.rest = [] := by
    rw [← lexemes_afterLayout, show (grammar.afterLayout false e).rest = [] from hend,
      lexemes_nil]
  have hrest := hl.lexemes_eq
  rw [lexemes_afterLayout, hnil, List.append_nil] at hrest
  rwa [hrest]

theorem yields_mulOp : Yields (.rule .mulOp) IsOp := fun _ _ h => h

theorem yields_operands : Yields operand (Derives .expr) :=
  yields_operand.mono fun _ _ _ h => .single h

/-- A level whose operands and operators are sound is sound. -/
theorem yields_level {r s : Rule} (hr : ∀ c d, Sound r c d = Spans (Derives .expr) c d)
    (hs : ∀ c d, Sound s c d = Spans IsOp c d) : Yields (chainl r s) (Derives .expr) :=
  yields_chain (fun c d h => hr c d ▸ h) fun c d h => hs c d ▸ h

/-- Every rule is sound. -/
theorem sound : ∀ (r : Rule) (c d : Cursor), grammar.Reaches false (.rule r) c d →
    (r.atomic = false → grammar.Means Sound r.body c d) → Sound r c d
  | .endOfInput, _, _, _, hm => (hm rfl).2
  | .program, _, _, _, hm => sound_program (hm rfl)
  | .block, c, d, _, hm => yields_block c d (hm rfl)
  | .function, c, d, _, hm => yields_function c d (hm rfl)
  | .params, c, d, _, hm => yields_params c d (hm rfl)
  | .variable, c, d, _, hm => yields_variable c d (hm rfl)
  | .loop, c, d, _, hm => yields_loop c d (hm rfl)
  | .conditional, c, d, _, hm => yields_conditional c d (hm rfl)
  | .ret, c, d, _, hm => yields_ret c d (hm rfl)
  | .assignment, c, d, _, hm => yields_assignment c d (hm rfl)
  | .disjunction, c, d, _, hm => yields_level (fun _ _ => rfl) (fun _ _ => rfl) c d (hm rfl)
  | .conjunction, c, d, _, hm => yields_level (fun _ _ => rfl) (fun _ _ => rfl) c d (hm rfl)
  | .equality, c, d, _, hm => yields_level (fun _ _ => rfl) (fun _ _ => rfl) c d (hm rfl)
  | .relation, c, d, _, hm => yields_level (fun _ _ => rfl) (fun _ _ => rfl) c d (hm rfl)
  | .sum, c, d, _, hm => yields_level (fun _ _ => rfl) (fun _ _ => rfl) c d (hm rfl)
  | .product, c, d, _, hm => yields_chain yields_operands yields_mulOp c d (hm rfl)
  | .call, c, d, _, hm => yields_call c d (hm rfl)
  | .args, c, d, _, hm => yields_args c d (hm rfl)
  | .orOp, _, _, h, _ => sound_op (k := 0) (by decide) h
  | .andOp, _, _, h, _ => sound_op (k := 1) (by decide) h
  | .eqOp, _, _, h, _ => sound_op (k := 2) (by decide) h
  | .relOp, _, _, h, _ => sound_op (k := 3) (by decide) h
  | .addOp, _, _, h, _ => sound_op (k := 4) (by decide) h
  | .mulOp, _, _, h, _ => sound_op (k := 5) (by decide) h
  | .literal, _, _, h, _ => sound_literal h
  | .identifier, _, _, h, _ => sound_identifier h
  | .callee, _, _, _, _ | .keyword, _, _, _, _ | .funWord, _, _, _, _ | .varWord, _, _, _, _
  | .returnWord, _, _, _, _ => trivial

/-- A match consists of what sound rules match. -/
theorem means_of_reaches {x : Peg Rule} (h : grammar.Reaches false x c d) :
    grammar.Means Sound x c d := by
  obtain ⟨ns, h⟩ := h
  exact h.means sound rfl rfl

/-- A text that the rule for programs matches is a block of the documented grammar. -/
theorem derives_of_parses {text : List Char} {ns : List (Node Rule)}
    (h : grammar.Parses false (.rule .program) (.start text) (some (d, ns))) :
    Derives .block (lexemes text) :=
  h.means sound rfl rfl

end IntScript
