import IntScript.Proofs.Grammar.Ranking
import IntScript.Proofs.Grammar.Statements
import IntScript.Proofs.Syntax.Reading

/-!
# What has a reading is parsed as that

* `Matched` : what the recogniser does with a phrase;
* `Reads.matched` : it finds every phrase that is read, and the nodes stand for what it is read as;
* `parses_program`, `parseText_of_reads` : the same for whole texts.
-/

namespace IntScript

open Lexeme Peg

variable {ls rest : List Lexeme}

/-! ## What stands behind a statement -/

theorem Follows.of_closes {ends : Bool} (h : Closes rest) : Follows ends rest := by
  rcases h with rfl | ⟨rest, rfl⟩
  · exact ⟨by simp [StartsAssign], by simp, by simp [NotWord], fun _ => by simp [Below]⟩
  · exact ⟨by simp [StartsAssign], by simp, by simp [NotWord], fun _ => by simp [Below]⟩

theorem Follows.of_startsStmt {ends : Bool} {l : Lexeme} (h : l.token.startsStmt = true)
    (hn : ends = true ∨ ¬StartsOp (l :: rest)) : Follows ends (l :: rest) where
  notAssign := by
    rintro ⟨j, rest', heq⟩
    cases heq
    cases h
  notEq j rest' heq := by
    cases heq
    cases h
  notElse := notWord_cons fun ht => by
    rw [ht] at h
    cases h
  notOp hends o j rest' heq := by
    rw [hends] at hn
    exact absurd ⟨o, j, rest', heq⟩ (hn.resolve_left (by decide))

/-- What stands behind a statement, if another one does. -/
theorem Reads.follows_of_ne_nil {ends : Bool} {vs : Except ParseError Block}
    (h : Reads .block ls vs) (hne : ls ≠ []) (hn : ends = true ∨ ¬StartsOp ls)
    (rest : List Lexeme) : Follows ends (ls ++ rest) := by
  cases h with
  | nil => exact absurd rfl hne
  | cons h hs =>
    obtain ⟨l, ls', rfl, hl⟩ := h.startsStmt
    refine .of_startsStmt hl (hn.imp_right fun hop => ?_)
    rintro ⟨o, j, rest', heq⟩
    cases heq
    exact hop ⟨o, j, _, rfl⟩

/-- What stands behind a statement in a block. -/
theorem Reads.follows {ends : Bool} {vs : Except ParseError Block} (h : Reads .block ls vs)
    (hn : ends = true ∨ ¬StartsOp ls) (hr : Closes rest) : Follows ends (ls ++ rest) := by
  by_cases hls : ls = []
  · rw [hls]
    exact .of_closes hr
  · exact h.follows_of_ne_nil hls hn rest

/-- Behind the name that an expression begins with, there is no sign of an assignment. -/
theorem Reads.not_startsAssign {k : Nat} {x : String} {j : Bool} {v : Except ParseError Expr}
    {ls' : List Lexeme} (h : Reads (.level k) ls v) (hls : ls = ⟨.word x, j⟩ :: ls')
    (hr : ¬StartsAssign rest) : ¬StartsAssign (ls' ++ rest) := by
  obtain ⟨a, t, w, rfl, ha, ht⟩ := h.lead
  cases ha with
  | name =>
    cases hls
    cases ht with
    | nil => exact hr
    | cons =>
      rintro ⟨j, rest', heq⟩
      cases heq
  | call =>
    cases hls
    rintro ⟨j, rest', heq⟩
    cases heq
  | number | negative | bracket => cases hls

theorem Reads.not_startsAssign_tail {k : Nat} {x : String} {j : Bool} {v : Except ParseError Expr}
    {ls' : List Lexeme} (h : Reads (.level k) ls v) (hls : ls = ⟨.word x, j⟩ :: ls') :
    ¬StartsAssign ls' := by
  have hnil : ¬StartsAssign [] := by simp [StartsAssign]
  have hend := h.not_startsAssign hls hnil
  rwa [List.append_nil] at hend

/-! ## Phrases -/

/-- What the recogniser does with a phrase that is read as `v`. -/
def Matched : (k : Kind) → List Lexeme → Except ParseError k.Value → Prop
  | .operand, ls, v => Finds operand ls (fun _ => True) (IsExpr v)
  | .level k, ls, v => (k < 6 → Chains k ls v) ∧ Finds (levelPeg k) ls (Below k) (IsExpr v)
  | .items, ls, vs => Finds (.seq expression (.many (.seq (string ",") expression))) ls BeforeParen
    fun ns => Expr.ofNodes ns = vs
  | .args, ls, vs => Finds (.rule .args) ls BeforeParen
    fun ns => ∃ n, ns = [n] ∧ Expr.ofNodes n.parts = vs
  | .stmt ends, ls, v => Finds statement ls (Follows ends) (IsStmt v)
  | .block, ls, vs => FindsBlock ls vs

theorem Matched.of_chains {k : Nat} {v : Except ParseError Expr} (hk : k < 6)
    (h : Chains k ls v) : Matched (.level k) ls v :=
  ⟨fun _ => h, h.finds hk⟩

theorem Matched.expr {v : Except ParseError Expr} (h : Matched (.level 0) ls v) : FindsExpr ls v :=
  h.2

/-- What is read is found. -/
theorem Reads.matched {k : Kind} {v : Except ParseError k.Value} (h : Reads k ls v) :
    Matched k ls v := by
  induction h with
  | name hx => exact finds_name hx
  | number => exact finds_number
  | negative => exact finds_negative
  | bracket _ ih => exact finds_bracket ih.expr
  | call hf _ ih => exact finds_call hf ih
  | tight _ ih => exact ⟨fun h => absurd h (by decide), ih.mono (fun _ _ => trivial) fun _ h => h⟩
  | loose hk _ ih => exact .of_chains hk (.of_finds ih.2)
  | bin ho _ _ ihl ihr =>
    have hk := ho ▸ Op.level_lt _
    exact .of_chains hk ((ihl.1 hk).step ho ihr.2)
  | oneItem _ ih =>
    refine (finds_oneItem ih.expr fun _ => Below.beforeParen).mono (fun _ h => h) ?_
    rintro _ ⟨n, rfl, hn⟩
    rw [Expr.ofNodes, hn, Expr.ofNodes]
    rfl
  | moreItems _ _ ih ihs =>
    refine (finds_moreItems ih.expr ihs fun rest o j rest' h => by cases h).mono
      (fun _ h => h) ?_
    rintro _ ⟨_, ns, ⟨n, rfl, hn⟩, hns, rfl⟩
    rw [List.singleton_append, Expr.ofNodes, hn, hns]
    rfl
  | noArgs => exact finds_noArgs
  | someArgs _ ih =>
    refine ((ih.opt).rule (r := .args) rfl).mono (fun _ h => h) ?_
    rintro _ ⟨c, d, ns, rfl, hns⟩
    exact ⟨_, rfl, hns⟩
  | function hf hp _ ih => exact (finds_function hf hp ih).mono (fun _ _ => trivial) fun _ h => h
  | declare hx => exact finds_declare hx
  | define hx _ ih =>
    exact (finds_define hx ih.expr).mono (fun _ hr => hr.notOp rfl) fun _ h => h
  | loop _ _ ihc ihb => exact (finds_loop ihc.expr ihb).mono (fun _ _ => trivial) fun _ h => h
  | ifThen _ _ ihc ihb => exact (finds_ifThen ihc.expr ihb).mono (fun _ h => h.notElse) fun _ h => h
  | ifElse _ _ _ ihc ihb ihb' =>
    exact (finds_ifElse ihc.expr ihb ihb').mono (fun _ _ => trivial) fun _ h => h
  | ret _ ih => exact (finds_ret ih.expr).mono (fun _ hr => hr.notOp rfl) fun _ h => h
  | assign hx h ih =>
    exact (finds_assign hx ih.expr h.startsExpr).mono (fun _ hr => hr.notOp rfl) fun _ h => h
  | expr h ih =>
    exact (finds_expr ih.expr h.startsExpr fun x j rest rest' hls => h.not_startsAssign hls).mono
      (fun _ hr => ⟨hr.notOp rfl, hr.notAssign⟩) fun _ h => h
  | nil =>
    refine (Finds.many_nil misses_statement).mono (fun _ h => h) ?_
    rintro _ rfl
    rfl
  | cons _ hs hn ih ihs =>
    refine (Finds.many_cons ih ihs fun rest => hs.follows hn).mono (fun _ h => h) ?_
    rintro _ ⟨_, ns, ⟨n, rfl, hn⟩, hns, rfl⟩
    rw [List.singleton_append, Block.ofNodes, hn, hns]
    rfl

/-! ## Whole texts -/

variable {text : List Char} {vs : Except ParseError Block}

/-- A text with a reading is a program to the recogniser. -/
theorem parses_program (h : Reads .block (lexemes text) vs) :
    ∃ c d e ps, Block.ofNodes ps = vs ∧ grammar.Parses false (.rule .program) (.start text)
      (some (e, [.mk .program (.start text) e [.mk .block c d ps, .mk .endOfInput e e []]])) := by
  have hc := afterLayout_settled (.start text)
  obtain ⟨d, ps, hd, hdl, hps⟩ := h.matched _ [] hc
    (by rw [lexemes_afterLayout, List.append_nil]; rfl) (.inl rfl)
  have hend : (grammar.afterLayout false d).rest = [] :=
    eq_nil_of_lexemes (afterLayout_settled d) (by rw [lexemes_afterLayout, hdl])
  have hstop := parses_rule (r := .endOfInput) rfl
    (.stop (a := false) (c := grammar.afterLayout false d) (o := some (_, []))
      (by rw [hend]; rfl))
  have hbody : grammar.Parses false Rule.program.body (.start text) _ :=
    .seq (.start rfl) (.seq (parses_rule (r := .block) rfl hd) hstop rfl) rfl
  exact ⟨_, d, _, ps, hps, parses_rule rfl hbody⟩

/-- What the recogniser finds in a text is its verdict. -/
theorem recognise_of_parses {d : Cursor} {ns : List (Node Rule)}
    (h : grammar.Parses false (.rule .program) (.start text) (some (d, ns))) :
    ∃ f, recognise text = .matched d ns f := by
  obtain ⟨o, ho, h'⟩ := exists_found_recognise text
  rw [h'.unique h] at ho
  cases hr : recognise text with
  | matched d' ns' f =>
    rw [hr, Verdict.found?, Option.some.injEq, Option.some.injEq, Prod.mk.injEq] at ho
    exact ⟨f, by rw [ho.1, ho.2]⟩
  | failed f => simp [hr, Verdict.found?] at ho
  | exhausted => simp [hr, Verdict.found?] at ho

/-- A text with a reading is parsed as what it is read as. -/
theorem parseText_of_reads (h : Reads .block (lexemes text) vs) : parseText text = vs := by
  obtain ⟨c, d, e, ps, hps, hp⟩ := parses_program h
  obtain ⟨f, hf⟩ := recognise_of_parses hp
  have hv : parseText text = Block.ofNodes ps := by
    unfold parseText
    rw [hf]
  rw [hv, hps]

/-! ## Errors -/

/-- The only error of a reading is a literal that does not fit. -/
def Fits {α : Type} (v : Except ParseError α) : Prop :=
  ∀ e, v = .error e → ∃ ds, e = .invalidLiteral ds

theorem Fits.ok {α : Type} (x : α) : Fits (.ok x) := by
  intro e h
  cases h

theorem Fits.bind {α β : Type} {v : Except ParseError α} {f : α → Except ParseError β}
    (hv : Fits v) (hf : ∀ x, Fits (f x)) : Fits (v >>= f) := by
  cases v with
  | ok x => exact hf x
  | error e =>
    intro e' h
    cases h
    exact hv e rfl

theorem fits_literalValue (ds : List Char) : Fits (literalValue ds) := by
  intro e h
  rw [literalValue] at h
  split at h
  · cases h
  · cases h
    exact ⟨ds, rfl⟩

/-- A reading fails for a literal that does not fit only. -/
theorem Reads.fits {k : Kind} {v : Except ParseError k.Value} (h : Reads k ls v) : Fits v := by
  induction h with
  | name | declare | noArgs | nil => exact .ok _
  | number | negative => exact (fits_literalValue _).bind fun _ => .ok _
  | bracket _ ih | tight _ ih | loose _ _ ih | someArgs _ ih => exact ih
  | call _ _ ih | oneItem _ ih | function _ _ _ ih | define _ _ ih | ret _ ih | assign _ _ ih
  | expr _ ih => exact ih.bind fun _ => .ok _
  | bin _ _ _ ih ih' | moreItems _ _ ih ih' | loop _ _ ih ih' | ifThen _ _ ih ih'
  | cons _ _ _ ih ih' => exact ih.bind fun _ => ih'.bind fun _ => .ok _
  | ifElse _ _ _ ih ih' ih'' => exact ih.bind fun _ => ih'.bind fun _ => ih''.bind fun _ => .ok _

end IntScript
