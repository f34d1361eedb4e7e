import IntScript.Proofs.Grammar.Levels
import IntScript.Proofs.Syntax.Derivation

/-!
# Operands and lists

* `finds_identifier`, `finds_params` : names and lists of names;
* `finds_inParens`, `finds_inBraces` : what stands between brackets or braces;
* `finds_name`, `finds_number`, `finds_negative`, `finds_bracket`, `finds_call` : the operands;
* `misses_expression` : where no expression begins, none is found (`finds_noArgs`).
-/

namespace IntScript

open Lexeme Peg

variable {x : Peg Rule} {l : Lexeme} {ls : List Lexeme} {F : List Lexeme → Prop}
  {Q : List (Node Rule) → Prop} {v : Except ParseError Expr}

/-- The lexemes go on with a closing bracket. -/
def BeforeParen (ls : List Lexeme) : Prop := ∃ rest, ls = ⟨.closeParen, false⟩ :: rest

/-- The lexemes end, or go on with a closing brace. -/
def Closes (ls : List Lexeme) : Prop := ls = [] ∨ ∃ rest, ls = ⟨.closeBrace, false⟩ :: rest

theorem Below.beforeParen {k : Nat} (h : BeforeParen ls) : Below k ls := by
  obtain ⟨rest, rfl⟩ := h
  intro o j rest' h
  cases h

/-! ## Names -/

/-- A name is found. -/
theorem finds_identifier {s : String} {j : Bool} (hs : IsName s) :
    Finds (.rule .identifier) [⟨.word s, j⟩] (fun _ => True)
      fun ns => ∃ n, ns = [n] ∧ n.name = s ∧ Expr.ofNode n = .ok (.ident s) := by
  intro c rest hc hl _
  obtain ⟨d, hb, hd⟩ := before_of_lexemes hc hl
  have htext : String.ofList (c.upTo d) = s := by
    rw [hb.upTo]
    exact String.ofList_toList
  refine ⟨d, _, parses_identifier hc hb hs.2, hd, _, rfl, htext, ?_⟩
  rw [Expr.ofNode, htext]

/-- Where no name comes first, none is found. -/
theorem misses_identifier : Misses (.rule .identifier) fun ls =>
    ∀ s j rest, ls = ⟨.word s, j⟩ :: rest → s ∈ keywords :=
  fun _ hc h => parses_identifier_none hc h

/-! ## Lists with commas -/

theorem misses_comma : Misses (.seq (string ",") x) BeforeParen := by
  refine Misses.seq ((Misses.solid Token.solid_comma).mono ?_)
  rintro _ ⟨rest, rfl⟩ j rest' h
  cases h

/-- One item, and no comma behind it. -/
theorem finds_oneItem (h : Finds x ls F Q) (hF : ∀ rest, BeforeParen rest → F rest) :
    Finds (.seq x (.many (.seq (string ",") x))) ls BeforeParen Q := by
  have hs := h.seq (Finds.many_nil (misses_comma (x := x))) hF
  rw [List.append_nil] at hs
  refine hs.mono (fun _ h => h) ?_
  rintro ns ⟨ps, qs, hp, rfl, rfl⟩
  rwa [List.append_nil]

/-- One item, a comma, and more items. -/
theorem finds_moreItems {ls' : List Lexeme} {P : List (Node Rule) → Prop} (h : Finds x ls F P)
    (hs : Finds (.seq x (.many (.seq (string ",") x))) ls' BeforeParen Q)
    (hF : ∀ rest, F (⟨.comma, false⟩ :: rest)) :
    Finds (.seq x (.many (.seq (string ",") x))) (ls ++ ⟨.comma, false⟩ :: ls') BeforeParen
      fun ns => ∃ ps qs, P ps ∧ Q qs ∧ ns = ps ++ qs :=
  h.seq (Finds.many_token ⟨.comma, false⟩ hs) fun rest _ => hF (ls' ++ rest)

/-- Parameters are found. -/
theorem finds_params {ps : List String} (hp : ∀ p ∈ ps, IsName p) :
    Finds (.rule .params) (names ps) BeforeParen
      fun ns => ∃ n, ns = [n] ∧ n.parts.map Node.name = ps := by
  have hitems : ∀ p ps, (∀ q ∈ p :: ps, IsName q) →
      Finds (.seq (.rule .identifier) (.many (.seq (string ",") (.rule .identifier))))
        (names (p :: ps)) BeforeParen fun ns => ns.map Node.name = p :: ps := by
    intro p ps
    induction ps generalizing p with
    | nil =>
      intro hp
      refine (finds_oneItem (finds_identifier (hp p (by simp))) fun _ _ => trivial).mono
        (fun _ h => h) ?_
      rintro ns ⟨n, rfl, hn, -⟩
      rw [List.map_singleton, hn]
    | cons q ps ih =>
      intro hp
      refine (finds_moreItems (finds_identifier (hp p (by simp)))
        (ih q fun r hr => hp r (by simp [hr])) fun _ => trivial).mono (fun _ h => h) ?_
      rintro ns ⟨_, qs, ⟨n, rfl, hn, -⟩, hqs, rfl⟩
      rw [List.singleton_append, List.map_cons, hn, hqs]
  have hbody : Finds Rule.params.body (names ps) BeforeParen fun ns => ns.map Node.name = ps := by
    cases ps with
    | nil =>
      refine (Finds.opt_nil (Misses.seq misses_identifier)).mono ?_ ?_
      · rintro _ ⟨rest, rfl⟩ s j rest' h
        cases h
      · rintro ns rfl
        rfl
    | cons p ps => exact (hitems p ps hp).opt
  refine (hbody.rule rfl).mono (fun _ h => h) ?_
  rintro ns ⟨c, d, qs, rfl, hqs⟩
  exact ⟨_, rfl, hqs⟩

/-! ## Brackets and braces -/

theorem finds_inParens (h : Finds x ls F Q) (hF : ∀ rest, BeforeParen rest → F rest) :
    Finds (chain [string "(", x, string ")"]) (inParens ls) (fun _ => True) Q :=
  (h.seq_token ⟨.closeParen, false⟩ fun rest => hF _ ⟨rest, rfl⟩).token_seq ⟨.openParen, false⟩

theorem finds_inBraces {w : Except ParseError Block}
    (h : Finds (.many statement) ls Closes fun ns => Block.ofNodes ns = w) :
    Finds bracedBlock (inBraces ls) (fun _ => True)
      fun ns => ∃ c d ps, ns = [.mk .block c d ps] ∧ Block.ofNodes ps = w := by
  have hrule : Finds (.rule .block) ls Closes
      fun ns => ∃ c d ps, ns = [.mk .block c d ps] ∧ Block.ofNodes ps = w :=
    Finds.rule rfl h
  exact (hrule.seq_token ⟨.closeBrace, false⟩ fun rest => .inr ⟨rest, rfl⟩).token_seq
    ⟨.openBrace, false⟩

/-! ## Operands -/

/-- Without a joined name, no call is found. -/
theorem misses_call : Misses (.rule .call) fun ls =>
    ∀ s rest, ls = ⟨.word s, true⟩ :: rest → s ∈ keywords := by
  refine Misses.rule rfl (Misses.seq ?_)
  intro c hc h
  exact .peek (parses_callee_none hc h) rfl

/-- Without a number or a joined sign, no literal is found. -/
theorem misses_literal : Misses (.rule .literal) fun ls =>
    ∀ l rest, ls = l :: rest → (∀ ds, l.token ≠ .number ds) ∧ l ≠ ⟨.op .sub, true⟩ := by
  intro c hc h
  refine parses_literal_none hc (fun ds j ls hls => ?_) fun ls hls => ?_
  · exact (h _ _ hls).1 ds rfl
  · exact (h _ _ hls).2 rfl

theorem finds_name {s : String} (hs : IsName s) :
    Finds operand [⟨.word s, false⟩] (fun _ => True) (IsExpr (.ok (.ident s))) := by
  refine .altRight misses_call (.altRight misses_literal (.altLeft ?_) ?_) ?_
  · refine (finds_identifier hs).mono (fun _ h => h) ?_
    rintro ns ⟨n, rfl, -, hn⟩
    exact ⟨n, rfl, hn⟩
  · rintro rest - l rest' h
    cases h
    simp
  · rintro rest - s' rest' h
    cases h

theorem finds_literal {ds : List Char}
    (h : Finds (.rule .literal) (l :: ls) (fun _ => True)
      fun ns => ∃ n, ns = [n] ∧ Expr.ofNode n = (do .ok (.lit (← literalValue ds))))
    (hl : l.token.isSymbol = true ∨ ∃ ds, l.token = .number ds) :
    Finds operand (l :: ls) (fun _ => True) (IsExpr (do .ok (.lit (← literalValue ds)))) := by
  refine .altRight misses_call (.altLeft h) ?_
  rintro rest - s rest' hr
  cases hr
  simp [Token.isSymbol] at hl

theorem finds_number {ds : List Char} :
    Finds operand [⟨.number ds, false⟩] (fun _ => True)
      (IsExpr (do .ok (.lit (← literalValue ds)))) := by
  refine finds_literal ?_ (.inr ⟨ds, rfl⟩)
  intro c rest hc hl _
  obtain ⟨d, hb, hd⟩ := before_of_lexemes hc hl
  refine ⟨d, _, parses_number hc hb, hd, _, rfl, ?_⟩
  rw [Expr.ofNode, hb.upTo]
  rfl

theorem finds_negative {ds : List Char} :
    Finds operand [⟨.op .sub, true⟩, ⟨.number ds, false⟩] (fun _ => True)
      (IsExpr (do .ok (.lit (← literalValue ('-' :: ds))))) := by
  refine finds_literal ?_ (.inl rfl)
  intro c rest hc hl _
  obtain ⟨d, hb, hd⟩ := before_of_lexemes hc hl
  obtain ⟨e, hb', he⟩ := before_of_lexemes (before_of_joined hb).1 hd
  obtain ⟨hp, htext⟩ := parses_negative hb hb'
  refine ⟨e, _, hp, he, _, rfl, ?_⟩
  rw [Expr.ofNode, htext]

theorem finds_bracket (h : Finds expression ls (Below 0) (IsExpr v)) :
    Finds operand (inParens ls) (fun _ => True) (IsExpr v) := by
  refine .altRight misses_call (.altRight misses_literal (.altRight misses_identifier
    (finds_inParens h fun _ => Below.beforeParen) ?_) ?_) ?_
  · rintro rest - s j rest' h
    cases h
  · rintro rest - l rest' h
    cases h
    simp
  · rintro rest - s rest' h
    cases h

theorem finds_call {f : String} {vs : Except ParseError (List Expr)} (hf : IsName f)
    (h : Finds (.rule .args) ls BeforeParen
      fun ns => ∃ n, ns = [n] ∧ Expr.ofNodes n.parts = vs) :
    Finds operand (⟨.word f, true⟩ :: inParens ls) (fun _ => True)
      (IsExpr (do .ok (.call f (← vs)))) := by
  have hargs := finds_inParens h fun _ h => h
  have hbody : Finds Rule.call.body (⟨.word f, true⟩ :: inParens ls) (fun _ => True)
      fun ns => ∃ n m, ns = [n, m] ∧ n.name = f ∧ Expr.ofNodes m.parts = vs := by
    intro c rest hc hl hF
    obtain ⟨d, hb, -⟩ := before_of_lexemes hc hl
    obtain ⟨p, hp⟩ := parses_callee (a := false) hc hb hf.2
    obtain ⟨e, ns, he, hel, _, _, ⟨n, rfl, hn, -⟩, ⟨m, rfl, hm⟩, rfl⟩ :=
      (finds_identifier hf).seq hargs (fun _ _ => trivial) c rest hc hl hF
    rw [← afterLayout_of_settled hc] at he
    exact ⟨e, _, .seq (.peek hp rfl) he rfl, hel, n, m, rfl, hn, hm⟩
  refine .altLeft ((hbody.rule rfl).mono (fun _ h => h) ?_)
  rintro ns ⟨c, d, _, rfl, n, ⟨r, c', d', qs⟩, rfl, hn, hm⟩
  refine ⟨_, rfl, ?_⟩
  rw [Expr.ofNode, hn, ← hm]
  rfl

/-! ## No expression -/

theorem misses_operand : Misses operand fun ls => ¬StartsExpr ls := by
  refine .alt (misses_call.mono fun ls hn s rest h => ?_) (.alt (misses_literal.mono ?_)
    (.alt (misses_identifier.mono fun ls hn s j rest h => ?_) (.seq ?_)))
  · by_contra hs
    exact hn ⟨_, _, h, by simpa [Token.startsExpr] using hs⟩
  · refine fun ls hn l rest h => ⟨fun ds hl => hn ⟨l, rest, h, by rw [hl]; rfl⟩, ?_⟩
    rintro rfl
    exact hn ⟨_, _, h, rfl⟩
  · by_contra hs
    exact hn ⟨_, _, h, by simpa [Token.startsExpr] using hs⟩
  · exact (Misses.solid Token.solid_openParen).mono fun ls hn j rest h => hn ⟨_, _, h, rfl⟩

/-- Where no expression begins, none is found. -/
theorem misses_expression : Misses expression fun ls => ¬StartsExpr ls := by
  have hlevel : ∀ k ≤ 6, Misses (levelPeg k) fun ls => ¬StartsExpr ls := by
    intro k hk
    induction hk using Nat.decreasingInduction with
    | self => exact misses_operand
    | of_succ k hk ih =>
      rw [levelPeg_of_lt hk]
      refine Misses.rule (atomic_levelRule k) ?_
      rw [body_levelRule hk]
      exact ih.seq
  exact hlevel 0 (by decide)

theorem not_startsExpr_of_beforeParen (h : BeforeParen ls) : ¬StartsExpr ls := by
  obtain ⟨rest, rfl⟩ := h
  rintro ⟨l, rest', h, hl⟩
  cases h
  cases hl

/-- Between a name and its brackets there may be no arguments. -/
theorem finds_noArgs : Finds (.rule .args) [] BeforeParen
    fun ns => ∃ n, ns = [n] ∧ Expr.ofNodes n.parts = .ok [] := by
  have hbody : Finds Rule.args.body [] BeforeParen (· = []) :=
    .opt_nil (misses_expression.mono fun _ => not_startsExpr_of_beforeParen).seq
  refine (hbody.rule rfl).mono (fun _ h => h) ?_
  rintro _ ⟨c, d, _, rfl, rfl⟩
  exact ⟨_, rfl, rfl⟩

end IntScript
