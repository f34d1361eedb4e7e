import IntScript.Proofs.Grammar.Operands

/-!
# Statements

* `NotWord` : the keyword does not come first; `misses_function`, `misses_loop`, ... : then the
  statements that begin with it are missed;
* `misses_assignment` : an assignment is missed where its sign is;
* `Follows` : what can stand behind a statement;
* `finds_function`, `finds_declare`, ... : the statements.
-/

namespace IntScript

open Lexeme Peg

variable {k : String} {l : Lexeme} {ls ls' : List Lexeme} {F : List Lexeme → Prop}
  {v : Except ParseError Expr} {w w' : Except ParseError Block}

/-! ## What is missed -/

/-- The keyword does not come first. -/
def NotWord (k : String) (ls : List Lexeme) : Prop := ∀ j rest, ls ≠ ⟨.word k, j⟩ :: rest

theorem notWord_cons (h : l.token ≠ .word k) : NotWord k (l :: ls) := by
  rintro j rest heq
  cases heq
  exact h rfl

theorem misses_function : Misses (.rule .function) (NotWord "fun") :=
  Misses.rule rfl (Misses.seq fun _ _ h => parses_peek_none rfl rfl (by decide) h)

theorem misses_variable : Misses (.rule .variable) (NotWord "var") :=
  Misses.rule rfl (Misses.seq fun _ _ h => parses_peek_none rfl rfl (by decide) h)

theorem misses_ret : Misses (.rule .ret) (NotWord "return") :=
  Misses.rule rfl (Misses.seq fun _ _ h => parses_peek_none rfl rfl (by decide) h)

/-- A bracket or brace is not found at a name character. -/
theorem parses_text_nameChar {a : Bool} {s : List Char} {x y : Char} {rest t : List Char}
    {d : Cursor} (hs : s = y :: t) (hy : isNameChar y = false) (hx : d.rest = x :: rest)
    (h : isNameChar x = true) : grammar.Parses a (.text s) d none := by
  refine parses_text_none hs hx ?_
  rintro rfl
  rw [hy] at h
  cases h

theorem misses_loop : Misses (.rule .loop) (NotWord "while") := by
  refine Misses.rule rfl fun c _ h => parses_wordSeq_none (by decide) ?_ h
  exact fun d x rest hx hn => .seqFail (.seqFail (parses_text_nameChar rfl rfl hx hn))

theorem misses_conditional : Misses (.rule .conditional) (NotWord "if") := by
  refine Misses.rule rfl fun c _ h => parses_wordSeq_none (by decide) ?_ h
  exact fun d x rest hx hn => .seqFail (.seqFail (parses_text_nameChar rfl rfl hx hn))

theorem misses_else : Misses (chain [string "else", bracedBlock]) (NotWord "else") := by
  refine fun c _ h => parses_wordSeq_none (by decide) ?_ h
  exact fun d x rest hx hn => .seqFail (parses_text_nameChar rfl rfl hx hn)

/-- The sign of an assignment comes first. -/
def StartsAssign (ls : List Lexeme) : Prop := ∃ j rest, ls = ⟨.assign, j⟩ :: rest

/-- Without a name and the sign behind it, no assignment is found. -/
theorem misses_assignment : Misses (.rule .assignment) fun ls =>
    ∀ x j rest, ls = ⟨.word x, j⟩ :: rest → x ∉ keywords → ¬StartsAssign rest := by
  refine Misses.rule rfl fun c hc h => ?_
  by_cases hx : ∃ x j rest, lexemes c.rest = ⟨.word x, j⟩ :: rest ∧ x ∉ keywords
  · obtain ⟨x, j, rest, hl, hx⟩ := hx
    obtain ⟨d, hb, hd⟩ := before_of_lexemes hc hl
    have hid := parses_identifier (a := false) hc hb hx
    have hds := afterLayout_settled d
    -- an equality begins with the same character, and is refused only behind it
    by_cases he : ∃ j' rest', rest = ⟨.op .eq, j'⟩ :: rest'
    · obtain ⟨j', rest', rfl⟩ := he
      obtain ⟨e, he, -⟩ := before_of_lexemes hds (by rw [lexemes_afterLayout, hd])
      exact .seq hid (parses_equals_deny he _) rfl
    · refine .seq hid (.seqFail (parses_equals_none hds ?_ ?_)) rfl
      · intro j' ls' hls
        rw [lexemes_afterLayout, hd] at hls
        exact h x j rest hl hx ⟨j', ls', hls⟩
      · intro j' ls' hls
        rw [lexemes_afterLayout, hd] at hls
        exact he ⟨j', ls', hls⟩
  · refine .seqFail (parses_identifier_none hc fun x j rest hl => ?_)
    by_contra hk
    exact hx ⟨x, j, rest, hl, hk⟩

/-- Where a block ends, no statement is found. -/
theorem misses_statement : Misses statement Closes := by
  have hword : ∀ k ls, Closes ls → NotWord k ls := by
    rintro k _ (rfl | ⟨rest, rfl⟩) j rest' h <;> cases h
  refine .alt (misses_function.mono (hword _)) (.alt (misses_variable.mono (hword _))
    (.alt (misses_loop.mono (hword _)) (.alt (misses_conditional.mono (hword _))
    (.alt (misses_ret.mono (hword _)) (.alt (misses_assignment.mono ?_)
    (misses_expression.mono ?_))))))
  · exact fun ls hls x j rest h => absurd h (hword x ls hls j rest)
  · rintro _ (rfl | ⟨rest, rfl⟩) ⟨l, rest', h, hl⟩
    · cases h
    · cases h
      cases hl

/-! ## What is found -/

/-- What stands behind a statement: no sign of an assignment or an equality, no other branch, and,
where an operator could go on with it, no operator. -/
structure Follows (ends : Bool) (ls : List Lexeme) : Prop where
  notAssign : ¬StartsAssign ls
  notEq : ∀ j rest, ls ≠ ⟨.op .eq, j⟩ :: rest
  notElse : NotWord "else" ls
  notOp : ends = false → Below 0 ls

/-- The nodes are one, which is read as the statement `v`. -/
def IsStmt (v : Except ParseError Stmt) (ns : List (Node Rule)) : Prop :=
  ∃ n, ns = [n] ∧ Stmt.ofNode n = v

/-- The expression is found in front of anything but an operator. -/
abbrev FindsExpr (ls : List Lexeme) (v : Except ParseError Expr) : Prop :=
  Finds expression ls (Below 0) (IsExpr v)

/-- The block is found where it ends. -/
abbrev FindsBlock (ls : List Lexeme) (w : Except ParseError Block) : Prop :=
  Finds (.many statement) ls Closes fun ns => Block.ofNodes ns = w

/-- No expression begins with an equals sign. -/
theorem misses_equals : Misses (string "=") StartsExpr := by
  rintro c hc ⟨l, rest, hl, hs⟩
  refine parses_equals_none hc (fun j ls' hls => ?_) fun j ls' hls => ?_
  all_goals
    rw [hl] at hls
    cases hls
    cases hs

theorem StartsExpr.notWord (h : StartsExpr ls) (hk : k ∈ keywords) : NotWord k (ls ++ ls') := by
  obtain ⟨l, rest, rfl, hl⟩ := h
  refine notWord_cons fun ht => ?_
  rw [ht, Token.startsExpr, decide_eq_true_eq] at hl
  exact hl hk

theorem finds_function {f : String} {ps : List String} {i j : Bool} (hf : IsName f)
    (hp : ∀ p ∈ ps, IsName p) (hb : FindsBlock ls w) :
    Finds statement (⟨.word "fun", i⟩ :: ⟨.word f, j⟩ :: inParens (names ps) ++ inBraces ls)
      (fun _ => True) (IsStmt (do .ok (.function f ps (← w)))) := by
  have hbody := (finds_inBraces hb).token_seq ⟨.closeParen, false⟩
  have hparams := (finds_params hp).seq hbody fun rest _ => ⟨_, rfl⟩
  have hname := (finds_identifier (j := j) hf).seq (hparams.token_seq ⟨.openParen, false⟩)
    fun _ _ => trivial
  have hrule := ((hname.token_seq ⟨.word "fun", i⟩).peek_seq rfl rfl (by decide)).rule
    (r := .function) rfl
  have hls : ⟨.word "fun", i⟩ :: ⟨.word f, j⟩ :: inParens (names ps) ++ inBraces ls =
      ⟨.word "fun", i⟩ :: ([⟨.word f, j⟩] ++
        ⟨.openParen, false⟩ :: (names ps ++ ⟨.closeParen, false⟩ :: inBraces ls)) := by
    simp [inParens]
  rw [hls]
  refine .altLeft (hrule.mono (fun _ h => h) ?_)
  rintro _ ⟨c, d, _, rfl, _, _, ⟨n, rfl, hn, -⟩,
    ⟨_, _, ⟨m, rfl, hm⟩, ⟨c', d', qs, rfl, hq⟩, rfl⟩, rfl⟩
  refine ⟨_, rfl, ?_⟩
  rw [List.singleton_append, List.singleton_append, Stmt.ofNode, hn, hm, hq]

theorem finds_declare {x : String} {i j : Bool} (hx : IsName x) :
    Finds statement [⟨.word "var", i⟩, ⟨.word x, j⟩] (Follows true)
      (IsStmt (.ok (.var x none))) := by
  have hopt : Finds (.opt (chain [string "=", expression])) [] (Follows true) (· = []) :=
    .opt_nil (Misses.seq fun c hc h => parses_equals_none hc
      (fun j ls hls => h.notAssign ⟨j, ls, hls⟩) h.notEq)
  have hname := (finds_identifier (j := j) hx).seq hopt fun _ _ => trivial
  have hrule := ((hname.token_seq ⟨.word "var", i⟩).peek_seq rfl rfl (by decide)).rule
    (r := .variable) rfl
  refine .altRight misses_function (.altLeft (hrule.mono (fun _ h => h) ?_))
    fun rest _ => notWord_cons (by simp)
  rintro _ ⟨c, d, _, rfl, _, _, ⟨n, rfl, hn, -⟩, rfl, rfl⟩
  refine ⟨_, rfl, ?_⟩
  rw [List.append_nil, Stmt.ofNode, hn]

theorem finds_define {x : String} {j : Bool} (hx : IsName x) (h : FindsExpr ls v) :
    Finds statement (⟨.word "var", j⟩ :: ⟨.word x, false⟩ :: ⟨.assign, false⟩ :: ls) (Below 0)
      (IsStmt (do .ok (.var x (some (← v))))) := by
  have hopt := (h.token_seq ⟨.assign, false⟩).opt
  have hname := (finds_identifier (j := false) hx).seq hopt fun _ _ => trivial
  have hrule := ((hname.token_seq ⟨.word "var", j⟩).peek_seq rfl rfl (by decide)).rule
    (r := .variable) rfl
  refine .altRight misses_function (.altLeft (hrule.mono (fun _ h => h) ?_))
    fun rest _ => notWord_cons (by simp)
  rintro _ ⟨c, d, _, rfl, _, _, ⟨n, rfl, hn, -⟩, ⟨m, rfl, hm⟩, rfl⟩
  refine ⟨_, rfl, ?_⟩
  rw [List.singleton_append, Stmt.ofNode, hn, hm]

theorem finds_loop {j : Bool} (hc : FindsExpr ls v) (hb : FindsBlock ls' w) :
    Finds statement (⟨.word "while", j⟩ :: inParens ls ++ inBraces ls') (fun _ => True)
      (IsStmt (do .ok (.loop (← v) (← w)))) := by
  have hcond := (finds_inParens hc fun _ => Below.beforeParen).seq (finds_inBraces hb)
    fun _ _ => trivial
  have hrule := (hcond.token_seq ⟨.word "while", j⟩).rule (r := .loop) rfl
  refine .altRight misses_function (.altRight misses_variable
    (.altLeft (hrule.mono (fun _ h => h) ?_)) fun rest _ => notWord_cons (by simp))
    fun rest _ => notWord_cons (by simp)
  rintro _ ⟨c, d, _, rfl, _, _, ⟨n, rfl, hn⟩, ⟨c', d', qs, rfl, hq⟩, rfl⟩
  refine ⟨_, rfl, ?_⟩
  rw [List.singleton_append, Stmt.ofNode, hn, hq]

/-- A conditional is none of the statements that are tried before it. -/
theorem finds_of_conditional {j : Bool} {Q : List (Node Rule) → Prop}
    (h : Finds (.rule .conditional) (⟨.word "if", j⟩ :: ls) F Q) :
    Finds statement (⟨.word "if", j⟩ :: ls) F Q :=
  .altRight misses_function (.altRight misses_variable (.altRight misses_loop (.altLeft h)
    fun _ _ => notWord_cons (by simp)) fun _ _ => notWord_cons (by simp))
    fun _ _ => notWord_cons (by simp)

theorem finds_ifThen {j : Bool} (hc : FindsExpr ls v) (hb : FindsBlock ls' w) :
    Finds statement (⟨.word "if", j⟩ :: inParens ls ++ inBraces ls') (NotWord "else")
      (IsStmt (do .ok (.ifThen (← v) (← w)))) := by
  have hthen := (finds_inBraces hb).seq (.opt_nil misses_else) fun _ _ => trivial
  have hcond := (finds_inParens hc fun _ => Below.beforeParen).seq hthen fun _ _ => trivial
  have hrule := (hcond.token_seq ⟨.word "if", j⟩).rule (r := .conditional) rfl
  rw [List.append_nil] at hrule
  refine finds_of_conditional (hrule.mono (fun _ h => h) ?_)
  rintro _ ⟨c, d, _, rfl, _, _, ⟨n, rfl, hn⟩, ⟨_, _, ⟨c', d', qs, rfl, hq⟩, rfl, rfl⟩, rfl⟩
  refine ⟨_, rfl, ?_⟩
  rw [List.append_nil, List.singleton_append, Stmt.ofNode, hn, hq]

theorem finds_ifElse {i j : Bool} {ls'' : List Lexeme} (hc : FindsExpr ls v)
    (hb : FindsBlock ls' w) (hb' : FindsBlock ls'' w') :
    Finds statement
      (⟨.word "if", i⟩ :: inParens ls ++ inBraces ls' ++ ⟨.word "else", j⟩ :: inBraces ls'')
      (fun _ => True) (IsStmt (do .ok (.ifElse (← v) (← w) (← w')))) := by
  have helse := ((finds_inBraces hb').token_seq ⟨.word "else", j⟩).opt
  have hthen := (finds_inBraces hb).seq helse fun _ _ => trivial
  have hcond := (finds_inParens hc fun _ => Below.beforeParen).seq hthen fun _ _ => trivial
  have hrule := (hcond.token_seq ⟨.word "if", i⟩).rule (r := .conditional) rfl
  rw [← List.append_assoc] at hrule
  refine finds_of_conditional (hrule.mono (fun _ h => h) ?_)
  rintro _ ⟨c, d, _, rfl, _, _, ⟨n, rfl, hn⟩,
    ⟨_, _, ⟨c', d', qs, rfl, hq⟩, ⟨c'', d'', rs, rfl, hr⟩, rfl⟩, rfl⟩
  refine ⟨_, rfl, ?_⟩
  rw [List.singleton_append, List.singleton_append, Stmt.ofNode, hn, hq, hr]

theorem finds_ret {j : Bool} (h : FindsExpr ls v) :
    Finds statement (⟨.word "return", j⟩ :: ls) (Below 0) (IsStmt (do .ok (.ret (← v)))) := by
  have hrule := ((h.token_seq ⟨.word "return", j⟩).peek_seq rfl rfl (by decide)).rule
    (r := .ret) rfl
  refine .altRight misses_function (.altRight misses_variable (.altRight misses_loop
    (.altRight misses_conditional (.altLeft (hrule.mono (fun _ h => h) ?_))
    fun _ _ => notWord_cons (by simp)) fun _ _ => notWord_cons (by simp))
    fun _ _ => notWord_cons (by simp)) fun _ _ => notWord_cons (by simp)
  rintro _ ⟨c, d, _, rfl, n, rfl, hn⟩
  refine ⟨_, rfl, ?_⟩
  rw [Stmt.ofNode, hn]

/-- Assignments and expressions begin with no keyword. -/
theorem finds_of_startsExpr {Q : List (Node Rule) → Prop} (hs : StartsExpr ls)
    (h : Finds (choice [.rule .assignment, expression]) ls F Q) : Finds statement ls F Q :=
  .altRight misses_function (.altRight misses_variable (.altRight misses_loop
    (.altRight misses_conditional (.altRight misses_ret h
    fun _ _ => hs.notWord (by decide)) fun _ _ => hs.notWord (by decide))
    fun _ _ => hs.notWord (by decide)) fun _ _ => hs.notWord (by decide))
    fun _ _ => hs.notWord (by decide)

theorem finds_assign {x : String} (hx : IsName x) (h : FindsExpr ls v) (hs : StartsExpr ls) :
    Finds statement (⟨.word x, false⟩ :: ⟨.assign, false⟩ :: ls) (Below 0)
      (IsStmt (do .ok (.assign x (← v)))) := by
  have hdeny := Finds.deny_seq misses_equals h fun rest _ => hs.append rest
  have hname := (finds_identifier (j := false) hx).seq (hdeny.token_seq ⟨.assign, false⟩)
    fun _ _ => trivial
  have hrule := hname.rule (r := .assignment) rfl
  refine finds_of_startsExpr ⟨_, _, rfl, by simpa [Token.startsExpr] using hx.2⟩
    (.altLeft (hrule.mono (fun _ h => h) ?_))
  rintro _ ⟨c, d, _, rfl, _, _, ⟨n, rfl, hn, -⟩, ⟨m, rfl, hm⟩, rfl⟩
  refine ⟨_, rfl, ?_⟩
  rw [List.singleton_append, Stmt.ofNode, hn, hm]

/-- An expression is a statement where it is no assignment. -/
theorem finds_expr (h : FindsExpr ls v) (hs : StartsExpr ls)
    (ha : ∀ x j rest rest', ls = ⟨.word x, j⟩ :: rest → ¬StartsAssign rest' →
      ¬StartsAssign (rest ++ rest')) :
    Finds statement ls (fun rest => Below 0 rest ∧ ¬StartsAssign rest)
      (IsStmt (do .ok (.expr (← v)))) := by
  have hexpr : Finds expression ls (Below 0) (IsStmt (do .ok (.expr (← v)))) := by
    intro c rest hc hl hF
    obtain ⟨d, _, hd, hdl, n, rfl, hn⟩ := h c rest hc hl hF
    obtain ⟨ps, hps⟩ := eq_of_parses_rule hd
    obtain rfl := (List.cons.inj hps).1
    refine ⟨d, _, hd, hdl, _, rfl, ?_⟩
    rw [← hn]
    simp [Stmt.ofNode]
  refine finds_of_startsExpr hs (.altRight misses_assignment
    (hexpr.mono (fun _ h => h.1) fun _ h => h) ?_)
  intro rest hr x j rest' hls _
  obtain ⟨l, ls, rfl, -⟩ := hs
  cases hls
  exact ha x j ls rest rfl hr.2

end IntScript
