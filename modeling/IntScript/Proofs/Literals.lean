import IntScript.Proofs.Contents
import IntScript.Proofs.Grammar.Truthful

/-!
# The literals of a program

* `Turn`, `Turn.next` : what can come next in a text, on which it depends whether a minus sign is
  the sign of a literal;
* `literals` : the literals of a text, as they are written and from left to right;
* `Expr.literals`, `Stmt.literals`, `Block.literals` : the values of the literals of a tree;
* `Carries` : something that was read has the values of these literals, or is the error of the first
  one that has no value;
* `Reads.carries` : so does everything that is read;
* `matchesWhole_of_mem_literals` : the literals of a text are matches of their rule;
* `parse_literals` : what becomes of a text, by the grammar and by its literals.
-/

namespace IntScript

open Lexeme

/-! ## The literals of a text -/

/-- What can come next in a text. -/
inductive Turn where
  /-- An operand, or what else a statement can begin with. -/
  | operand
  /-- An operator, or what else can stand behind an operand. -/
  | operator
  /-- The name that a variable is declared with. -/
  | name
  /-- The digits behind the sign of a literal. -/
  | digits
deriving DecidableEq

namespace Turn

/-- What can come behind a lexeme. A minus sign that touches digits is their sign where an operand
can come, and an operator behind an operand; the name of a declared variable is no operand. -/
def next (t : Turn) : Lexeme → Turn
  | ⟨.word s, _⟩ =>
    if t = .name then .operand
    else if s = "var" then .name
    else if s ∈ keywords then .operand
    else .operator
  | ⟨.op .sub, true⟩ => if t = .operand then .digits else .operand
  | ⟨.number _, _⟩ | ⟨.closeParen, _⟩ => .operator
  | _ => .operand

/-- What can come behind lexemes. -/
def after (t : Turn) (ls : List Lexeme) : Turn := ls.foldl next t

/-- The literal that ends with the lexeme, if one does. -/
def literal? (t : Turn) : Lexeme → Option (List Char)
  | ⟨.number ds, _⟩ => some (if t = .digits then '-' :: ds else ds)
  | _ => none

end Turn

/-- The literals among lexemes, as they are written and from left to right. -/
def literals : Turn → List Lexeme → List (List Char)
  | _, [] => []
  | t, l :: ls => (t.literal? l).toList ++ literals (t.next l) ls

/-- The integer that a literal denotes lies between `-2^63` and `2^63 - 1`. -/
def InRange (literal : List Char) : Prop :=
  -2 ^ 63 ≤ Decimal.toInt literal ∧ Decimal.toInt literal ≤ 2 ^ 63 - 1

instance (literal : List Char) : Decidable (InRange literal) := inferInstanceAs (Decidable (_ ∧ _))

variable {ls ls' : List Lexeme} {t : Turn}

@[simp] theorem Turn.after_nil (t : Turn) : t.after [] = t := rfl

@[simp] theorem Turn.after_cons (t : Turn) (l : Lexeme) (ls : List Lexeme) :
    t.after (l :: ls) = (t.next l).after ls := rfl

@[simp] theorem Turn.after_append (t : Turn) (ls ls' : List Lexeme) :
    t.after (ls ++ ls') = (t.after ls).after ls' :=
  List.foldl_append

@[simp] theorem literals_nil (t : Turn) : literals t [] = [] := rfl

@[simp] theorem literals_cons (t : Turn) (l : Lexeme) (ls : List Lexeme) :
    literals t (l :: ls) = (t.literal? l).toList ++ literals (t.next l) ls := rfl

@[simp] theorem literals_append (t : Turn) (ls ls' : List Lexeme) :
    literals t (ls ++ ls') = literals t ls ++ literals (t.after ls) ls' := by
  induction ls generalizing t with
  | nil => rfl
  | cons l ls ih => simp [ih]

/-- Behind an operand, every operator is one. -/
@[simp] theorem Turn.next_op (o : Op) (j : Bool) : next .operator ⟨.op o, j⟩ = .operand := by
  cases o <;> cases j <;> rfl

theorem Turn.next_name {x : String} (ht : t ≠ .name) (hx : IsName x) (j : Bool) :
    t.next ⟨.word x, j⟩ = .operator := by
  have hv : x ≠ "var" := by
    rintro rfl
    exact hx.2 (by decide)
  simp [next, ht, hv, hx.2]

/-- Unless an operator comes, it is the same whether there is an operand in front. -/
theorem literals_operator (h : ¬StartsOp ls) : literals .operator ls = literals .operand ls := by
  cases ls with
  | nil => rfl
  | cons l ls =>
    obtain ⟨token, j⟩ := l
    cases token with
    | op o => exact absurd ⟨o, j, ls, rfl⟩ h
    | _ => simp [Turn.next, Turn.literal?]

@[simp] theorem Turn.after_inParens (t : Turn) (ls : List Lexeme) :
    t.after (inParens ls) = .operator := by
  simp [inParens, next]

@[simp] theorem Turn.after_inBraces (t : Turn) (ls : List Lexeme) :
    t.after (inBraces ls) = .operand := by
  simp [inBraces, next]

@[simp] theorem literals_inParens (t : Turn) (ls : List Lexeme) :
    literals t (inParens ls) = literals .operand ls := by
  simp [inParens, Turn.next, Turn.literal?]

@[simp] theorem literals_inBraces (t : Turn) (ls : List Lexeme) :
    literals t (inBraces ls) = literals .operand ls := by
  simp [inBraces, Turn.next, Turn.literal?]

@[simp] theorem literals_names (t : Turn) (ps : List String) : literals t (names ps) = [] := by
  induction ps using names.induct generalizing t with
  | case1 => rfl
  | case2 x => simp [names, Turn.literal?]
  | case3 x y rest ih => simp [names, ih, Turn.literal?]

/-! ## The literals of a tree -/

mutual

/-- The values of the literals of an expression, from left to right. -/
def Expr.literals : Expr → List Int64
  | .ident _ => []
  | .lit v => [v]
  | .bin _ l r => l.literals ++ r.literals
  | .call _ args => Expr.listLiterals args

/-- The values of the literals of arguments. -/
def Expr.listLiterals : List Expr → List Int64
  | [] => []
  | e :: es => e.literals ++ Expr.listLiterals es

end

mutual

/-- The values of the literals of a statement, from left to right. -/
def Stmt.literals : Stmt → List Int64
  | .function _ _ body => Block.literals body
  | .var _ none => []
  | .var _ (some e) | .assign _ e | .ret e | .expr e => e.literals
  | .loop c body => c.literals ++ Block.literals body
  | .ifThen c a => c.literals ++ Block.literals a
  | .ifElse c a b => c.literals ++ Block.literals a ++ Block.literals b

/-- The values of the literals of a block. -/
def Block.literals : List Stmt → List Int64
  | [] => []
  | s :: rest => s.literals ++ Block.literals rest

end

/-- The values of the literals of a phrase. -/
def Kind.literals : (k : Kind) → k.Value → List Int64
  | .operand, e | .level _, e => Expr.literals e
  | .items, es | .args, es => Expr.listLiterals es
  | .stmt _, s => Stmt.literals s
  | .block, b => Block.literals b

/-! ## What is read has its literals -/

/-- What was read has the values of the literals, which `f` finds in it, or it is the error of the
first literal without a value. -/
def Carries {α : Type} (f : α → List Int64) (v : Except ParseError α) (ts : List (List Char)) :
    Prop :=
  f <$> v = ts.mapM literalValue

namespace Carries

variable {α β γ δ : Type} {f : α → List Int64} {g : β → List Int64} {h : γ → List Int64}
  {h' : δ → List Int64} {v : Except ParseError α} {w : Except ParseError β}
  {u : Except ParseError γ} {ts us rs : List (List Char)}

theorem nothing {x : α} (hx : f x = []) : Carries f (.ok x) [] := congrArg Except.ok hx

/-- A literal has its own value. -/
theorem literal (ds : List Char) :
    Carries Expr.literals (do .ok (.lit (← literalValue ds))) [ds] := by
  unfold Carries
  rw [List.mapM_cons]
  cases literalValue ds <;> rfl

theorem map (k : α → β) (hv : Carries f v ts) (hk : ∀ a, g (k a) = f a) :
    Carries g (do .ok (k (← v))) ts := by
  unfold Carries at *
  rw [← hv]
  cases v with
  | ok a => exact congrArg Except.ok (hk a)
  | error e => rfl

/-- What stands further left has its error first. -/
theorem both (k : α → β → γ) (hv : Carries f v ts) (hw : Carries g w us)
    (hk : ∀ a b, h (k a b) = f a ++ g b) :
    Carries h (do .ok (k (← v) (← w))) (ts ++ us) := by
  unfold Carries at *
  rw [List.mapM_append, ← hv, ← hw]
  cases v with
  | ok a =>
    cases w with
    | ok b => exact congrArg Except.ok (hk a b)
    | error e => rfl
  | error e => rfl

theorem three (k : α → β → γ → δ) (hv : Carries f v ts) (hw : Carries g w us) (hu : Carries h u rs)
    (hk : ∀ a b c, h' (k a b c) = f a ++ g b ++ h c) :
    Carries h' (do .ok (k (← v) (← w) (← u))) (ts ++ us ++ rs) := by
  have hvw : Carries (fun p => f p.1 ++ g p.2) (do .ok ((← v), (← w))) (ts ++ us) :=
    both Prod.mk hv hw fun _ _ => rfl
  refine (congrArg (Carries h' · _) ?_).mp (both (fun p c => k p.1 p.2 c) hvw hu fun p c => hk ..)
  cases v with
  | ok a => cases w <;> rfl
  | error e => rfl

end Carries

/-- Behind an expression, an operator can come; behind a statement, only if that ends with an
expression. -/
theorem Reads.after {k : Kind} {v : Except ParseError k.Value} (h : Reads k ls v) :
    match k with
    | .operand | .level _ | .items => Turn.after .operand ls = .operator
    | .stmt ends => Turn.after .operand ls = if ends then .operand else .operator
    | .args | .block => True := by
  induction h with
  | name hx => exact Turn.next_name (t := .operand) (by decide) hx false
  | number | negative => rfl
  | bracket | call => simp
  | tight _ ih | loose _ _ ih | oneItem _ ih | expr _ ih => exact ih
  | noArgs | someArgs | nil | cons => trivial
  | bin _ _ _ ihl ihr => simp_all
  | moreItems _ _ ih ihs => simp_all [Turn.next]
  | function | declare | loop | ifThen | ifElse => simp [Turn.next, keywords]
  | define _ _ ih | assign _ _ ih | ret _ ih => simp_all [Turn.next, keywords]

/-- What is read carries the literals of its lexemes. -/
theorem Reads.carries {k : Kind} {v : Except ParseError k.Value} (h : Reads k ls v) :
    Carries k.literals v (literals .operand ls) := by
  induction h with
  | name | noArgs | nil => exact .nothing rfl
  | declare => simpa [Turn.literal?] using .nothing rfl
  | number ds => exact .literal _
  | negative ds => exact .literal _
  | bracket _ ih => rwa [literals_inParens]
  | call _ _ ih =>
    rw [literals_cons, literals_inParens]
    exact ih.map _ fun _ => rfl
  | tight _ ih | loose _ _ ih | someArgs _ ih => exact ih
  | bin _ hl _ ihl ihr =>
    rw [literals_append, hl.after, literals_cons, Turn.next_op]
    exact ihl.both _ ihr fun _ _ => rfl
  | oneItem _ ih => exact ih.map _ fun _ => by simp [Kind.literals, Expr.listLiterals]
  | moreItems h _ ih ihs =>
    rw [literals_append, literals_cons]
    exact ih.both _ ihs fun _ _ => rfl
  | function _ _ _ ih =>
    simp only [literals_append, literals_cons, literals_inParens, literals_inBraces, literals_names]
    exact ih.map _ fun _ => rfl
  | define _ _ ih | assign _ _ ih | ret _ ih => exact ih.map _ fun _ => rfl
  | expr _ ih => exact ih.map _ fun _ => rfl
  | loop _ _ ih ih' | ifThen _ _ ih ih' =>
    simp only [literals_append, literals_cons, literals_inParens, literals_inBraces]
    exact ih.both _ ih' fun _ _ => rfl
  | ifElse _ _ _ ih ih' ih'' =>
    simp only [literals_append, literals_cons, literals_inParens, literals_inBraces]
    exact ih.three _ ih' ih'' fun _ _ _ => rfl
  | @cons ends _ _ _ _ h _ hn ih ihs =>
    rw [literals_append, h.after]
    cases ends with
    | true => exact ih.both _ ihs fun _ _ => rfl
    | false =>
      rw [if_neg (by decide), literals_operator (hn.resolve_left (by decide))]
      exact ih.both _ ihs fun _ _ => rfl

/-! ## The rule for literals -/

/-- A match of a rule that ends with the text is found by the recogniser. -/
theorem Rule.matchesWhole_of_parses {r : Rule} {text : List Char} {d : Cursor}
    {ns : List (Node Rule)} (h : grammar.Parses false (.rule r) (.start text) (some (d, ns)))
    (hd : d.rest = []) : r.matchesWhole text = true := by
  have hfound : (grammar.run (matchFuel text.length) .initial (.rule r) (.start text)
      .initial).found? ≠ none := by
    refine ranking.found_run rfl ?_
    have hrank : r.rank ≤ 39 := by cases r <;> decide
    change r.rank + 1 + 100 * text.length ≤ 100 * (text.length + 1)
    omega
  obtain ⟨o, ho⟩ := Option.ne_none_iff_exists'.1 hfound
  obtain rfl := (Grammar.parses_of_run (m := .initial) ho).unique h
  unfold matchesWhole
  cases hr : grammar.run (matchFuel text.length) .initial (.rule r) (.start text) .initial with
  | matched d' ns' f =>
    rw [hr, Verdict.found?, Option.some.injEq, Option.some.injEq, Prod.mk.injEq] at ho
    simp [ho.1, hd]
  | failed f | exhausted => simp [hr, Verdict.found?] at ho

/-- Digits are a literal. -/
theorem matchesWhole_number {ds : List Char} (hd : IsNumber ds) :
    Rule.literal.matchesWhole ds = true := by
  have hend : Quiet [] := nofun
  have hl : lexemes (Cursor.start ds).rest = [⟨.number ds, false⟩] := by
    simpa [Cursor.start] using lexemes_number hd hend
  have hc : (Cursor.start ds).Settled := by
    obtain ⟨x, xs, rfl⟩ := List.exists_cons_of_ne_nil hd.1
    exact settled_of_isNameChar rfl (isNameChar_of_isDigit (hd.2 x (by simp)))
  obtain ⟨d, hb, -⟩ := before_of_lexemes hc hl
  exact Rule.matchesWhole_of_parses (parses_number hc hb) (List.self_eq_append_right.1 hb.rest_eq)

/-- A minus sign and digits are a literal. -/
theorem matchesWhole_negative {ds : List Char} (hd : IsNumber ds) :
    Rule.literal.matchesWhole ('-' :: ds) = true := by
  have hend : Quiet [] := nofun
  have hl : lexemes (Cursor.start ('-' :: ds)).rest =
      [⟨.op .sub, true⟩, ⟨.number ds, false⟩] := by
    simpa [Cursor.start] using lexemes_negative hd hend
  obtain ⟨d, hb, hl'⟩ := before_of_lexemes (c := .start ('-' :: ds)) rfl hl
  obtain ⟨e, hb', -⟩ := before_of_lexemes (before_of_joined hb).1 hl'
  have hrest : ds = d.rest := (List.cons.inj hb.rest_eq).2
  exact Rule.matchesWhole_of_parses (parses_negative hb hb').1
    (List.self_eq_append_right.1 (hrest.trans hb'.rest_eq))

theorem exists_number_of_mem_literals {u : List Char} (h : u ∈ literals t ls) :
    ∃ ds j, ⟨.number ds, j⟩ ∈ ls ∧ (u = ds ∨ u = '-' :: ds) := by
  induction ls generalizing t with
  | nil => cases h
  | cons l ls ih =>
    rw [literals_cons, List.mem_append] at h
    rcases h with h | h
    · obtain ⟨token, j⟩ := l
      cases token with
      | number ds =>
        refine ⟨ds, j, List.mem_cons_self, ?_⟩
        obtain rfl : u = if t = .digits then '-' :: ds else ds := by simpa [Turn.literal?] using h
        split
        · exact .inr rfl
        · exact .inl rfl
      | _ => simp [Turn.literal?] at h
    · obtain ⟨ds, j, hmem, hu⟩ := ih h
      exact ⟨ds, j, List.mem_cons_of_mem _ hmem, hu⟩

/-- Each literal of a text is one to the rule for literals. -/
theorem matchesWhole_of_mem_literals {text u : List Char} (h : u ∈ literals t (lexemes text)) :
    Rule.literal.matchesWhole u = true := by
  obtain ⟨ds, j, hmem, rfl | rfl⟩ := exists_number_of_mem_literals h
  · exact matchesWhole_number (isNumber_of_mem_lexemes hmem rfl)
  · exact matchesWhole_negative (isNumber_of_mem_lexemes hmem rfl)

/-! ## Outcomes -/

theorem literalValue_of_inRange {u : List Char} (h : InRange u) :
    ∃ v, literalValue u = .ok v ∧ v.toInt = Decimal.toInt u := by
  have hv : Decimal.toInt64? u = some (Int64.ofInt (Decimal.toInt u)) := if_pos h
  have ho : literalValue u = .ok (Int64.ofInt (Decimal.toInt u)) := by rw [literalValue, hv]
  exact ⟨_, ho, toInt_of_literalValue ho⟩

theorem literalValue_of_not_inRange {u : List Char} (h : ¬InRange u) :
    literalValue u = .error (.invalidLiteral u) := by
  have hv : Decimal.toInt64? u = none := if_neg h
  rw [literalValue, hv]

theorem mapM_literalValue_of_inRange {ts : List (List Char)} (h : ∀ u ∈ ts, InRange u) :
    ∃ vs, ts.mapM literalValue = .ok vs ∧ vs.map Int64.toInt = ts.map Decimal.toInt := by
  induction ts with
  | nil => exact ⟨[], rfl, rfl⟩
  | cons u ts ih =>
    obtain ⟨v, hv, hvu⟩ := literalValue_of_inRange (h u (by simp))
    obtain ⟨vs, hvs, hts⟩ := ih fun u hu => h u (by simp [hu])
    exact ⟨v :: vs, by rw [List.mapM_cons, hv, hvs]; rfl, by rw [List.map_cons, hvu, hts]; rfl⟩

/-- The first literal without a value is the error. -/
theorem mapM_literalValue_of_not_inRange {pre post : List (List Char)} {u : List Char}
    (hpre : ∀ u ∈ pre, InRange u) (hu : ¬InRange u) :
    (pre ++ u :: post).mapM literalValue = .error (.invalidLiteral u) := by
  obtain ⟨vs, hvs, -⟩ := mapM_literalValue_of_inRange hpre
  rw [List.mapM_append, List.mapM_cons, hvs, literalValue_of_not_inRange hu]
  rfl

/-- **Literals**: a text outside of the grammar has a syntax error, whatever its literals are. In a
text of the grammar, the leftmost literal that denotes no integer between `-2^63` and `2^63 - 1` is
the error, as it is written; without such a literal, the text is a tree, and the literals of that
are, from left to right, the integers that those of the text denote. -/
theorem parse_literals (s : String) :
    (¬Derives .block (lexemes s.toList) → ∃ e, parse s = .error (.badSyntax e)) ∧
    (Derives .block (lexemes s.toList) →
      let ts := literals .operand (lexemes s.toList)
      (∀ u ∈ ts, Rule.literal.matchesWhole u = true) ∧
      (∀ pre u post, ts = pre ++ u :: post → (∀ u' ∈ pre, InRange u') → ¬InRange u →
        parse s = .error (.invalidLiteral u)) ∧
      ((∀ u ∈ ts, InRange u) → ∃ b, parse s = .ok b ∧
        (Block.literals b).map Int64.toInt = ts.map Decimal.toInt)) := by
  refine ⟨fun hd => ?outside, fun hd => ?_⟩
  case outside =>
    by_contra he
    exact hd (derives_of_parseText fun e h => he ⟨e, h⟩)
  intro ts
  obtain ⟨v, hv, hp⟩ := exists_reads hd
  have hcarries : Block.literals <$> parse s = ts.mapM literalValue := by
    rw [parse, hp]
    exact hv.carries
  refine ⟨fun u hu => matchesWhole_of_mem_literals hu, fun pre u post hts hpre hu => ?leftmost,
    fun hts => ?tree⟩
  case leftmost =>
    rw [hts, mapM_literalValue_of_not_inRange hpre hu] at hcarries
    cases hs : parse s with
    | ok b => simp [hs] at hcarries
    | error e => simpa [hs] using hcarries
  case tree =>
    obtain ⟨vs, hvs, hmap⟩ := mapM_literalValue_of_inRange hts
    rw [hvs] at hcarries
    cases hs : parse s with
    | ok b =>
      rw [hs] at hcarries
      cases hcarries
      exact ⟨b, rfl, hmap⟩
    | error e => simp [hs] at hcarries

/-- Behind the name of a declaration the sign belongs to the literal, behind an operand it does
not; the one literal fits with its sign and its zeros, the other one does not without a sign. -/
theorem parse_literals_signs :
    let s := "var x -0009223372036854775808\nf(x -9223372036854775808, 99999999999999999999)"
    let u := "9223372036854775808".toList
    Derives .block (lexemes s.toList) ∧
      literals .operand (lexemes s.toList) =
        ["-0009223372036854775808".toList] ++ u :: ["99999999999999999999".toList] ∧
      parse s = .error (.invalidLiteral u) := by
  intro s u
  have hd : Derives .block (lexemes s.toList) :=
    derives_of_parseText fun e he => by
      have hp : parseText s.toList = .error (.invalidLiteral u) := by decide +kernel
      rw [hp] at he
      cases he
  have hl : literals .operand (lexemes s.toList) =
      ["-0009223372036854775808".toList] ++ u :: ["99999999999999999999".toList] := by
    decide +kernel
  exact ⟨hd, hl, ((parse_literals s).2 hd).2.1 _ u _ hl (by decide +kernel) (by decide +kernel)⟩

end IntScript
