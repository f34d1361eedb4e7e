import IntScript.Proofs.Contents

/-!
# Precedence and associativity

An expression with the fewest brackets: a left operand is bracketed if it binds more loosely than
the operation that it belongs to, a right operand also if it binds just as loosely.

* `Expr.level` : how tightly an expression binds, by the level of its outermost operator;
* `Expr.briefText`, `Expr.brief` : the text with the fewest brackets;
* `Expr.briefLexemes` : its lexemes (`Expr.lexemes_briefText`);
* `Expr.reads_brief` : they are read as the expression at its level and every looser one;
* `Expr.brackets`, `Reads.brackets_le` : no lexemes with fewer brackets are read as the expression;
* `parse_brief` : the text is parsed as the expression, and no other with fewer brackets is.
-/

namespace IntScript

open Lexeme

/-- The level of the outermost operator; what is no operation binds more tightly than all of them. -/
def Expr.level : Expr → Nat
  | .bin o _ _ => o.level
  | .ident _ | .lit _ | .call _ _ => 6

/-! ## The text -/

/-- A text in brackets, if it needs them. -/
def bracketIf (needed : Bool) (text : List Char) : List Char :=
  if needed then '(' :: text ++ [')'] else text

mutual

/-- The characters of an expression with the fewest brackets. -/
def Expr.briefText : Expr → List Char
  | .ident x => x.toList
  | .lit v => Decimal.ofInt v.toInt
  | .bin o l r =>
    bracketIf (l.level < o.level) l.briefText ++ ' ' :: o.symbol.toList ++
      ' ' :: bracketIf (r.level ≤ o.level) r.briefText
  | .call f args => f.toList ++ '(' :: Expr.listBriefText args ++ [')']

/-- Arguments, a comma and a blank between them. -/
def Expr.listBriefText : List Expr → List Char
  | [] => []
  | [e] => e.briefText
  | e :: e' :: es => e.briefText ++ ',' :: ' ' :: Expr.listBriefText (e' :: es)

end

/-- The expression as a string with the fewest brackets. -/
def Expr.brief (e : Expr) : String := String.ofList e.briefText

/-! ## The lexemes -/

/-- Lexemes in brackets, if they need them. -/
def inParensIf (needed : Bool) (ls : List Lexeme) : List Lexeme :=
  if needed then inParens ls else ls

mutual

/-- The lexemes of an expression with the fewest brackets. -/
def Expr.briefLexemes : Expr → List Lexeme
  | .ident x => [⟨.word x, false⟩]
  | .lit v => numeral v
  | .bin o l r =>
    inParensIf (l.level < o.level) l.briefLexemes ++
      ⟨.op o, false⟩ :: inParensIf (r.level ≤ o.level) r.briefLexemes
  | .call f args => ⟨.word f, true⟩ :: inParens (Expr.listBriefLexemes args)

/-- The lexemes of arguments with the fewest brackets. -/
def Expr.listBriefLexemes : List Expr → List Lexeme
  | [] => []
  | [e] => e.briefLexemes
  | e :: e' :: es => e.briefLexemes ++ ⟨.comma, false⟩ :: Expr.listBriefLexemes (e' :: es)

end

variable {rest : List Char}

theorem lexemes_bracketIf {needed : Bool} {text : List Char} {ls : List Lexeme}
    (h : ∀ rest, Quiet rest → lexemes (text ++ rest) = ls ++ lexemes rest) (hr : Quiet rest) :
    lexemes (bracketIf needed text ++ rest) = inParensIf needed ls ++ lexemes rest := by
  cases needed with
  | false => exact h rest hr
  | true => simp [bracketIf, inParensIf, inParens, h _ (quiet_closeParen rest)]

mutual

/-- The text with the fewest brackets is cut into its lexemes. -/
theorem Expr.lexemes_briefText (e : Expr) (h : e.WellNamed) {rest : List Char} (hr : Quiet rest) :
    IntScript.lexemes (e.briefText ++ rest) = e.briefLexemes ++ IntScript.lexemes rest := by
  cases e with
  | ident x => exact lexemes_quiet_word h.1 hr
  | lit v => exact lexemes_numeral v hr
  | bin o l r =>
    have hl : ∀ rest, Quiet rest → IntScript.lexemes (l.briefText ++ rest) = _ :=
      fun _ hq => Expr.lexemes_briefText l h.1 hq
    have hr' : ∀ rest, Quiet rest → IntScript.lexemes (r.briefText ++ rest) = _ :=
      fun _ hq => Expr.lexemes_briefText r h.2 hq
    simp only [Expr.briefText, Expr.briefLexemes, List.append_assoc, List.cons_append]
    rw [lexemes_bracketIf hl (quiet_space _), lexemes_space, lexemes_op, lexemes_bracketIf hr' hr]
  | call f args =>
    simp [Expr.briefText, Expr.briefLexemes, inParens, lexemes_joined_word h.1.1,
      Expr.lexemes_listBriefText args h.2]

/-- The text of arguments with the fewest brackets is cut into their lexemes. -/
theorem Expr.lexemes_listBriefText (es : List Expr) (h : Expr.ListWellNamed es)
    (rest : List Char) : IntScript.lexemes (Expr.listBriefText es ++ ')' :: rest) =
      Expr.listBriefLexemes es ++ ⟨.closeParen, false⟩ :: IntScript.lexemes rest := by
  match es, h with
  | [], _ => simp [Expr.listBriefText, Expr.listBriefLexemes]
  | [e], h =>
    simp [Expr.listBriefText, Expr.listBriefLexemes,
      Expr.lexemes_briefText e h.1 (quiet_closeParen _)]
  | e :: e' :: es, h =>
    simp [Expr.listBriefText, Expr.listBriefLexemes, Expr.lexemes_briefText e h.1 (quiet_comma _),
      Expr.lexemes_listBriefText (e' :: es) h.2]

end

/-! ## The reading -/

/-- What is read at every level up to its own is read at any level, if it is bracketed below. -/
theorem reads_inParensIf {e : Expr} {ls : List Lexeme} {k : Nat} {needed : Bool} (hk : k ≤ 6)
    (h : ∀ k ≤ e.level, Reads (.level k) ls (.ok e)) (hn : needed = false → k ≤ e.level) :
    Reads (.level k) (inParensIf needed ls) (.ok e) := by
  cases needed with
  | false => exact h k (hn rfl)
  | true => exact .of_operand (.bracket (h 0 (Nat.zero_le _))) hk

mutual

/-- The lexemes with the fewest brackets are read as the expression, at each level up to its own. -/
theorem Expr.reads_brief (e : Expr) (h : e.WellNamed) {k : Nat} (hk : k ≤ e.level) :
    Reads (.level k) e.briefLexemes (.ok e) := by
  cases e with
  | ident x => exact .of_operand (.name h) hk
  | lit v => exact .of_operand (reads_numeral v) hk
  | bin o l r =>
    have ho := o.level_lt
    -- the left operand may be a chain of the operator's own level, the right one may not
    have hl : Reads (.level o.level) (inParensIf (l.level < o.level) l.briefLexemes) (.ok l) :=
      reads_inParensIf (Nat.le_of_lt ho) (fun _ hk => Expr.reads_brief l h.1 hk)
        fun hn => by simpa using hn
    have hr : Reads (.level (o.level + 1)) (inParensIf (r.level ≤ o.level) r.briefLexemes)
        (.ok r) :=
      reads_inParensIf ho (fun _ hk => Expr.reads_brief r h.2 hk)
        fun hn => Nat.succ_le_of_lt (by simpa using hn)
    exact .of_level (.bin rfl hl hr) hk (Nat.le_of_lt ho)
  | call f args =>
    have hargs : Reads .args (Expr.listBriefLexemes args) (.ok args) := by
      rcases Expr.reads_listBrief args h.2 with rfl | ha
      · exact .noArgs
      · exact .someArgs ha
    exact .of_operand (.call h.1 hargs) hk

/-- The lexemes of arguments with the fewest brackets are read as them, unless there are none. -/
theorem Expr.reads_listBrief (es : List Expr) (h : Expr.ListWellNamed es) :
    es = [] ∨ Reads .items (Expr.listBriefLexemes es) (.ok es) := by
  match es, h with
  | [], _ => exact .inl rfl
  | e :: es, h =>
    have he : Reads (.level 0) e.briefLexemes (.ok e) := Expr.reads_brief e h.1 (Nat.zero_le _)
    have hes := Expr.reads_listBrief es h.2
    cases es with
    | nil => exact .inr (.oneItem he)
    | cons e' es => exact .inr (.moreItems he (hes.resolve_left (by simp)))

end

/-! ## No fewer brackets -/

/-- The number of opening brackets. -/
def brackets (ls : List Lexeme) : Nat := ls.countP (·.token = .openParen)

@[simp] theorem brackets_append (ls ls' : List Lexeme) :
    brackets (ls ++ ls') = brackets ls + brackets ls' :=
  List.countP_append

@[simp] theorem brackets_cons (l : Lexeme) (ls : List Lexeme) :
    brackets (l :: ls) = brackets ls + if l.token = .openParen then 1 else 0 := by
  simp [brackets, List.countP_cons]

@[simp] theorem brackets_nil : brackets [] = 0 := rfl

@[simp] theorem brackets_inParens (ls : List Lexeme) :
    brackets (inParens ls) = brackets ls + 1 := by
  simp [inParens]

theorem brackets_inParensIf (needed : Bool) (ls : List Lexeme) :
    brackets (inParensIf needed ls) = brackets ls + if needed then 1 else 0 := by
  cases needed <;> simp [inParensIf]

/-- The brackets of an expression where one of the level `k` is wanted. -/
def Expr.brackets (e : Expr) (k : Nat) : Nat :=
  IntScript.brackets (inParensIf (e.level < k) e.briefLexemes)

theorem Expr.brackets_eq (e : Expr) (k : Nat) :
    e.brackets k = IntScript.brackets e.briefLexemes + if e.level < k then 1 else 0 := by
  simp [Expr.brackets, brackets_inParensIf]

theorem Expr.brackets_mono (e : Expr) {k k' : Nat} (hk : k ≤ k') : e.brackets k ≤ e.brackets k' := by
  rw [e.brackets_eq, e.brackets_eq]
  split
  · next h => rw [if_pos (Nat.lt_of_lt_of_le h hk)]
  · exact Nat.add_le_add_left (Nat.zero_le _) _

theorem Expr.brackets_of_le {e : Expr} {k : Nat} (hk : k ≤ e.level) :
    e.brackets k = IntScript.brackets e.briefLexemes := by
  rw [e.brackets_eq, if_neg (Nat.not_lt_of_le hk), Nat.add_zero]

/-- One pair of brackets makes an expression fit everywhere. -/
theorem Expr.brackets_le_succ (e : Expr) (k : Nat) : e.brackets k ≤ e.brackets 0 + 1 := by
  rw [e.brackets_eq, e.brackets_eq, if_neg (Nat.not_lt_zero _)]
  split <;> omega

/-- Only the operands of an operation take brackets, not the operation at its own level. -/
theorem Expr.brackets_bin (o : Op) (l r : Expr) :
    (Expr.bin o l r).brackets o.level = l.brackets o.level + r.brackets (o.level + 1) := by
  rw [Expr.brackets_of_le (e := .bin o l r) (Nat.le_refl o.level), Expr.briefLexemes,
    Expr.brackets, Expr.brackets, brackets_append, brackets_cons, if_neg (by simp)]
  simp only [Nat.lt_succ_iff, Nat.add_zero]

/-- The brackets that a phrase takes at least. -/
def Kind.brackets : (k : Kind) → k.Value → Nat
  | .operand, e => Expr.brackets e 6
  | .level k, e => Expr.brackets e k
  | .items, es | .args, es => IntScript.brackets (Expr.listBriefLexemes es)
  | .stmt _, _ | .block, _ => 0

theorem brackets_listBriefLexemes_cons (e : Expr) (es : List Expr) :
    brackets (Expr.listBriefLexemes (e :: es)) =
      brackets e.briefLexemes + brackets (Expr.listBriefLexemes es) := by
  cases es <;> simp [Expr.listBriefLexemes]

theorem brackets_numeral (v : Int64) : brackets (numeral v) = 0 := by
  rw [numeral]
  split <;> simp

/-- What is read as an expression has at least as many brackets as that. -/
theorem Reads.brackets_le {K : Kind} {ls : List Lexeme} {v : Except ParseError K.Value}
    (h : Reads K ls v) : ∀ t, v = .ok t → K.brackets t ≤ IntScript.brackets ls := by
  induction h with
  | name | noArgs =>
    intro t ht
    cases ht
    exact Nat.zero_le _
  | number | negative =>
    intro t ht
    obtain ⟨v, -, ht⟩ := eq_ok_of_bind ht
    cases ht
    simp [Kind.brackets, Expr.brackets_eq, Expr.briefLexemes, brackets_numeral, Expr.level]
  | bracket _ ih =>
    intro e he
    rw [brackets_inParens]
    exact Nat.le_trans (e.brackets_le_succ 6) (Nat.succ_le_succ (ih e he))
  | call _ _ ih =>
    intro t ht
    obtain ⟨a, ha, ht⟩ := eq_ok_of_bind ht
    cases ht
    have hargs : IntScript.brackets (Expr.listBriefLexemes a) ≤ _ := ih a ha
    refine Nat.le_trans (Nat.le_of_eq (Expr.brackets_of_le (Nat.le_refl 6))) ?_
    simpa [Expr.briefLexemes] using hargs
  | tight _ ih => exact ih
  | loose _ _ ih =>
    intro e he
    exact Nat.le_trans (e.brackets_mono (Nat.le_succ _)) (ih e he)
  | bin ho _ _ ihl ihr =>
    intro t ht
    obtain ⟨a, ha, ht⟩ := eq_ok_of_bind ht
    obtain ⟨b, hb, ht⟩ := eq_ok_of_bind ht
    cases ht
    subst ho
    have hlr := Nat.add_le_add (ihl a ha) (ihr b hb)
    refine Nat.le_trans (Nat.le_of_eq (Expr.brackets_bin _ a b)) (Nat.le_trans hlr ?_)
    simp
  | oneItem _ ih =>
    intro t ht
    obtain ⟨a, ha, ht⟩ := eq_ok_of_bind ht
    cases ht
    exact Nat.le_trans (Nat.le_of_eq (Expr.brackets_of_le (Nat.zero_le _)).symm) (ih a ha)
  | moreItems _ _ ih ih' =>
    intro t ht
    obtain ⟨a, ha, ht⟩ := eq_ok_of_bind ht
    obtain ⟨b, hb, ht⟩ := eq_ok_of_bind ht
    cases ht
    refine Nat.le_trans (Nat.le_of_eq (brackets_listBriefLexemes_cons a b)) ?_
    have hlr := Nat.add_le_add (ih a ha) (ih' b hb)
    rw [← Expr.brackets_of_le (Nat.zero_le a.level)]
    refine Nat.le_trans hlr ?_
    simp
  | someArgs _ ih => exact ih
  | _ => exact fun _ _ => Nat.zero_le _

/-! ## Parsing -/

theorem lexemes_return_brief {e : Expr} (h : e.WellNamed) :
    lexemes ("return " ++ e.brief).toList = ⟨.word "return", false⟩ :: e.briefLexemes := by
  have hk : ("return " ++ e.brief).toList = "return".toList ++ ' ' :: e.briefText := by
    rw [String.toList_append, Expr.brief, String.toList_ofList (l := e.briefText)]
    rfl
  have he : lexemes (e.briefText ++ []) = e.briefLexemes ++ lexemes [] :=
    Expr.lexemes_briefText e h (by simp [Quiet])
  rw [List.append_nil, lexemes_nil, List.append_nil] at he
  rw [hk, lexemes_keyword (by decide), he]

/-- What is read as a return begins with the keyword and goes on with the expression. -/
theorem Reads.of_ret {ends : Bool} {ls : List Lexeme} {v : Except ParseError Stmt} {e : Expr}
    (h : Reads (.stmt ends) ls v) (hv : v = .ok (.ret e)) :
    ∃ j ls', ls = ⟨.word "return", j⟩ :: ls' ∧ Reads (.level 0) ls' (.ok e) := by
  cases h with
  | ret h =>
    obtain ⟨a, rfl, ha⟩ := eq_ok_of_bind hv
    cases ha
    exact ⟨_, _, rfl, h⟩
  | declare => cases hv
  | function | define | assign | expr =>
    obtain ⟨a, -, ha⟩ := eq_ok_of_bind hv
    cases ha
  | loop | ifThen =>
    obtain ⟨a, -, ha⟩ := eq_ok_of_bind hv
    obtain ⟨b, -, hb⟩ := eq_ok_of_bind ha
    cases hb
  | ifElse =>
    obtain ⟨a, -, ha⟩ := eq_ok_of_bind hv
    obtain ⟨b, -, hb⟩ := eq_ok_of_bind ha
    obtain ⟨c, -, hc⟩ := eq_ok_of_bind hb
    cases hc

/-- A text that is parsed as the return of an expression has at least as many brackets as that. -/
theorem brackets_le_of_parse {s : String} {e : Expr} (h : parse s = .ok [.ret e]) :
    brackets e.briefLexemes ≤ brackets (lexemes s.toList) := by
  generalize hls : lexemes s.toList = ls
  generalize hv : (.ok [.ret e] : Except ParseError (List Stmt)) = v
  have hr : Reads .block ls v := hls ▸ hv ▸ parse_reads h
  cases hr with
  | nil => cases hv
  | cons hs =>
    obtain ⟨t, rfl, ht⟩ := eq_ok_of_bind hv.symm
    obtain ⟨ts, -, hts⟩ := eq_ok_of_bind ht
    cases hts
    obtain ⟨j, ls', rfl, he⟩ := hs.of_ret rfl
    have hle : e.brackets 0 ≤ _ := he.brackets_le e rfl
    rw [Expr.brackets_of_le (Nat.zero_le _)] at hle
    simp only [brackets_append, brackets_cons]
    omega

/-- **Precedence and associativity**: behind `return`, the text of an expression with the fewest
brackets is parsed as that expression, and no text with fewer brackets is. -/
theorem parse_brief {e : Expr} (h : e.WellNamed) :
    parse ("return " ++ e.brief) = .ok [.ret e] ∧
      ∀ s : String, parse s = .ok [.ret e] →
        brackets (lexemes ("return " ++ e.brief).toList) ≤ brackets (lexemes s.toList) := by
  have hl := lexemes_return_brief h
  constructor
  · refine parseText_of_reads ?_
    rw [hl, ← List.append_nil (_ :: _)]
    have he : Reads (.level 0) e.briefLexemes (.ok e) := Expr.reads_brief e h (Nat.zero_le _)
    exact .cons (.ret he) .nil (.inr (by simp [StartsOp]))
  · intro s hs
    rw [hl, brackets_cons, if_neg (by simp)]
    exact brackets_le_of_parse hs

/-- A chain of one level, a sign behind an operator, and operands that need their brackets. -/
theorem parse_brief_mixed :
    let e : Expr := .bin .le
      (.bin .sub (.bin .sub (.ident "a") (.lit (-1))) (.bin .sub (.ident "b") (.ident "c")))
      (.bin .mul (.bin .add (.lit 2) (.lit 3)) (.call "f" [.bin .or (.ident "x") (.lit 0)]))
    e.brief = "a - -1 - (b - c) <= (2 + 3) * f(x || 0)" ∧ e.WellNamed ∧
      parse ("return " ++ e.brief) = .ok [.ret e] := by
  intro e
  have he : e.WellNamed := by
    simp only [e, Expr.WellNamed, Expr.ListWellNamed, and_true, true_and]
    decide
  exact ⟨by decide +kernel, he, (parse_brief he).1⟩

end IntScript
