import IntScript.Proofs.Syntax.Reading
import IntScript.Render

/-!
# The lexemes of rendered programs

* `Expr.WellNamed`, `Stmt.WellNamed`, `Block.WellNamed` : each name of a tree can be written as one;
* `Expr.lexemes`, `Stmt.lexemes`, `Block.lexemes` : the lexemes of a tree;
* `Expr.lexemes_text`, `Stmt.lexemes_text`, `Block.lexemes_text` : they are those of its text;
* `Expr.reads_lexemes`, `Stmt.reads_lexemes`, `Block.reads_lexemes` : they are read as the tree.

A rendered expression is an operand, and what stands behind one in a rendered program goes on with
none (`Quiet`).
-/

namespace IntScript

open Lexeme

/-! ## Names -/

mutual

/-- Each name of the expression can be written as one. -/
def Expr.WellNamed : Expr → Prop
  | .ident x => IsName x
  | .lit _ => True
  | .bin _ l r => l.WellNamed ∧ r.WellNamed
  | .call f args => IsName f ∧ Expr.ListWellNamed args

/-- Each name of the arguments can be written as one. -/
def Expr.ListWellNamed : List Expr → Prop
  | [] => True
  | e :: es => e.WellNamed ∧ Expr.ListWellNamed es

end

mutual

/-- Each name of the statement can be written as one. -/
def Stmt.WellNamed : Stmt → Prop
  | .function f ps body => IsName f ∧ (∀ p ∈ ps, IsName p) ∧ Block.WellNamed body
  | .var x none => IsName x
  | .var x (some e) => IsName x ∧ e.WellNamed
  | .assign x e => IsName x ∧ e.WellNamed
  | .loop c body => c.WellNamed ∧ Block.WellNamed body
  | .ifThen c a => c.WellNamed ∧ Block.WellNamed a
  | .ifElse c a b => c.WellNamed ∧ Block.WellNamed a ∧ Block.WellNamed b
  | .ret e => e.WellNamed
  | .expr e => e.WellNamed

/-- Each name of the block can be written as one. -/
def Block.WellNamed : List Stmt → Prop
  | [] => True
  | s :: rest => s.WellNamed ∧ Block.WellNamed rest

end

/-! ## Lexemes of trees -/

/-- The digits of a literal. -/
def digits (v : Int64) : List Char := Nat.toDigits 10 v.toInt.natAbs

/-- The lexemes of a literal without brackets. -/
def numeral (v : Int64) : List Lexeme :=
  if v < 0 then [⟨.op .sub, true⟩, ⟨.number (digits v), false⟩] else [⟨.number (digits v), false⟩]

mutual

/-- The lexemes of an expression. -/
def Expr.lexemes : Expr → List Lexeme
  | .ident x => [⟨.word x, false⟩]
  | .lit v =>
    if v < 0 then inParens [⟨.op .sub, true⟩, ⟨.number (digits v), false⟩]
    else [⟨.number (digits v), false⟩]
  | .bin op l r => inParens (l.lexemes ++ ⟨.op op, false⟩ :: r.lexemes)
  | .call f args => ⟨.word f, true⟩ :: inParens (Expr.listLexemes args)

/-- The lexemes of arguments. -/
def Expr.listLexemes : List Expr → List Lexeme
  | [] => []
  | [e] => e.lexemes
  | e :: e' :: es => e.lexemes ++ ⟨.comma, false⟩ :: Expr.listLexemes (e' :: es)

end

mutual

/-- The lexemes of a statement. -/
def Stmt.lexemes : Stmt → List Lexeme
  | .function f ps body =>
    ⟨.word "fun", false⟩ :: ⟨.word f, true⟩ :: inParens (names ps) ++ inBraces (Block.lexemes body)
  | .var x none => [⟨.word "var", false⟩, ⟨.word x, false⟩]
  | .var x (some e) => ⟨.word "var", false⟩ :: ⟨.word x, false⟩ :: ⟨.assign, false⟩ :: e.lexemes
  | .assign x e => ⟨.word x, false⟩ :: ⟨.assign, false⟩ :: e.lexemes
  | .loop c body => ⟨.word "while", false⟩ :: inParens c.lexemes ++ inBraces (Block.lexemes body)
  | .ifThen c a => ⟨.word "if", false⟩ :: inParens c.lexemes ++ inBraces (Block.lexemes a)
  | .ifElse c a b =>
    ⟨.word "if", false⟩ :: inParens c.lexemes ++ inBraces (Block.lexemes a) ++
      ⟨.word "else", false⟩ :: inBraces (Block.lexemes b)
  | .ret e => ⟨.word "return", false⟩ :: e.lexemes
  | .expr e => e.lexemes

/-- The lexemes of a block. -/
def Block.lexemes : List Stmt → List Lexeme
  | [] => []
  | s :: rest => s.lexemes ++ Block.lexemes rest

end

/-! ## Tokens in front of a text -/

/-- The text goes on with none of the characters that could belong to an operand before it. -/
def Quiet (rest : List Char) : Prop :=
  ∀ c t, rest = c :: t → isNameChar c = false ∧ c ≠ '('

theorem quiet_cons {c : Char} {rest : List Char} (h : isNameChar c = false ∧ c ≠ '(') :
    Quiet (c :: rest) := by
  intro d t heq
  cases heq
  exact h

theorem quiet_closeParen (rest : List Char) : Quiet (')' :: rest) := quiet_cons ⟨rfl, by decide⟩

theorem quiet_comma (rest : List Char) : Quiet (',' :: rest) := quiet_cons ⟨rfl, by decide⟩

theorem quiet_space (rest : List Char) : Quiet (' ' :: rest) := quiet_cons ⟨rfl, by decide⟩

variable {rest : List Char}

@[simp] theorem lexemes_space (rest : List Char) : lexemes (' ' :: rest) = lexemes rest :=
  lexemes_blank rfl rest

@[simp] theorem lexemes_newline (rest : List Char) : lexemes ('\n' :: rest) = lexemes rest :=
  lexemes_blank rfl rest

@[simp] theorem lexemes_indent (depth : Nat) (rest : List Char) :
    lexemes (indent depth ++ rest) = lexemes rest := by
  rw [indent]
  induction 4 * depth with
  | zero => rfl
  | succ n ih => rw [List.replicate_succ, List.cons_append, lexemes_space, ih]

/-- A text whose first character begins a symbol goes on with it. -/
theorem lexemes_symbol {c : Char} {t : Token} {rest after : List Char} (hb : isBlank c = false)
    (hc : c ≠ '/') (ht : Token.cut c rest = (t, after)) :
    lexemes (c :: rest) = ⟨t, t.joins after⟩ :: lexemes after := by
  rw [lexemes_token hb fun h => hc h.1, ht]

@[simp] theorem lexemes_closeParen (rest : List Char) :
    lexemes (')' :: rest) = ⟨.closeParen, false⟩ :: lexemes rest :=
  lexemes_symbol rfl (by decide) (by cases rest <;> rfl)

@[simp] theorem lexemes_openBrace (rest : List Char) :
    lexemes ('{' :: rest) = ⟨.openBrace, false⟩ :: lexemes rest :=
  lexemes_symbol rfl (by decide) (by cases rest <;> rfl)

@[simp] theorem lexemes_closeBrace (rest : List Char) :
    lexemes ('}' :: rest) = ⟨.closeBrace, false⟩ :: lexemes rest :=
  lexemes_symbol rfl (by decide) (by cases rest <;> rfl)

@[simp] theorem lexemes_comma (rest : List Char) :
    lexemes (',' :: rest) = ⟨.comma, false⟩ :: lexemes rest :=
  lexemes_symbol rfl (by decide) (by cases rest <;> rfl)

@[simp] theorem lexemes_equals_space (rest : List Char) :
    lexemes ('=' :: ' ' :: rest) = ⟨.assign, false⟩ :: lexemes rest := by
  rw [lexemes_symbol rfl (by decide) (show Token.cut '=' (' ' :: rest) = (.assign, ' ' :: rest) from
    rfl), lexemes_space]
  rfl

attribute [simp] lexemes_openParen

/-- An operator and a blank. -/
theorem lexemes_op (o : Op) (rest : List Char) :
    lexemes (o.symbol.toList ++ ' ' :: rest) = ⟨.op o, false⟩ :: lexemes rest := by
  rw [← lexemes_space rest]
  cases o with
  | div =>
    change lexemes ('/' :: ' ' :: rest) = _
    rw [lexemes_token rfl (by simp)]
    rfl
  | _ => exact lexemes_symbol rfl (by decide) rfl

/-- What a run of characters of a class ends with. -/
theorem takeWhile_append_rest {p : Char → Bool} {xs : List Char} (hx : ∀ c ∈ xs, p c = true)
    (hr : ∀ c t, rest = c :: t → p c = false) :
    (xs ++ rest).takeWhile p = xs ∧ (xs ++ rest).dropWhile p = rest := by
  rw [List.takeWhile_append_of_pos hx, List.dropWhile_append_of_pos hx]
  cases rest with
  | nil => simp
  | cons c t => simp [hr c t rfl]

/-- A word that ends where the text goes on. -/
theorem lexemes_word {s : String} (hs : isWord s.toList = true)
    (hr : ∀ c t, rest = c :: t → isNameChar c = false) :
    lexemes (s.toList ++ rest) = ⟨.word s, (Token.word s).joins rest⟩ :: lexemes rest := by
  cases hx : s.toList with
  | nil => rw [hx] at hs; cases hs
  | cons x xs =>
    rw [hx, isWord, Bool.and_eq_true, List.all_eq_true] at hs
    obtain ⟨htake, hdrop⟩ := takeWhile_append_rest hs.2 hr
    have hcut : Token.cut x (xs ++ rest) = (.word s, rest) := by
      rw [Token.cut, if_pos hs.1, htake, hdrop, ← hx, String.ofList_toList]
    have hc := isNameChar_of_isNameStart hs.1
    refine lexemes_symbol (isBlank_of_isNameChar hc) ?_ hcut
    rintro rfl
    exact absurd hc (by decide)

/-- A word that no bracket is joined to. -/
theorem lexemes_quiet_word {s : String} (hs : isWord s.toList = true) (hr : Quiet rest) :
    lexemes (s.toList ++ rest) = ⟨.word s, false⟩ :: lexemes rest := by
  rw [lexemes_word hs fun c t h => (hr c t h).1]
  cases rest with
  | nil => rfl
  | cons c t => simp [Token.joins, (hr c t rfl).2]

/-- A word and a bracket joined to it. -/
theorem lexemes_joined_word {s : String} (hs : isWord s.toList = true) (rest : List Char) :
    lexemes (s.toList ++ '(' :: rest) =
      ⟨.word s, true⟩ :: ⟨.openParen, false⟩ :: lexemes rest := by
  rw [lexemes_word hs, lexemes_openParen]
  · rfl
  · intro c t h
    cases h
    rfl

/-- A number. -/
theorem lexemes_number {ds : List Char} (hd : IsNumber ds) (hr : Quiet rest) :
    lexemes (ds ++ rest) = ⟨.number ds, false⟩ :: lexemes rest := by
  obtain ⟨hne, hall⟩ := hd
  cases ds with
  | nil => exact absurd rfl hne
  | cons x xs =>
    have hx := hall x (by simp)
    have hrest : ∀ c t, rest = c :: t → c.isDigit = false := by
      intro c t h
      rw [Bool.eq_false_iff]
      intro hc
      have hn := (hr c t h).1
      rw [isNameChar_of_isDigit hc] at hn
      cases hn
    obtain ⟨htake, hdrop⟩ := takeWhile_append_rest (fun c hc => hall c (.tail x hc)) hrest
    have hcut : Token.cut x (xs ++ rest) = (.number (x :: xs), rest) := by
      rw [Token.cut, if_neg (by simp [isNameStart_of_isDigit hx]), if_pos hx, htake, hdrop]
    refine lexemes_symbol (isBlank_of_isNameChar (isNameChar_of_isDigit hx)) ?_ hcut
    rintro rfl
    exact absurd hx (by decide)

theorem isNumber_digits (v : Int64) : IsNumber (digits v) :=
  ⟨Nat.toDigits_ne_nil, fun _ hc => Nat.isDigit_of_mem_toDigits (by decide) (by decide) hc⟩

/-- A minus sign and digits joined to it. -/
theorem lexemes_negative {ds : List Char} (hd : IsNumber ds) (hr : Quiet rest) :
    lexemes ('-' :: (ds ++ rest)) = ⟨.op .sub, true⟩ :: ⟨.number ds, false⟩ :: lexemes rest := by
  obtain ⟨hne, hall⟩ := hd
  cases ds with
  | nil => exact absurd rfl hne
  | cons x xs =>
    rw [← lexemes_number ⟨hne, hall⟩ hr, lexemes_symbol rfl (by decide)
      (show Token.cut '-' (x :: xs ++ rest) = (.op .sub, x :: xs ++ rest) from rfl)]
    simp [Token.joins, hall x (by simp)]

/-! ## Lexemes of texts -/

theorem ofInt_eq_digits (v : Int64) :
    Decimal.ofInt v.toInt = if v < 0 then '-' :: digits v else digits v := by
  rw [Decimal.ofInt, digits]
  simp only [Int64.lt_iff_toInt_lt, Int64.toInt_zero]

/-- A numeral, with its sign. -/
theorem lexemes_numeral (v : Int64) (hr : Quiet rest) :
    lexemes (Decimal.ofInt v.toInt ++ rest) = numeral v ++ lexemes rest := by
  rw [numeral, ofInt_eq_digits]
  split
  · exact lexemes_negative (isNumber_digits v) hr
  · exact lexemes_number (isNumber_digits v) hr

theorem lexemes_literal (v : Int64) (hr : Quiet rest) :
    IntScript.lexemes ((Expr.lit v).text ++ rest) =
      (Expr.lit v).lexemes ++ IntScript.lexemes rest := by
  have hq : Quiet (')' :: rest) := quiet_closeParen rest
  rw [Expr.text, Expr.lexemes]
  split
  · next hv => simp [inParens, lexemes_numeral v hq, numeral, hv]
  · next hv => rw [lexemes_numeral v hr, numeral, if_neg hv]

mutual

/-- The text of an expression is cut into its lexemes. -/
theorem Expr.lexemes_text (e : Expr) (h : e.WellNamed) {rest : List Char} (hr : Quiet rest) :
    IntScript.lexemes (e.text ++ rest) = e.lexemes ++ IntScript.lexemes rest := by
  cases e with
  | ident x => exact lexemes_quiet_word h.1 hr
  | lit v => exact lexemes_literal v hr
  | bin op l r =>
    simp [Expr.text, Expr.lexemes, inParens, lexemes_op,
      Expr.lexemes_text l h.1 (quiet_space _), Expr.lexemes_text r h.2 (quiet_closeParen _)]
  | call f args =>
    simp [Expr.text, Expr.lexemes, inParens, lexemes_joined_word h.1.1,
      Expr.listLexemes_text args h.2]

/-- The text of arguments is cut into their lexemes. -/
theorem Expr.listLexemes_text (es : List Expr) (h : Expr.ListWellNamed es) (rest : List Char) :
    IntScript.lexemes (Expr.listText es ++ ')' :: rest) =
      Expr.listLexemes es ++ ⟨.closeParen, false⟩ :: IntScript.lexemes rest := by
  match es, h with
  | [], _ => simp [Expr.listText, Expr.listLexemes]
  | [e], h =>
    simp [Expr.listText, Expr.listLexemes, Expr.lexemes_text e h.1 (quiet_closeParen _)]
  | e :: e' :: es, h =>
    simp [Expr.listText, Expr.listLexemes, Expr.lexemes_text e h.1 (quiet_comma _),
      Expr.listLexemes_text (e' :: es) h.2]

end

theorem lexemes_paramsText {ps : List String} (hp : ∀ p ∈ ps, IsName p) (rest : List Char) :
    lexemes (paramsText ps ++ ')' :: rest) =
      names ps ++ ⟨.closeParen, false⟩ :: lexemes rest := by
  induction ps using names.induct with
  | case1 => simp [paramsText, names]
  | case2 p =>
    simp [paramsText, names, lexemes_quiet_word (hp p (by simp)).1 (quiet_closeParen _)]
  | case3 p q ps ih =>
    have hps : ∀ r ∈ q :: ps, IsName r := fun r hr => hp r (by simp_all)
    simp [paramsText, names, lexemes_quiet_word (hp p (by simp)).1 (quiet_comma _), ih hps]

/-- A keyword and a blank. -/
theorem lexemes_keyword {k : String} (hk : k ∈ keywords) (rest : List Char) :
    lexemes (k.toList ++ ' ' :: rest) = ⟨.word k, false⟩ :: lexemes rest := by
  rw [lexemes_quiet_word (isWord_keyword k hk) (quiet_space rest), lexemes_space]

/-- A body between braces. -/
theorem lexemes_braced (depth : Nat) {body : List Char} {ls : List Lexeme}
    (h : ∀ rest, lexemes (body ++ rest) = ls ++ lexemes rest) (rest : List Char) :
    lexemes (braced depth body ++ rest) = inBraces ls ++ lexemes rest := by
  simp [braced, inBraces, h]

/-! ## The texts of statements, keywords and blanks apart -/

section Texts

variable (f x : String) (ps : List String) (e c : Expr) (a b : Block) (depth : Nat)

theorem Stmt.text_function : (Stmt.function f ps b).text depth =
    "fun".toList ++ ' ' :: (f.toList ++ '(' :: (paramsText ps ++ ')' :: ' ' ::
      braced depth (Block.text b (depth + 1)))) := by
  have hk : "fun ".toList = "fun".toList ++ [' '] := by decide
  change "fun ".toList ++ f.toList ++ '(' :: paramsText ps ++ _ = _
  simp only [hk, List.append_assoc, List.cons_append, List.nil_append]

theorem Stmt.text_declare : (Stmt.var x none).text depth = "var".toList ++ ' ' :: x.toList := by
  have hk : "var ".toList = "var".toList ++ [' '] := by decide
  change "var ".toList ++ x.toList = _
  rw [hk, List.append_assoc]
  rfl

theorem Stmt.text_assign :
    (Stmt.assign x e).text depth = x.toList ++ ' ' :: '=' :: ' ' :: e.text := by
  have hk : " = ".toList = [' ', '=', ' '] := by decide
  change x.toList ++ " = ".toList ++ e.text = _
  rw [hk, List.append_assoc]
  rfl

theorem Stmt.text_define : (Stmt.var x (some e)).text depth =
    "var".toList ++ ' ' :: (Stmt.assign x e).text depth := by
  have hk : "var ".toList = "var".toList ++ [' '] := by decide
  change "var ".toList ++ x.toList ++ " = ".toList ++ e.text = _
  rw [hk, List.append_assoc, List.append_assoc, List.append_assoc, ← List.append_assoc x.toList]
  rfl

theorem Stmt.text_loop : (Stmt.loop c b).text depth = "while".toList ++ ' ' :: '(' ::
    (c.text ++ ')' :: ' ' :: braced depth (Block.text b (depth + 1))) := by
  have hk : "while (".toList = "while".toList ++ [' ', '('] := by decide
  change "while (".toList ++ c.text ++ _ = _
  rw [hk, List.append_assoc, List.append_assoc]
  rfl

theorem Stmt.text_ifThen : (Stmt.ifThen c a).text depth = "if".toList ++ ' ' :: '(' ::
    (c.text ++ ')' :: ' ' :: braced depth (Block.text a (depth + 1))) := by
  have hk : "if (".toList = "if".toList ++ [' ', '('] := by decide
  change "if (".toList ++ c.text ++ _ = _
  rw [hk, List.append_assoc, List.append_assoc]
  rfl

theorem Stmt.text_ifElse : (Stmt.ifElse c a b).text depth = (Stmt.ifThen c a).text depth ++
    ' ' :: ("else".toList ++ ' ' :: braced depth (Block.text b (depth + 1))) := by
  have hk : " else ".toList = ' ' :: "else".toList ++ [' '] := by decide
  change (Stmt.ifThen c a).text depth ++ " else ".toList ++ _ = _
  rw [hk, List.append_assoc, List.append_assoc]
  rfl

theorem Stmt.text_ret : (Stmt.ret e).text depth = "return".toList ++ ' ' :: e.text := by
  have hk : "return ".toList = "return".toList ++ [' '] := by decide
  change "return ".toList ++ e.text = _
  rw [hk, List.append_assoc]
  rfl

end Texts

theorem lexemes_assignment {x : String} {e : Expr} {depth : Nat} (hx : IsName x)
    (he : e.WellNamed) (hr : Quiet rest) : lexemes ((Stmt.assign x e).text depth ++ rest) =
      ⟨.word x, false⟩ :: ⟨.assign, false⟩ :: e.lexemes ++ lexemes rest := by
  simp only [Stmt.text_assign, List.append_assoc, List.cons_append]
  rw [lexemes_quiet_word hx.1 (quiet_space _), lexemes_space, lexemes_equals_space,
    Expr.lexemes_text e he hr]

/-- A condition in brackets and a body in braces behind a keyword. -/
theorem lexemes_conditional {k : String} {e : Expr} {body : List Char} {ls : List Lexeme}
    (hk : k ∈ keywords) (he : e.WellNamed)
    (hb : ∀ rest, lexemes (body ++ rest) = ls ++ lexemes rest) (rest : List Char) :
    lexemes (k.toList ++ ' ' :: '(' :: (e.text ++ ')' :: ' ' :: body) ++ rest) =
      ⟨.word k, false⟩ :: inParens e.lexemes ++ ls ++ lexemes rest := by
  simp only [List.append_assoc, List.cons_append]
  rw [lexemes_keyword hk, lexemes_openParen, Expr.lexemes_text e he (quiet_closeParen _),
    lexemes_closeParen, lexemes_space, hb]
  simp [inParens]

mutual

/-- The text of a statement is cut into its lexemes. -/
theorem Stmt.lexemes_text (s : Stmt) (h : s.WellNamed) (depth : Nat) {rest : List Char}
    (hr : Quiet rest) :
    IntScript.lexemes (s.text depth ++ rest) = s.lexemes ++ IntScript.lexemes rest := by
  match s, h with
  | .function f ps body, h =>
    have hb := lexemes_braced depth (Block.lexemes_text body h.2.2 (depth + 1))
    have hk := lexemes_keyword (k := "fun") (by decide)
    simp only [Stmt.text_function, List.append_assoc, List.cons_append]
    rw [hk, lexemes_joined_word h.1.1, lexemes_paramsText h.2.1, lexemes_space, hb]
    simp [Stmt.lexemes, inParens]
  | .var x none, h =>
    have hk := lexemes_keyword (k := "var") (by decide)
    simp only [Stmt.text_declare, List.append_assoc, List.cons_append]
    rw [hk, lexemes_quiet_word h.1 hr]
    rfl
  | .var x (some e), h =>
    have hk := lexemes_keyword (k := "var") (by decide)
    simp only [Stmt.text_define, List.append_assoc, List.cons_append]
    rw [hk, lexemes_assignment h.1 h.2 hr]
    rfl
  | .assign x e, h => exact lexemes_assignment h.1 h.2 hr
  | .loop c body, h =>
    rw [Stmt.text_loop]
    exact lexemes_conditional (by decide) h.1
      (lexemes_braced depth (Block.lexemes_text body h.2 (depth + 1))) rest
  | .ifThen c a, h =>
    rw [Stmt.text_ifThen]
    exact lexemes_conditional (by decide) h.1
      (lexemes_braced depth (Block.lexemes_text a h.2 (depth + 1))) rest
  | .ifElse c a b, h =>
    have hb := lexemes_braced depth (Block.lexemes_text b h.2.2 (depth + 1))
    have hk := lexemes_keyword (k := "else") (by decide)
    rw [Stmt.text_ifElse, Stmt.text_ifThen, List.append_assoc, lexemes_conditional (by decide) h.1
      (lexemes_braced depth (Block.lexemes_text a h.2.1 (depth + 1)))]
    simp only [List.append_assoc, List.cons_append]
    rw [lexemes_space, hk, hb]
    simp [Stmt.lexemes]
  | .ret e, h =>
    have hk := lexemes_keyword (k := "return") (by decide)
    simp only [Stmt.text_ret, List.append_assoc, List.cons_append]
    rw [hk, Expr.lexemes_text e h hr]
    rfl
  | .expr e, h => exact Expr.lexemes_text e h hr

/-- The text of a block is cut into its lexemes. -/
theorem Block.lexemes_text (b : List Stmt) (h : Block.WellNamed b) (depth : Nat)
    (rest : List Char) :
    IntScript.lexemes (Block.text b depth ++ rest) = Block.lexemes b ++ IntScript.lexemes rest := by
  match b, h with
  | [], _ => rfl
  | s :: b, h =>
    have hq : Quiet ('\n' :: (Block.text b depth ++ rest)) := quiet_cons ⟨rfl, by decide⟩
    simp only [Block.text, List.append_assoc, List.cons_append]
    rw [lexemes_indent, Stmt.lexemes_text s h.1 depth hq, lexemes_newline,
      Block.lexemes_text b h.2 depth rest, Block.lexemes, List.append_assoc]

end

/-! ## Readings of trees -/

theorem reads_numeral (v : Int64) : Reads .operand (numeral v) (.ok (Expr.lit v)) := by
  have hval : literalValue (Decimal.ofInt v.toInt) = .ok v := by
    rw [literalValue, Decimal.toInt64?_ofInt]
  rw [ofInt_eq_digits] at hval
  rw [numeral]
  split at hval
  · next hv =>
    rw [if_pos hv]
    have h := Reads.negative (isNumber_digits v)
    rwa [hval] at h
  · next hv =>
    rw [if_neg hv]
    have h := Reads.number (isNumber_digits v)
    rwa [hval] at h

theorem reads_literal (v : Int64) : Reads .operand (Expr.lit v).lexemes (.ok (Expr.lit v)) := by
  have h := reads_numeral v
  rw [numeral] at h
  rw [Expr.lexemes]
  split at h
  · next hv =>
    rw [if_pos hv]
    exact .bracket (.of_operand h (by decide))
  · next hv => rwa [if_neg hv]

mutual

/-- The lexemes of an expression are read as it. -/
theorem Expr.reads_lexemes (e : Expr) (h : e.WellNamed) : Reads .operand e.lexemes (.ok e) := by
  cases e with
  | ident x => exact .name h
  | lit v => exact reads_literal v
  | bin o l r =>
    have hl := Reads.of_operand (Expr.reads_lexemes l h.1) (Nat.le_of_lt o.level_lt)
    have hr := Reads.of_operand (Expr.reads_lexemes r h.2) o.level_lt
    exact .bracket (.of_level (.bin rfl hl hr) (Nat.zero_le _) (Nat.le_of_lt o.level_lt))
  | call f args =>
    have hargs : Reads .args (Expr.listLexemes args) (.ok args) := by
      rcases Expr.reads_listLexemes args h.2 with rfl | ha
      · exact .noArgs
      · exact .someArgs ha
    exact .call h.1 hargs

/-- The lexemes of arguments are read as them, unless there are none. -/
theorem Expr.reads_listLexemes (es : List Expr) (h : Expr.ListWellNamed es) :
    es = [] ∨ Reads .items (Expr.listLexemes es) (.ok es) := by
  match es, h with
  | [], _ => exact .inl rfl
  | e :: es, h =>
    have he := Reads.of_operand (Expr.reads_lexemes e h.1) (Nat.zero_le 6)
    have hes := Expr.reads_listLexemes es h.2
    cases es with
    | nil => exact .inr (.oneItem he)
    | cons e' es => exact .inr (.moreItems he (hes.resolve_left (by simp)))

end

/-- The statement ends with itself: no operator could go on with it. -/
def Stmt.ends : Stmt → Bool
  | .function .. | .var _ none | .loop .. | .ifThen .. | .ifElse .. => true
  | .var _ (some _) | .assign .. | .ret _ | .expr _ => false

theorem Expr.not_startsOp_lexemes (e : Expr) (ls : List Lexeme) : ¬StartsOp (e.lexemes ++ ls) := by
  rintro ⟨o, j, rest, h⟩
  cases e with
  | ident x => cases h
  | lit v =>
    rw [Expr.lexemes] at h
    split at h <;> cases h
  | bin o l r => cases h
  | call f args => cases h

/-- No rendered statement begins with an operator. -/
theorem Block.not_startsOp_lexemes (b : Block) : ¬StartsOp (Block.lexemes b) := by
  cases b with
  | nil =>
    rintro ⟨o, j, rest, h⟩
    cases h
  | cons s b =>
    cases s with
    | expr e => exact e.not_startsOp_lexemes (Block.lexemes b)
    | var x i =>
      rintro ⟨o, j, rest, h⟩
      cases i <;> cases h
    | function | assign | loop | ifThen | ifElse | ret =>
      rintro ⟨o, j, rest, h⟩
      cases h

mutual

/-- The lexemes of a statement are read as it. -/
theorem Stmt.reads_lexemes (s : Stmt) (h : s.WellNamed) :
    Reads (.stmt s.ends) s.lexemes (.ok s) := by
  have hexpr : ∀ e : Expr, e.WellNamed → Reads (.level 0) e.lexemes (.ok e) := fun e he =>
    .of_operand (Expr.reads_lexemes e he) (Nat.zero_le 6)
  match s, h with
  | .function f ps body, h => exact .function h.1 h.2.1 (Block.reads_lexemes body h.2.2)
  | .var x none, h => exact .declare h
  | .var x (some e), h => exact .define h.1 (hexpr e h.2)
  | .assign x e, h => exact .assign h.1 (hexpr e h.2)
  | .loop c body, h => exact .loop (hexpr c h.1) (Block.reads_lexemes body h.2)
  | .ifThen c a, h => exact .ifThen (hexpr c h.1) (Block.reads_lexemes a h.2)
  | .ifElse c a b, h =>
    exact .ifElse (hexpr c h.1) (Block.reads_lexemes a h.2.1) (Block.reads_lexemes b h.2.2)
  | .ret e, h => exact .ret (hexpr e h)
  | .expr e, h => exact .expr (hexpr e h)

/-- The lexemes of a block are read as it. -/
theorem Block.reads_lexemes (b : List Stmt) (h : Block.WellNamed b) :
    Reads .block (Block.lexemes b) (.ok b) := by
  match b, h with
  | [], _ => exact .nil
  | s :: b, h =>
    exact .cons (Stmt.reads_lexemes s h.1) (Block.reads_lexemes b h.2)
      (.inr (Block.not_startsOp_lexemes b))

end

end IntScript
