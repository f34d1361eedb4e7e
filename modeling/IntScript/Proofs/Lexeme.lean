import IntScript.Layout
import IntScript.Name
import IntScript.Op
import Mathlib.Data.List.TakeWhile

/-!
# Lexemes

A text is cut into tokens from its beginning: blanks and comments are dropped, and otherwise the
longest word, run of digits or symbol is taken.

* `Token` : words, numbers and symbols; `Token.text` : the characters of one;
* `Token.cut` : the token that a text begins with;
* `Lexeme` : a token, and whether it is joined to the next one where that matters;
* `lexemes` : the lexemes of a text;
* `isWord_of_mem_lexemes`, `isNumber_of_mem_lexemes` : their words and numbers are such;
* `Linked` : a name that is joined to a bracket stands in front of it (`linked_lexemes`).

`Layout.length` agrees with what is dropped (`lexemes_drop_layout`), and behind it the text goes on
with the characters of its first token (`cut_of_lexemes`).
-/

namespace IntScript

/-- A token of a text. -/
inductive Token where
  /-- A letter or underscore, then letters, digits and underscores. -/
  | word (s : String)
  /-- A run of digits. -/
  | number (digits : List Char)
  | op (o : Op)
  | assign
  | openParen
  | closeParen
  | openBrace
  | closeBrace
  | comma
  /-- A character that no token begins with. -/
  | other (c : Char)
deriving DecidableEq

namespace Token

/-- The characters of the token. -/
def text : Token → List Char
  | .word s => s.toList
  | .number ds => ds
  | .op o => o.symbol.toList
  | .assign => ['=']
  | .openParen => ['(']
  | .closeParen => [')']
  | .openBrace => ['{']
  | .closeBrace => ['}']
  | .comma => [',']
  | .other c => [c]

/-- The symbol of two characters. -/
def pair? : Char → Char → Option Token
  | '=', '=' => some (.op .eq)
  | '!', '=' => some (.op .ne)
  | '<', '=' => some (.op .le)
  | '>', '=' => some (.op .ge)
  | '&', '&' => some (.op .and)
  | '|', '|' => some (.op .or)
  | _, _ => none

/-- The symbol of one character. -/
def single : Char → Token
  | '+' => .op .add
  | '-' => .op .sub
  | '*' => .op .mul
  | '/' => .op .div
  | '%' => .op .mod
  | '<' => .op .lt
  | '>' => .op .gt
  | '=' => .assign
  | '(' => .openParen
  | ')' => .closeParen
  | '{' => .openBrace
  | '}' => .closeBrace
  | ',' => .comma
  | c => .other c

/-- The longest symbol that a text begins with, and the text behind it. -/
def cutSymbol (c : Char) : List Char → Token × List Char
  | [] => (single c, [])
  | d :: rest =>
    match pair? c d with
    | some t => (t, rest)
    | none => (single c, d :: rest)

/-- The token that a text begins with, and the text behind it. -/
def cut (c : Char) (rest : List Char) : Token × List Char :=
  if isNameStart c then
    (.word (String.ofList (c :: rest.takeWhile isNameChar)), rest.dropWhile isNameChar)
  else if c.isDigit then (.number (c :: rest.takeWhile Char.isDigit), rest.dropWhile Char.isDigit)
  else cutSymbol c rest

/-- Whether the text behind the token touches it in a way that matters: a bracket behind a word, a
digit behind a minus sign. -/
def joins : Token → List Char → Bool
  | .word _, c :: _ => c = '('
  | .op .sub, c :: _ => c.isDigit
  | _, _ => false

theorem text_pair? {c d : Char} {t : Token} (h : pair? c d = some t) : t.text = [c, d] := by
  unfold pair? at h
  split at h <;> cases h <;> rfl

theorem text_single (c : Char) : (single c).text = [c] := by
  unfold single
  split <;> rfl

/-- The token is neither a word nor a number. -/
def isSymbol : Token → Bool
  | .word _ | .number _ => false
  | _ => true

theorem isSymbol_pair? {c d : Char} {t : Token} (h : pair? c d = some t) : t.isSymbol = true := by
  unfold pair? at h
  split at h <;> cases h <;> rfl

theorem isSymbol_single (c : Char) : (single c).isSymbol = true := by
  unfold single
  split <;> rfl

theorem isSymbol_cutSymbol (c : Char) (rest : List Char) :
    (cutSymbol c rest).1.isSymbol = true := by
  cases rest with
  | nil => exact isSymbol_single c
  | cons d rest =>
    rw [cutSymbol]
    cases h : pair? c d with
    | none => exact isSymbol_single c
    | some t => exact isSymbol_pair? h

theorem text_cutSymbol (c : Char) (rest : List Char) :
    (cutSymbol c rest).1.text ++ (cutSymbol c rest).2 = c :: rest := by
  cases rest with
  | nil => simp [cutSymbol, text_single]
  | cons d rest =>
    rw [cutSymbol]
    cases h : pair? c d with
    | none => simp [text_single]
    | some t => simp [text_pair? h]

/-- The text goes on with the characters of the token. -/
theorem text_cut (c : Char) (rest : List Char) :
    (cut c rest).1.text ++ (cut c rest).2 = c :: rest := by
  unfold cut
  split
  · simp [text, String.toList_ofList]
  · split
    · simp [text]
    · exact text_cutSymbol c rest

theorem text_ne_nil_cut (c : Char) (rest : List Char) : (cut c rest).1.text ≠ [] := by
  unfold cut
  split
  · simp [text, String.toList_ofList]
  · split
    · simp [text]
    · cases rest with
      | nil => simp [cutSymbol, text_single]
      | cons d rest =>
        rw [cutSymbol]
        cases h : pair? c d with
        | none => simp [text_single]
        | some t => simp [text_pair? h]

theorem length_cut_lt (c : Char) (rest : List Char) :
    (cut c rest).2.length < (c :: rest).length := by
  have h := congrArg List.length (text_cut c rest)
  have := List.length_pos_iff.2 (text_ne_nil_cut c rest)
  rw [List.length_append] at h
  omega

end Token

/-- A token of a text, and whether it is joined to the next one (`Token.joins`). -/
structure Lexeme where
  token : Token
  joined : Bool
deriving DecidableEq

/-- The lexemes of a text. -/
def lexemes : List Char → List Lexeme
  | [] => []
  | c :: rest =>
    if isBlank c then lexemes rest
    else if c = '/' ∧ rest.head? = some '/' then
      lexemes (rest.dropWhile fun x => !isLineBreak x)
    else
      ⟨(Token.cut c rest).1, (Token.cut c rest).1.joins (Token.cut c rest).2⟩ ::
        lexemes (Token.cut c rest).2
termination_by text => text.length
decreasing_by
  · exact Nat.lt_succ_self _
  · exact Nat.lt_succ_of_le (List.length_dropWhile_le _ _)
  · exact Token.length_cut_lt c rest

@[simp] theorem lexemes_nil : lexemes [] = [] := by rw [lexemes]

theorem lexemes_blank {c : Char} (h : isBlank c = true) (rest : List Char) :
    lexemes (c :: rest) = lexemes rest := by
  rw [lexemes, if_pos h]

theorem lexemes_comment {rest : List Char} (h : rest.head? = some '/') :
    lexemes ('/' :: rest) = lexemes (rest.dropWhile fun x => !isLineBreak x) := by
  rw [lexemes, if_neg (by decide), if_pos ⟨rfl, h⟩]

theorem lexemes_token {c : Char} {rest : List Char} (hb : isBlank c = false)
    (hc : ¬(c = '/' ∧ rest.head? = some '/')) :
    lexemes (c :: rest) =
      ⟨(Token.cut c rest).1, (Token.cut c rest).1.joins (Token.cut c rest).2⟩ ::
        lexemes (Token.cut c rest).2 := by
  rw [lexemes, if_neg (by simp [hb]), if_neg hc]

/-! ## Layout -/

namespace Layout

theorem lengthFrom_eq_add (b : Bool) (n : Nat) (text : List Char) :
    lengthFrom b n text = lengthFrom b 0 text + n := by
  induction text generalizing b n with
  | nil => simp [lengthFrom]
  | cons c rest ih =>
    simp only [lengthFrom]
    split
    · rw [ih, ih _ 1]; omega
    · split
      · rw [ih, ih _ 1]; omega
      · split
        · rw [ih, ih _ 1]; omega
        · omega

theorem lengthFrom_cons (b : Bool) (c : Char) (rest : List Char) :
    lengthFrom b 0 (c :: rest) =
      if b then lengthFrom (!isLineBreak c) 0 rest + 1
      else if isBlank c then lengthFrom false 0 rest + 1
      else if c = '/' ∧ rest.head? = some '/' then lengthFrom true 0 rest + 1
      else 0 := by
  rw [lengthFrom, lengthFrom_eq_add _ (0 + 1), lengthFrom_eq_add false (0 + 1),
    lengthFrom_eq_add true (0 + 1)]

/-- What is dropped from a text that begins inside a comment, or outside of one. -/
theorem lexemes_drop_lengthFrom (b : Bool) (text : List Char) :
    lexemes (text.drop (lengthFrom b 0 text)) =
      lexemes (if b then text.dropWhile fun x => !isLineBreak x else text) := by
  induction text generalizing b with
  | nil => simp [lengthFrom]
  | cons c rest ih =>
    rw [lengthFrom_cons]
    cases b with
    | true =>
      rw [if_pos rfl, if_pos rfl, List.drop_succ_cons, ih]
      cases hc : isLineBreak c with
      | true => simp [hc, lexemes_blank (c := c) (by simp [isBlank, hc])]
      | false => simp [hc]
    | false =>
      simp only [Bool.false_eq_true, if_false]
      by_cases hb : isBlank c = true
      · rw [if_pos hb, List.drop_succ_cons, ih, lexemes_blank hb]
        rfl
      · by_cases hc : c = '/' ∧ rest.head? = some '/'
        · rw [if_neg hb, if_pos hc, List.drop_succ_cons, ih, if_pos rfl, hc.1,
            lexemes_comment hc.2]
        · rw [if_neg hb, if_neg hc, List.drop_zero]

/-- No layout is left behind what is dropped. -/
theorem lengthFrom_drop_lengthFrom (b : Bool) (text : List Char) :
    lengthFrom false 0 (text.drop (lengthFrom b 0 text)) = 0 := by
  induction text generalizing b with
  | nil => simp [lengthFrom]
  | cons c rest ih =>
    rw [lengthFrom_cons b]
    by_cases hb : b = true
    · rw [if_pos hb, List.drop_succ_cons, ih]
    · by_cases hc : isBlank c = true
      · rw [if_neg hb, if_pos hc, List.drop_succ_cons, ih]
      · by_cases hs : c = '/' ∧ rest.head? = some '/'
        · rw [if_neg hb, if_neg hc, if_pos hs, List.drop_succ_cons, ih]
        · rw [if_neg hb, if_neg hc, if_neg hs, List.drop_zero, lengthFrom_cons,
            if_neg (by decide), if_neg hc, if_neg hs]

end Layout

/-- Dropping layout does not change the lexemes. -/
theorem lexemes_drop_layout (text : List Char) :
    lexemes (text.drop (Layout.length text)) = lexemes text :=
  Layout.lexemes_drop_lengthFrom false text

/-- No layout is left behind the layout. -/
theorem layout_drop_layout (text : List Char) :
    Layout.length (text.drop (Layout.length text)) = 0 :=
  Layout.lengthFrom_drop_lengthFrom false text

/-- A text that does not begin with layout begins with a token. -/
theorem lexemes_cons {c : Char} {rest : List Char} (h : Layout.length (c :: rest) = 0) :
    lexemes (c :: rest) =
      ⟨(Token.cut c rest).1, (Token.cut c rest).1.joins (Token.cut c rest).2⟩ ::
        lexemes (Token.cut c rest).2 := by
  rw [Layout.length, Layout.lengthFrom_cons, if_neg (by decide)] at h
  split at h
  · cases h
  · next hb =>
    split at h
    · cases h
    · next hc => exact lexemes_token (by simpa using hb) hc

/-- The first token of a text that does not begin with layout. -/
theorem cut_of_lexemes {text : List Char} {l : Lexeme} {ls : List Lexeme}
    (h₀ : Layout.length text = 0) (h : lexemes text = l :: ls) :
    ∃ c rest after, text = c :: rest ∧ Token.cut c rest = (l.token, after) ∧
      text = l.token.text ++ after ∧ lexemes after = ls ∧ l.joined = l.token.joins after := by
  cases text with
  | nil => simp at h
  | cons c rest =>
    rw [lexemes_cons h₀, List.cons.injEq] at h
    obtain ⟨rfl, rfl⟩ := h
    exact ⟨c, rest, (Token.cut c rest).2, rfl, rfl, (Token.text_cut c rest).symm, rfl, rfl⟩

/-- A text without lexemes that does not begin with layout is empty. -/
theorem eq_nil_of_lexemes {text : List Char} (h₀ : Layout.length text = 0)
    (h : lexemes text = []) : text = [] := by
  cases text with
  | nil => rfl
  | cons c rest => rw [lexemes_cons h₀] at h; cases h

/-! ## What lexemes are made of -/

/-- What holds of the token that any text is cut at holds of all tokens. -/
theorem token_of_mem_lexemes {P : Token → Prop} (hP : ∀ c rest, P (Token.cut c rest).1)
    {text : List Char} {l : Lexeme} (h : l ∈ lexemes text) : P l.token := by
  induction text using lexemes.induct with
  | case1 => simp at h
  | case2 c rest hb ih =>
    rw [lexemes_blank hb] at h
    exact ih h
  | case3 c rest hb hc ih =>
    rw [hc.1, lexemes_comment hc.2] at h
    exact ih h
  | case4 c rest hb hc ih =>
    rw [lexemes_token (by simpa using hb) hc, List.mem_cons] at h
    rcases h with rfl | h
    · exact hP c rest
    · exact ih h

/-- A word of a text consists of name characters. -/
theorem isWord_of_mem_lexemes {text : List Char} {l : Lexeme} {s : String} (h : l ∈ lexemes text)
    (hs : l.token = .word s) : isWord s.toList = true := by
  refine token_of_mem_lexemes (P := fun t => ∀ s, t = .word s → isWord s.toList = true) ?_ h s hs
  intro c rest s hs
  rw [Token.cut] at hs
  split at hs
  · next hc =>
    cases hs
    rw [String.toList_ofList, isWord, hc, Bool.true_and, List.all_eq_true]
    exact fun x hx => List.mem_takeWhile_imp hx
  · split at hs
    · cases hs
    · have := Token.isSymbol_cutSymbol c rest
      rw [hs] at this
      cases this

/-- A run of digits. -/
def IsNumber (ds : List Char) : Prop := ds ≠ [] ∧ ∀ c ∈ ds, c.isDigit = true

/-- A number of a text consists of digits. -/
theorem isNumber_of_mem_lexemes {text : List Char} {l : Lexeme} {ds : List Char}
    (h : l ∈ lexemes text) (hd : l.token = .number ds) : IsNumber ds := by
  refine token_of_mem_lexemes (P := fun t => ∀ ds, t = .number ds → IsNumber ds) ?_ h ds hd
  intro c rest ds hd
  rw [Token.cut] at hd
  split at hd
  · cases hd
  · split at hd
    · next hc =>
      cases hd
      refine ⟨by simp, fun x hx => ?_⟩
      rcases List.mem_cons.1 hx with rfl | hx
      · exact hc
      · exact List.mem_takeWhile_imp hx
    · have := Token.isSymbol_cutSymbol c rest
      rw [hd] at this
      cases this

/-- A word is joined to nothing but a bracket. -/
def Linked (ls : List Lexeme) : Prop :=
  ∀ pre s post, ls = pre ++ ⟨.word s, true⟩ :: post → ∃ rest, post = ⟨.openParen, false⟩ :: rest

theorem Linked.right {ls ls' : List Lexeme} (h : Linked (ls ++ ls')) : Linked ls' := by
  intro pre s post hls
  exact h (ls ++ pre) s post (by rw [hls, List.append_assoc])

theorem Linked.tail {l : Lexeme} {ls : List Lexeme} (h : Linked (l :: ls)) : Linked ls := by
  intro pre s post hls
  exact h (l :: pre) s post (by rw [hls]; rfl)

theorem lexemes_openParen (rest : List Char) :
    lexemes ('(' :: rest) = ⟨.openParen, false⟩ :: lexemes rest := by
  have hcut : Token.cut '(' rest = (.openParen, rest) := by cases rest <;> rfl
  rw [lexemes_token (by decide) (by simp), hcut]
  rfl

/-- In a text, a word is joined to nothing but a bracket. -/
theorem linked_lexemes (text : List Char) : Linked (lexemes text) := by
  induction text using lexemes.induct with
  | case1 => simp [Linked]
  | case2 c rest hb ih =>
    rw [lexemes_blank hb]
    exact ih
  | case3 c rest hb hc ih =>
    rw [hc.1, lexemes_comment hc.2]
    exact ih
  | case4 c rest hb hc ih =>
    intro pre s post h
    rw [lexemes_token (by simpa using hb) hc] at h
    cases pre with
    | nil =>
      rw [List.nil_append, List.cons.injEq, Lexeme.mk.injEq] at h
      obtain ⟨⟨ht, hj⟩, rfl⟩ := h
      rw [ht] at hj
      rcases hr : (Token.cut c rest).2 with _ | ⟨x, after⟩
      · simp [hr, Token.joins] at hj
      · obtain rfl : x = '(' := by simpa [hr, Token.joins] using hj
        exact ⟨_, lexemes_openParen after⟩
    | cons l pre =>
      rw [List.cons_append, List.cons.injEq] at h
      exact ih pre s post h.2

end IntScript
