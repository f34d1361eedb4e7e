import IntScript.Proofs.Lexeme

/-!
# The documented grammar

The grammar as the language manual has it: context-free, and without a preference among several
ways to derive the same text.

* `Phrase` : what the manual has names for;
* `Derives p ls` : the lexemes `ls` are a phrase of the kind `p`;
* `Token.startsExpr`, `Token.startsStmt` : the tokens that expressions and statements begin with;
* `Token.endsPhrase`, `Derives.endsPhrase` : the tokens that phrases end with.

Statements follow each other without separators, an expression is one or more atoms with operators
between them, the name of a called function is joined to its bracket, and the sign of a literal to
its digits.
-/

namespace IntScript

namespace Lexeme

/-- Lexemes between brackets. -/
def inParens (ls : List Lexeme) : List Lexeme := ⟨.openParen, false⟩ :: ls ++ [⟨.closeParen, false⟩]

/-- Lexemes between braces. -/
def inBraces (ls : List Lexeme) : List Lexeme := ⟨.openBrace, false⟩ :: ls ++ [⟨.closeBrace, false⟩]

/-- Names with commas between them. -/
def names : List String → List Lexeme
  | [] => []
  | [x] => [⟨.word x, false⟩]
  | x :: y :: rest => ⟨.word x, false⟩ :: ⟨.comma, false⟩ :: names (y :: rest)

end Lexeme

open Lexeme

/-- The kinds of phrases. -/
inductive Phrase where
  | atom
  | expr
  /-- Arguments, at least one. -/
  | items
  | args
  | stmt
  | block

/-- The phrases of the documented grammar. -/
inductive Derives : Phrase → List Lexeme → Prop where
  | name {x : String} {j : Bool} (hx : IsName x) : Derives .atom [⟨.word x, j⟩]
  | number {ds : List Char} (hd : IsNumber ds) : Derives .atom [⟨.number ds, false⟩]
  | negative {ds : List Char} (hd : IsNumber ds) :
    Derives .atom [⟨.op .sub, true⟩, ⟨.number ds, false⟩]
  | bracket {ls : List Lexeme} (h : Derives .expr ls) : Derives .atom (inParens ls)
  | call {f : String} {ls : List Lexeme} (hf : IsName f) (h : Derives .args ls) :
    Derives .atom (⟨.word f, true⟩ :: inParens ls)
  | single {ls : List Lexeme} (h : Derives .atom ls) : Derives .expr ls
  | operation {o : Op} {j : Bool} {ls ls' : List Lexeme} (hl : Derives .expr ls)
    (hr : Derives .atom ls') : Derives .expr (ls ++ ⟨.op o, j⟩ :: ls')
  | oneItem {ls : List Lexeme} (h : Derives .expr ls) : Derives .items ls
  | moreItems {ls ls' : List Lexeme} (h : Derives .expr ls) (hs : Derives .items ls') :
    Derives .items (ls ++ ⟨.comma, false⟩ :: ls')
  | noArgs : Derives .args []
  | someArgs {ls : List Lexeme} (h : Derives .items ls) : Derives .args ls
  | function {f : String} {ps : List String} {ls : List Lexeme} {j k : Bool} (hf : IsName f)
    (hp : ∀ p ∈ ps, IsName p) (hb : Derives .block ls) :
    Derives .stmt (⟨.word "fun", j⟩ :: ⟨.word f, k⟩ :: inParens (names ps) ++ inBraces ls)
  | declare {x : String} {j k : Bool} (hx : IsName x) :
    Derives .stmt [⟨.word "var", j⟩, ⟨.word x, k⟩]
  | define {x : String} {ls : List Lexeme} {j : Bool} (hx : IsName x) (h : Derives .expr ls) :
    Derives .stmt (⟨.word "var", j⟩ :: ⟨.word x, false⟩ :: ⟨.assign, false⟩ :: ls)
  | loop {ls ls' : List Lexeme} {j : Bool} (hc : Derives .expr ls) (hb : Derives .block ls') :
    Derives .stmt (⟨.word "while", j⟩ :: inParens ls ++ inBraces ls')
  | ifThen {ls ls' : List Lexeme} {j : Bool} (hc : Derives .expr ls) (hb : Derives .block ls') :
    Derives .stmt (⟨.word "if", j⟩ :: inParens ls ++ inBraces ls')
  | ifElse {ls ls' ls'' : List Lexeme} {j k : Bool} (hc : Derives .expr ls)
    (hb : Derives .block ls') (hb' : Derives .block ls'') :
    Derives .stmt (⟨.word "if", j⟩ :: inParens ls ++ inBraces ls' ++
      ⟨.word "else", k⟩ :: inBraces ls'')
  | ret {ls : List Lexeme} {j : Bool} (h : Derives .expr ls) :
    Derives .stmt (⟨.word "return", j⟩ :: ls)
  | assign {x : String} {ls : List Lexeme} (hx : IsName x) (h : Derives .expr ls) :
    Derives .stmt (⟨.word x, false⟩ :: ⟨.assign, false⟩ :: ls)
  | expr {ls : List Lexeme} (h : Derives .expr ls) : Derives .stmt ls
  | nil : Derives .block []
  | cons {ls ls' : List Lexeme} (h : Derives .stmt ls) (hs : Derives .block ls') :
    Derives .block (ls ++ ls')

/-! ## How phrases begin -/

/-- Whether an expression can begin with the token. -/
def Token.startsExpr : Token → Bool
  | .word s => s ∉ keywords
  | .number _ | .op .sub | .openParen => true
  | _ => false

/-- Whether a statement can begin with the token. -/
def Token.startsStmt : Token → Bool
  | .word s => s ≠ "else"
  | t => t.startsExpr

theorem Token.startsStmt_of_startsExpr {t : Token} (h : t.startsExpr = true) :
    t.startsStmt = true := by
  cases t with
  | word s =>
    simp only [startsExpr, decide_eq_true_eq] at h
    simp only [startsStmt, decide_eq_true_eq]
    rintro rfl
    exact h (by decide)
  | _ => exact h

/-- The first lexeme is one that an expression can begin with. -/
def StartsExpr (ls : List Lexeme) : Prop := ∃ l rest, ls = l :: rest ∧ l.token.startsExpr = true

theorem StartsExpr.append {ls : List Lexeme} (h : StartsExpr ls) (ls' : List Lexeme) :
    StartsExpr (ls ++ ls') := by
  obtain ⟨l, rest, rfl, hl⟩ := h
  exact ⟨l, rest ++ ls', rfl, hl⟩

theorem startsExpr_word {x : String} {j : Bool} {ls : List Lexeme} (hx : IsName x) :
    StartsExpr (⟨.word x, j⟩ :: ls) :=
  ⟨_, _, rfl, by simpa [Token.startsExpr] using hx.2⟩

theorem Derives.startsExpr {p : Phrase} {ls : List Lexeme} (h : Derives p ls)
    (hp : p = .atom ∨ p = .expr) : StartsExpr ls := by
  induction h with
  | name hx => exact startsExpr_word hx
  | call hf => exact startsExpr_word hf
  | number | negative | bracket => exact ⟨_, _, rfl, rfl⟩
  | single _ ih => exact ih (.inl rfl)
  | operation _ _ ih => exact (ih (.inr rfl)).append _
  | _ => simp at hp

/-- Only arguments and blocks can be empty. -/
theorem Derives.ne_nil {p : Phrase} {ls : List Lexeme} (h : Derives p ls) :
    p = .args ∨ p = .block ∨ ls ≠ [] := by
  induction h with
  | single _ ih | oneItem _ ih | expr _ ih => simpa using ih
  | _ => simp [inParens]

/-! ## How phrases end -/

/-- Whether a phrase can end with the token. -/
def Token.endsPhrase : Token → Bool
  | .word _ | .number _ | .closeParen | .closeBrace => true
  | _ => false

/-- The last lexeme is one that a phrase can end with. -/
def EndsPhrase (ls : List Lexeme) : Prop :=
  ∃ pre l, ls = pre ++ [l] ∧ l.token.endsPhrase = true

theorem EndsPhrase.prepend {ls : List Lexeme} (h : EndsPhrase ls) (ls' : List Lexeme) :
    EndsPhrase (ls' ++ ls) := by
  obtain ⟨pre, l, rfl, hl⟩ := h
  exact ⟨ls' ++ pre, l, (List.append_assoc _ _ _).symm, hl⟩

theorem endsPhrase_inParens (ls : List Lexeme) : EndsPhrase (inParens ls) := ⟨_, _, rfl, rfl⟩

theorem endsPhrase_inBraces (ls : List Lexeme) : EndsPhrase (inBraces ls) := ⟨_, _, rfl, rfl⟩

theorem Derives.endsPhrase {p : Phrase} {ls : List Lexeme} (h : Derives p ls) (hne : ls ≠ []) :
    EndsPhrase ls := by
  induction h with
  | name | number => exact ⟨[], _, rfl, rfl⟩
  | negative => exact ⟨[_], _, rfl, rfl⟩
  | declare => exact ⟨[_], _, rfl, rfl⟩
  | bracket => exact endsPhrase_inParens _
  | call => exact (endsPhrase_inParens _).prepend [_]
  | function | loop | ifThen => exact (endsPhrase_inBraces _).prepend _
  | ifElse => exact ((endsPhrase_inBraces _).prepend [_]).prepend _
  | single _ ih | oneItem _ ih | someArgs _ ih | expr _ ih => exact ih hne
  | operation _ h _ ih | moreItems _ h _ ih =>
    have hne := h.ne_nil
    exact ((ih (by simpa using hne)).prepend [_]).prepend _
  | define hx h ih =>
    have hne := h.ne_nil
    exact (ih (by simpa using hne)).prepend [_, _, _]
  | ret h ih =>
    have hne := h.ne_nil
    exact (ih (by simpa using hne)).prepend [_]
  | assign hx h ih =>
    have hne := h.ne_nil
    exact (ih (by simpa using hne)).prepend [_, _]
  | noArgs | nil => exact absurd rfl hne
  | @cons ls ls' h hs ih ihs =>
    by_cases hls : ls' = []
    · have hne := h.ne_nil
      rw [hls, List.append_nil]
      exact ih (by simpa using hne)
    · exact (ihs hls).prepend ls

end IntScript
