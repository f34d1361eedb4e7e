import IntScript.Proofs.Grammar.Awaits
import IntScript.Proofs.Peg.Reports

/-!
# Only what can stand is asked for

* `Rule.phrase`, `Rule.sample` : what a rule matches, and a text that it does;
* `Stands text r c` : what the rule matches can stand at the place, in a text that is accepted;
* `Boundary text c`, `Stuck text c` : the places where rules can stand;
* `Truthful x P` : a match of `x` spans lexemes in `P`, and where such are awaited, it calls only
  rules that can stand;
* `Truthful.seq`, `Truthful.many`, `Truthful.plain`, ... : a rule for each form of expression.

One place is out of the ordinary: behind a declared name, the first half of two equals signs is
taken for a sign of its own, and an expression is asked for between them (`Stuck`). It could stand
there, but no rule matches.
-/

namespace IntScript

open Lexeme Peg

/-! ## Rules -/

/-- A name and the bracket that touches it. -/
def IsCallee (ls : List Lexeme) : Prop :=
  ∃ f, IsName f ∧ ls = [⟨.word f, true⟩, ⟨.openParen, false⟩]

/-- The end of a call without arguments. -/
theorem derives_of_isCallee {ls : List Lexeme} (h : IsCallee ls) :
    Derives .atom (ls ++ lexemes [')']) := by
  obtain ⟨f, hf, rfl⟩ := h
  rw [lexemes_closeParen, lexemes_nil]
  exact .call hf .noArgs

namespace Rule

/-- What a rule matches is among these, and these can stand wherever a match of the rule can. -/
def phrase : Rule → List Lexeme → Prop
  | .endOfInput | .program => (· = [])
  | .block => Derives .block
  | .function | .variable | .loop | .conditional | .ret | .assignment => Derives .stmt
  | .params => IsParams
  | .disjunction | .conjunction | .equality | .relation | .sum | .product => Derives .expr
  | .call | .literal => Derives .atom
  | .callee => IsCallee
  | .args => Derives .args
  | .orOp | .andOp | .eqOp | .relOp | .addOp | .mulOp => IsOp
  | .identifier => IsIdent
  | .keyword => fun ls => ∃ k ∈ keywords, IsWord k ls
  | .funWord => IsWord "fun"
  | .varWord => IsWord "var"
  | .returnWord => IsWord "return"

/-- A text that the rule matches as a whole. -/
def sample : Rule → String
  | .endOfInput | .program | .block | .params | .args => ""
  | .function => "fun f() {}"
  | .variable => "var x"
  | .loop => "while (0) {}"
  | .conditional => "if (0) {}"
  | .ret => "return 0"
  | .assignment => "x = 0"
  | .disjunction | .conjunction | .equality | .relation | .sum | .product | .literal => "0"
  | .call => "f()"
  | .callee => "f("
  | .orOp => "||"
  | .andOp => "&&"
  | .eqOp => "=="
  | .relOp => "<="
  | .addOp => "+"
  | .mulOp => "*"
  | .identifier => "x"
  | .keyword => "if"
  | .funWord => "fun"
  | .varWord => "var"
  | .returnWord => "return"

/-- The rule matches the whole text. -/
def matchesWhole (r : Rule) (text : List Char) : Bool :=
  match grammar.run (matchFuel text.length) .initial (.rule r) (.start text) .initial with
  | .matched c _ _ => c.rest.isEmpty
  | _ => false

theorem matchesWhole_sample (r : Rule) : r.matchesWhole r.sample.toList = true := by
  cases r <;> decide +kernel

end Rule

/-! ## Samples -/

theorem isNumber_zero : IsNumber ['0'] := by simp [IsNumber]

theorem derives_zero : Derives .expr [⟨.number ['0'], false⟩] := .single (.number isNumber_zero)

theorem Rule.phrase_sample (r : Rule) : r.phrase (lexemes r.sample.toList) := by
  have hf : IsName "f" := by decide
  have hx : IsName "x" := by decide
  suffices h : ∃ ls, r.phrase ls ∧ lexemes r.sample.toList = ls by
    obtain ⟨ls, hls, h⟩ := h
    exact h ▸ hls
  cases r
  case endOfInput | program => exact ⟨[], rfl, lexemes_nil⟩
  case block => exact ⟨[], Derives.nil, lexemes_nil⟩
  case function =>
    have hps : ∀ p ∈ ([] : List String), IsName p := by simp
    exact ⟨_, Derives.function (j := false) (k := true) hf hps .nil, by decide +kernel⟩
  case params => exact ⟨[], .inl rfl, lexemes_nil⟩
  case «variable» => exact ⟨_, Derives.declare (j := false) (k := false) hx, by decide +kernel⟩
  case loop => exact ⟨_, Derives.loop (j := false) derives_zero .nil, by decide +kernel⟩
  case conditional => exact ⟨_, Derives.ifThen (j := false) derives_zero .nil, by decide +kernel⟩
  case ret => exact ⟨_, Derives.ret (j := false) derives_zero, by decide +kernel⟩
  case assignment => exact ⟨_, Derives.assign hx derives_zero, by decide +kernel⟩
  case disjunction | conjunction | equality | relation | sum | product =>
    exact ⟨_, derives_zero, by decide +kernel⟩
  case literal => exact ⟨_, Derives.number isNumber_zero, by decide +kernel⟩
  case call => exact ⟨_, Derives.call hf .noArgs, by decide +kernel⟩
  case callee => exact ⟨_, ⟨_, hf, rfl⟩, by decide +kernel⟩
  case args => exact ⟨[], Derives.noArgs, lexemes_nil⟩
  case orOp => exact ⟨_, ⟨.or, false, rfl⟩, by decide +kernel⟩
  case andOp => exact ⟨_, ⟨.and, false, rfl⟩, by decide +kernel⟩
  case eqOp => exact ⟨_, ⟨.eq, false, rfl⟩, by decide +kernel⟩
  case relOp => exact ⟨_, ⟨.le, false, rfl⟩, by decide +kernel⟩
  case addOp => exact ⟨_, ⟨.add, false, rfl⟩, by decide +kernel⟩
  case mulOp => exact ⟨_, ⟨.mul, false, rfl⟩, by decide +kernel⟩
  case identifier => exact ⟨_, ⟨"x", false, hx, rfl⟩, by decide +kernel⟩
  case keyword => exact ⟨_, ⟨"if", by decide, false, [], rfl, rfl⟩, by decide +kernel⟩
  case funWord | varWord | returnWord => exact ⟨_, ⟨false, [], rfl, rfl⟩, by decide +kernel⟩

/-- Phrases of a rule can be written down, also at the end of a text. -/
theorem Rule.writable_phrase (r : Rule) : Writable r.phrase := by
  refine ⟨fun ls h => ?_, _, r.phrase_sample⟩
  cases r
  case endOfInput | program => exact unjoin_eq_nil.2 h
  case params =>
    exact (Unjoins.isIdent.both (Unjoins.isIdent.token_then (t := .comma)).many).maybe ls h
  case callee =>
    obtain ⟨f, hf, rfl⟩ := h
    exact ⟨f, hf, rfl⟩
  case orOp | andOp | eqOp | relOp | addOp | mulOp => exact Unjoins.isOp ls h
  case identifier => exact Unjoins.isIdent ls h
  case keyword =>
    obtain ⟨k, hk, h⟩ := h
    exact ⟨k, hk, Unjoins.isWord ls h⟩
  case funWord | varWord | returnWord => exact Unjoins.isWord ls h
  all_goals exact Derives.unjoin h

/-! ## Standing -/

/-- The rules that an expression can begin with. -/
def exprRules : List Rule :=
  [.disjunction, .conjunction, .equality, .relation, .sum, .product, .call, .callee, .literal,
    .identifier]

/-- The place is in front of a lexeme of the text, or at its end. -/
def Boundary (text : List Char) (c : Cursor) : Prop :=
  c.Settled ∧ ∃ ls, (Cursor.start text).Passes ls c

/-- The text that ends at the place goes on with an expression, but the place is in front of an
equals sign and behind another one. -/
structure Stuck (text : List Char) (c : Cursor) : Prop where
  head : c.rest.head? = some '='
  behind : ∃ b ls, (Cursor.start text).Passes ls b ∧ b.rest = '=' :: c.rest ∧ c = b.advance 1
  ends : Open (Derives .expr) (lexemes (text.take c.offset))

theorem Stuck.settled {text : List Char} {c : Cursor} (h : Stuck text c) : c.Settled := by
  obtain ⟨rest, hrest⟩ := List.head?_eq_some_iff.1 h.head
  rw [Cursor.Settled, hrest]
  rfl

/-- What the rule matches can stand at the place. -/
def Stands (text : List Char) : Rule → Cursor → Prop
  | .program, c => c = .start text
  | .endOfInput, c => Boundary text c ∧ Derives .block (lexemes (text.take c.offset))
  | r, c => Awaits text r.phrase c ∨ Stuck text c ∧ r ∈ exprRules

/-- The lexemes of a text that ends behind an equals sign, whatever goes on with it. -/
theorem lexemes_take_equals {text : List Char} {ls : List Lexeme} {c d : Cursor}
    (h : (Cursor.start text).Passes ls c) (hrest : c.rest = '=' :: d.rest) (hd : d = c.advance 1) :
    lexemes (text.take d.offset) = ls ++ [⟨.assign, false⟩] := by
  have hlead : c.Leads ['='] := fun x hx => by
    rw [hrest]
    exact hx
  have hup := h.lexemes_upTo hlead
  obtain ⟨n, rfl⟩ := h.advance_eq
  have htake : text.take d.offset =
      (Cursor.start text).upTo ((Cursor.start text).advance n) ++ ['='] := by
    rw [hd, Cursor.upTo_advance]
    change text.take (0 + n + 1) = text.take n ++ ['=']
    rw [Nat.zero_add, List.take_add, show text.drop n = '=' :: d.rest from hrest]
    rfl
  have hsign : lexemes ['='] = [⟨.assign, false⟩] := by decide +kernel
  rw [htake, hup, if_neg (List.cons_ne_nil _ _), hsign]

/-- Most rules stand where their phrases are awaited, or where the recogniser is stuck. -/
theorem Stands.awaits_or_stuck {text : List Char} {r : Rule} {c : Cursor} (h : Stands text r c)
    (hp : r ≠ .program) (he : r ≠ .endOfInput) :
    Awaits text r.phrase c ∨ Stuck text c ∧ r ∈ exprRules := by
  cases r <;> first | exact h | exact absurd rfl hp | exact absurd rfl he

/-- Behind its beginning, a text is in front of a lexeme, at its end, or stuck. -/
theorem Stands.boundary_or_stuck {text : List Char} {r : Rule} {c : Cursor} (h : Stands text r c)
    (hc : 0 < c.offset) : Boundary text c ∨ Stuck text c := by
  by_cases hp : r = .program
  · subst hp
    obtain rfl : c = .start text := h
    exact absurd hc (Nat.lt_irrefl 0)
  by_cases he : r = .endOfInput
  · subst he
    exact .inl h.1
  rcases h.awaits_or_stuck hp he with ⟨hc, pre, hpre, -⟩ | ⟨h, -⟩
  · exact .inl ⟨hc, pre, hpre⟩
  · exact .inr h

/-! ## Expressions -/

variable {x y : Peg Rule} {P Q : List Lexeme → Prop} {text : List Char} {c d : Cursor}
  {k : String} {t : Token}

/-- The characters of the token begin no other one, and it is joined to nothing. -/
structure Token.Plain (t : Token) : Prop where
  solid : t.Solid
  joins : ∀ rest, t.joins rest = false
  lexemes_eq : lexemes t.text = [⟨t, false⟩]

theorem Token.Plain.openParen : Plain .openParen :=
  ⟨solid_openParen, fun _ => rfl, by simp [Token.text]⟩

theorem Token.Plain.closeParen : Plain .closeParen :=
  ⟨solid_closeParen, fun _ => rfl, by simp [Token.text]⟩

theorem Token.Plain.openBrace : Plain .openBrace :=
  ⟨solid_openBrace, fun _ => rfl, by simp [Token.text]⟩

theorem Token.Plain.closeBrace : Plain .closeBrace :=
  ⟨solid_closeBrace, fun _ => rfl, by simp [Token.text]⟩

theorem Token.Plain.comma : Plain .comma := ⟨solid_comma, fun _ => rfl, by simp [Token.text]⟩

/-- A match of the expression spans lexemes in `P`, and where such are awaited, it calls only rules
that can stand. -/
structure Truthful (x : Peg Rule) (P : List Lexeme → Prop) : Prop extends Writable P where
  yields : Yields x P
  keeps : ∀ text c, Awaits text P c → grammar.Keeps (Stands text) x c

namespace Truthful

theorem step (hx : Truthful x P) (h : Awaits text (Both P Q) c)
    (hd : grammar.Reaches false x c d) : Awaits text Q (grammar.afterLayout false d) := by
  obtain ⟨ls, hl, hls⟩ := hx.yields c d (means_of_reaches hd) h.settled
  exact h.step hx.unjoins hl hls

theorem mono (h : Truthful x P) (hPQ : ∀ ls rest, Linked (ls ++ rest) → P ls → Q ls)
    (hQ : Unjoins Q) : Truthful x Q where
  unjoins := hQ
  sample := by
    obtain ⟨s, hs⟩ := h.sample
    exact ⟨s, hPQ _ [] (by rw [List.append_nil]; exact linked_lexemes s) hs⟩
  yields := h.yields.mono hPQ
  keeps text c hc := h.keeps text c (hc.mono hPQ)

theorem seq (hx : Truthful x P) (hy : Truthful y Q) : Truthful (.seq x y) (Both P Q) where
  toWritable := hx.toWritable.both hy.toWritable
  yields := hx.yields.seq hy.yields
  keeps text c h := by
    obtain ⟨s, hs⟩ := hy.sample
    exact ⟨hx.keeps text c (h.complete s fun ls _ _ hls => ⟨ls, _, hls, hs, rfl⟩),
      fun d hd => hy.keeps text _ (hx.step h hd)⟩

theorem alt (hx : Truthful x P) (hy : Truthful y P) : Truthful (.alt x y) P where
  toWritable := hx.toWritable
  yields := hx.yields.alt hy.yields
  keeps text c h := ⟨hx.keeps text c h, hy.keeps text c h⟩

theorem opt (hx : Truthful x P) : Truthful (.opt x) (Maybe P) where
  toWritable := hx.toWritable.maybe
  yields := hx.yields.opt
  keeps text c h := hx.keeps text c (h.mono fun _ _ _ hls => .inr hls)

/-- What is awaited at the beginning of a repetition is awaited behind each of its steps. -/
theorem many (hx : Truthful x P) : Truthful (.many x) (IsMany P) where
  toWritable := hx.toWritable.many
  yields := hx.yields.many
  keeps text c h := by
    refine ⟨Awaits text (IsMany P), h, fun d hd => ⟨hx.keeps text d (hd.mono ?_), fun e he =>
      hx.step (hd.mono ?_) he⟩⟩
    · intro ls rest _ hls
      have hone := (IsMany.nil P).cons hls
      rwa [List.append_nil] at hone
    · rintro _ rest _ ⟨ls₁, ls₂, h₁, h₂, rfl⟩
      exact h₂.cons h₁

theorem plain (ht : t.Plain) : Truthful (.text t.text) (· = [⟨t, false⟩]) where
  unjoins := by
    rintro _ rfl
    rfl
  sample := ⟨_, ht.lexemes_eq⟩
  yields := .solid ht.solid ht.joins
  keeps _ _ _ := trivial

theorem plain_seq (ht : t.Plain) (hy : Truthful y Q) :
    Truthful (.seq (.text t.text) y) (t.Then Q) := by
  refine ((plain ht).seq hy).mono ?_ hy.unjoins.token_then
  rintro _ - - ⟨_, ls', rfl, h, rfl⟩
  exact ⟨ls', h, rfl⟩

/-- What stands between brackets. -/
theorem inParens (hx : Truthful x P) :
    Truthful (chain [string "(", x, string ")"]) (InParens P) := by
  refine (plain_seq .openParen (hx.seq (plain .closeParen))).mono ?_ .inParens
  rintro _ - - ⟨_, ⟨ls', _, h, rfl, rfl⟩, rfl⟩
  exact ⟨ls', h, rfl⟩

/-! ### Keywords -/

/-- Behind a keyword that is the whole word, what belongs there is awaited. -/
theorem behind_word (h : Awaits text (WordThen k Q) c) (hk : k ∈ keywords)
    (hw : c.word = k.toList) (hd : grammar.Reaches false (string k) c d) :
    Awaits text Q (grammar.afterLayout false d) := by
  obtain ⟨hc, j, d', hb⟩ := before_of_keyword hk hw
  have hpass : c.pass? k.toList = some d := means_of_reaches hd
  obtain rfl : d' = d := by rw [hb.advance_eq, (Cursor.eq_of_pass? hpass).2]; rfl
  have hboth : Awaits text (Both (IsWord k) Q) c := h.mono <| by
    rintro _ - - ⟨_, ls, ⟨i, _, rfl, rfl⟩, hls, rfl⟩
    exact ⟨i, ls, hls, rfl⟩
  exact hboth.step Unjoins.isWord (.single hc hb) ⟨j, [], rfl, rfl⟩

/-- A keyword ahead, and then the keyword. -/
theorem peek_seq {r : Rule} (hr : r.atomic = true) (hbody : r.body = wholeWord k)
    (hk : k ∈ keywords) (hs : ∀ text c, Awaits text (IsWord k) c → Stands text r c)
    (hy : Truthful y Q) :
    Truthful (.seq (.peek (.rule r)) (.seq (string k) y)) (WordThen k Q) where
  toWritable := Writable.wordThen hk hy.toWritable
  yields := .peek_seq hr hbody hk hy.yields
  keeps text c h := by
    obtain ⟨s, hs'⟩ := hy.sample
    refine ⟨hs text c (h.complete s ?_), ?_⟩
    · rintro _ - - ⟨j, _, rfl, rfl⟩
      exact ⟨j, _, hs', rfl⟩
    · intro d hd
      obtain ⟨hdc, e, he⟩ : d = c ∧ ∃ e, grammar.Reaches false (.rule r) c e :=
        means_of_reaches hd
      rw [hdc, afterLayout_of_settled h.settled]
      exact ⟨trivial, fun e' he' =>
        hy.keeps text _ (behind_word h hk (word_of_reaches hr hbody hk he) he')⟩

/-- A keyword that something goes on with that no name character begins. -/
theorem wordSeq (hk : k ∈ keywords) (hy : Truthful y Q)
    (hn : ∀ c d x rest, grammar.Means Sound y c d → c.rest = x :: rest → isNameChar x = false)
    (hkeeps : ∀ text c x rest, c.rest = x :: rest → isNameChar x = true →
      grammar.Keeps (Stands text) y c) :
    Truthful (.seq (string k) y) (WordThen k Q) where
  toWritable := Writable.wordThen hk hy.toWritable
  yields := .wordSeq hk hy.yields hn
  keeps text c h := by
    refine ⟨trivial, fun d hd => ?_⟩
    have hpass : c.pass? k.toList = some d := means_of_reaches hd
    have hword := word_of_pass? (all_isNameChar_keyword k hk) hpass
    by_cases hnil : d.word = []
    · rw [hnil, List.append_nil] at hword
      exact hy.keeps text _ (behind_word h hk hword hd)
    · -- the keyword is only the beginning of a word
      obtain ⟨x, rest, hx, hch⟩ := exists_of_word_ne_nil hnil
      rw [afterLayout_of_settled (settled_of_isNameChar hx hch)]
      exact hkeeps text d x rest hx hch

/-! ### Equals signs -/

/-- Where an initialiser is awaited and the text goes on with two equals signs, the text that ends
between the two goes on with an expression. -/
theorem stuck_of_equals (h : Awaits text (Both (· = [⟨.assign, false⟩]) (Derives .expr)) c)
    (hrest : c.rest = '=' :: d.rest) (hd : d = c.advance 1) (hhead : d.rest.head? = some '=') :
    Stuck text d := by
  obtain ⟨pre, hpre, hopen, -⟩ := h.goes
  refine ⟨hhead, ⟨c, pre, hpre, hrest, hd⟩, ?_⟩
  rw [lexemes_take_equals hpre hrest hd]
  exact hopen.append rfl

/-- An equals sign that an expression goes on with. -/
theorem equals_seq (hy : Truthful y (Derives .expr))
    (hstuck : ∀ text c, Stuck text c → grammar.Keeps (Stands text) y c) :
    Truthful (.seq (string "=") y) (Token.assign.Then (Derives .expr)) where
  unjoins := hy.unjoins.token_then
  sample := ⟨"= 0".toList, _, derives_zero, by decide +kernel⟩
  yields := .equals_seq hy.yields startsExpr_of_derives
  keeps text c h := by
    refine ⟨trivial, fun d hd => ?_⟩
    obtain ⟨hrest, hadv⟩ := Cursor.eq_of_pass? (s := ['=']) (means_of_reaches hd)
    have hboth : Awaits text (Both (· = [⟨.assign, false⟩]) (Derives .expr)) c := h.mono <| by
      rintro _ - - ⟨_, ls, rfl, hls, rfl⟩
      exact ⟨ls, hls, rfl⟩
    by_cases hhead : d.rest.head? = some '='
    · have hs := stuck_of_equals hboth hrest hadv hhead
      rw [afterLayout_of_settled hs.settled]
      exact hstuck text d hs
    · obtain ⟨d', hb, -⟩ := before_of_cut h.settled hrest (cut_equals hhead)
      obtain rfl : d' = d := by rw [hb.advance_eq, hadv]; rfl
      refine hy.keeps text _ (hboth.step ?_ (.single h.settled hb) rfl)
      rintro _ rfl
      rfl

end Truthful

end IntScript
