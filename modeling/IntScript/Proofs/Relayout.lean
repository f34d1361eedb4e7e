import IntScript.Proofs.Acceptance
import IntScript.Proofs.Rendering

/-!
# Layout does not matter

* `touching` : where a bracket or a number touches what stands before it, as far as that matters;
* `SameTokens` : two texts have the same tokens, which touch at the same places
  (`SameTokens.lexemes_eq`);
* `IsLayout`, `Between` : blanks, line breaks and comments, and the places where they can be put in
  (`lexemes_insert`);
* `SameOutcome` : the same tree, the same bad literal, or a syntax error both times;
* `parse_layout` : texts that differ in their layout only have the same outcome.
-/

namespace IntScript

/-! ## Tokens that touch -/

/-- Whether it matters that the second token touches the first. -/
def Token.minds : Token → Token → Bool
  | .word _, .openParen => true
  | .op .sub, .number _ => true
  | _, _ => false

/-- For each word in front of a bracket and each minus sign in front of a number, whether the two
touch. -/
def touching : List Lexeme → List Bool
  | l :: l' :: ls =>
    if l.token.minds l'.token then l.joined :: touching (l' :: ls) else touching (l' :: ls)
  | _ => []

/-- The texts have the same tokens, which touch at the same places as far as that matters. -/
structure SameTokens (s t : List Char) : Prop where
  tokens : (lexemes s).map Lexeme.token = (lexemes t).map Lexeme.token
  touching : touching (lexemes s) = touching (lexemes t)

/-- Lexemes are joined only where it matters. -/
def Joint : List Lexeme → Prop
  | [] => True
  | [l] => l.joined = false
  | l :: l' :: ls => (l.joined = true → l.token.minds l'.token = true) ∧ Joint (l' :: ls)

theorem lexemes_digit {d : Char} (hd : d.isDigit = true) (rest : List Char) :
    ∃ ds ls, lexemes (d :: rest) = ⟨.number ds, false⟩ :: ls := by
  have hb := isBlank_of_isNameChar (isNameChar_of_isDigit hd)
  have hs : d ≠ '/' := by
    rintro rfl
    exact absurd hd (by decide)
  have hcut : Token.cut d rest =
      (.number (d :: rest.takeWhile Char.isDigit), rest.dropWhile Char.isDigit) := by
    rw [Token.cut, if_neg (by simp [isNameStart_of_isDigit hd]), if_pos hd]
  exact ⟨_, _, lexemes_symbol hb hs hcut⟩

/-- What touches a token is the next token. -/
theorem minds_of_joins {t : Token} {rest : List Char} (h : t.joins rest = true) :
    ∃ l ls, lexemes rest = l :: ls ∧ t.minds l.token = true := by
  unfold Token.joins at h
  split at h
  · next c rest =>
    obtain rfl : c = '(' := by simpa using h
    exact ⟨_, _, lexemes_openParen rest, rfl⟩
  · next c rest =>
    obtain ⟨ds, ls, hls⟩ := lexemes_digit h rest
    exact ⟨_, _, hls, rfl⟩
  · cases h

theorem joint_cons {l : Lexeme} {ls : List Lexeme} (h : Joint ls)
    (hl : l.joined = true → ∃ l' ls', ls = l' :: ls' ∧ l.token.minds l'.token = true) :
    Joint (l :: ls) := by
  cases ls with
  | nil =>
    refine Bool.eq_false_iff.2 fun hj => ?_
    obtain ⟨l', ls', heq, -⟩ := hl hj
    cases heq
  | cons l' ls =>
    refine ⟨fun hj => ?_, h⟩
    obtain ⟨l'', ls', heq, hm⟩ := hl hj
    cases heq
    exact hm

/-- In a text, lexemes are joined only where it matters. -/
theorem joint_lexemes (text : List Char) : Joint (lexemes text) := by
  induction text using lexemes.induct with
  | case1 => simp [Joint]
  | case2 c rest hb ih => rwa [lexemes_blank hb]
  | case3 c rest hb hc ih => rwa [hc.1, lexemes_comment hc.2]
  | case4 c rest hb hc ih =>
    rw [lexemes_token (by simpa using hb) hc]
    exact joint_cons ih minds_of_joins

/-- Lexemes are determined by their tokens and by where these touch. -/
theorem Joint.eq {ls ls' : List Lexeme} (h : Joint ls) (h' : Joint ls')
    (ht : ls.map Lexeme.token = ls'.map Lexeme.token) (hj : touching ls = touching ls') :
    ls = ls' := by
  induction ls generalizing ls' with
  | nil => exact (List.map_eq_nil_iff.1 ht.symm).symm
  | cons l ls ih =>
    obtain ⟨m, ms, rfl⟩ := List.exists_cons_of_ne_nil (l := ls') (by rintro rfl; cases ht)
    obtain ⟨hlm, hrest⟩ := List.cons.inj ht
    cases ls with
    | nil =>
      obtain rfl := List.map_eq_nil_iff.1 hrest.symm
      cases l
      cases m
      simp_all [Joint]
    | cons l₂ ls =>
      obtain ⟨m₂, ms, rfl⟩ := List.exists_cons_of_ne_nil (l := ms) (by rintro rfl; cases hrest)
      have hlm₂ : l₂.token = m₂.token := (List.cons.inj hrest).1
      simp only [touching, ← hlm, ← hlm₂] at hj
      have hl : l.joined = m.joined ∧ touching (l₂ :: ls) = touching (m₂ :: ms) := by
        split at hj
        · exact List.cons.inj hj
        · next hm =>
          -- where touching does not matter, none of the two is joined
          have hl := mt h.1 hm
          have hm := mt h'.1 (by rwa [← hlm, ← hlm₂])
          simp only [Bool.not_eq_true] at hl hm
          exact ⟨hl.trans hm.symm, hj⟩
      rw [ih h.2 h'.2 hrest hl.2]
      cases l
      cases m
      simp_all

/-- Texts with the same tokens have the same lexemes. -/
theorem SameTokens.lexemes_eq {s t : List Char} (h : SameTokens s t) : lexemes s = lexemes t :=
  (joint_lexemes s).eq (joint_lexemes t) h.tokens h.touching

/-! ## Layout that is put in -/

/-- Blanks, line breaks and comments; the last comment is ended by its line break. -/
inductive IsLayout : List Char → Prop where
  | nil : IsLayout []
  | blank {c : Char} {w : List Char} (hc : isBlank c = true) (hw : IsLayout w) : IsLayout (c :: w)
  | comment {xs w : List Char} {c : Char} (hx : ∀ x ∈ xs, isLineBreak x = false)
    (hc : isLineBreak c = true) (hw : IsLayout w) : IsLayout ('/' :: '/' :: xs ++ c :: w)

/-- The place between two parts of a text is one between tokens: cut for themselves, the parts have
the lexemes of the whole. -/
def Between (before after : List Char) : Prop :=
  lexemes (before ++ after) = lexemes before ++ lexemes after

theorem isBlank_of_isLineBreak {c : Char} (h : isLineBreak c = true) : isBlank c = true := by
  simp [isBlank, h]

/-- A line is left at its break. -/
theorem dropWhile_line {xs rest : List Char} {c : Char} (hx : ∀ x ∈ xs, isLineBreak x = false)
    (hc : isLineBreak c = true) :
    (xs ++ c :: rest).dropWhile (fun x => !isLineBreak x) = c :: rest := by
  rw [List.dropWhile_append_of_pos (by simpa using hx), List.dropWhile_cons_of_neg (by simp [hc])]

variable {w before after : List Char}

/-- Layout is dropped in front of any text. -/
theorem IsLayout.lexemes (h : IsLayout w) (rest : List Char) :
    IntScript.lexemes (w ++ rest) = IntScript.lexemes rest := by
  induction h with
  | nil => rfl
  | blank hc _ ih => rw [List.cons_append, lexemes_blank hc, ih]
  | @comment xs w c hx hc _ ih =>
    have hline : ('/' :: xs ++ c :: (w ++ rest)).dropWhile (fun x => !isLineBreak x) =
        c :: (w ++ rest) := dropWhile_line (List.forall_mem_cons.2 ⟨rfl, hx⟩) hc
    have happ : '/' :: '/' :: xs ++ c :: w ++ rest = '/' :: ('/' :: xs ++ c :: (w ++ rest)) := by
      simp
    rw [happ, lexemes_comment rfl, hline, lexemes_blank (isBlank_of_isLineBreak hc), ih]

/-- Layout within a comment is dropped with it, or ends it. -/
theorem IsLayout.lexemes_line (h : IsLayout w) {rest : List Char}
    (hr : IntScript.lexemes (rest.dropWhile fun x => !isLineBreak x) = IntScript.lexemes rest) :
    IntScript.lexemes ((w ++ rest).dropWhile fun x => !isLineBreak x) =
      IntScript.lexemes rest := by
  induction h with
  | nil => exact hr
  | @blank c w hc hw ih =>
    rw [List.cons_append]
    cases hl : isLineBreak c with
    | true => rw [List.dropWhile_cons_of_neg (by simp [hl]), lexemes_blank hc, hw.lexemes]
    | false => rw [List.dropWhile_cons_of_pos (by simp [hl]), ih]
  | @comment xs w c hx hc hw _ =>
    have hslash : ∀ x ∈ '/' :: '/' :: xs, isLineBreak x = false :=
      List.forall_mem_cons.2 ⟨rfl, List.forall_mem_cons.2 ⟨rfl, hx⟩⟩
    rw [List.append_assoc, List.cons_append (a := c), dropWhile_line hslash hc,
      lexemes_blank (isBlank_of_isLineBreak hc), hw.lexemes]

/-- Layout begins with a blank character or a slash. -/
theorem IsLayout.head {c : Char} (h : IsLayout (c :: w)) : isBlank c = true ∨ c = '/' := by
  cases h with
  | blank hc => exact .inl hc
  | comment => exact .inr rfl

/-! ### Tokens in front of layout -/

/-- A character that no token goes on with. -/
def Apart (d : Char) : Prop := isBlank d = true ∨ d = '/'

instance (d : Char) : Decidable (Apart d) := inferInstanceAs (Decidable (_ ∨ _))

theorem Apart.not_isNameChar {d : Char} (h : Apart d) : isNameChar d = false := by
  rcases h with h | rfl
  · rw [Bool.eq_false_iff]
    intro hd
    rw [isBlank_of_isNameChar hd] at h
    cases h
  · rfl

theorem Apart.not_isDigit {d : Char} (h : Apart d) : d.isDigit = false := by
  rw [Bool.eq_false_iff]
  intro hd
  have hn := h.not_isNameChar
  rw [isNameChar_of_isDigit hd] at hn
  cases hn

theorem Apart.pair? {c d : Char} (h : Apart d) : Token.pair? c d = none := by
  unfold Token.pair?
  split
  case h_7 => rfl
  all_goals exact absurd h (by decide)

theorem joins_nil (t : Token) : t.joins [] = false := by
  cases t with
  | op o => cases o <;> rfl
  | _ => rfl

/-- Only the next character can join a token to what follows. -/
theorem joins_cons_append (t : Token) (x : Char) (rest z : List Char) :
    t.joins (x :: rest ++ z) = t.joins (x :: rest) := by
  cases t with
  | op o => cases o <;> rfl
  | _ => rfl

theorem Apart.joins {t : Token} {d : Char} (h : Apart d) (rest : List Char) :
    t.joins (d :: rest) = false := by
  unfold Token.joins
  split
  · next heq =>
    cases heq
    refine decide_eq_false ?_
    rintro rfl
    exact absurd h (by decide)
  · next heq =>
    cases heq
    exact h.not_isDigit
  · rfl

theorem takeWhile_append_apart {p : Char → Bool} {xs z : List Char}
    (h : xs.dropWhile p ≠ [] ∨ ∀ d t, z = d :: t → p d = false) :
    (xs ++ z).takeWhile p = xs.takeWhile p ∧ (xs ++ z).dropWhile p = xs.dropWhile p ++ z := by
  induction xs with
  | nil => exact takeWhile_append_rest (by simp) (h.resolve_left (by simp))
  | cons x xs ih =>
    cases hx : p x with
    | false => simp [hx]
    | true =>
      rw [List.dropWhile_cons_of_pos hx] at h
      simp [hx, ih h]

/-- A token is the same in front of more text, if it does not go on with that. -/
theorem cut_append {c : Char} {rest z : List Char}
    (h : (Token.cut c rest).2 ≠ [] ∨ ∀ d t, z = d :: t → Apart d) :
    Token.cut c (rest ++ z) = ((Token.cut c rest).1, (Token.cut c rest).2 ++ z) := by
  by_cases hn : isNameStart c = true
  · simp only [Token.cut, if_pos hn] at h ⊢
    obtain ⟨ht, hd⟩ := takeWhile_append_apart
      (h.imp_right fun hz d t hdt => (hz d t hdt).not_isNameChar)
    rw [ht, hd]
  · by_cases hg : c.isDigit = true
    · simp only [Token.cut, if_neg hn, if_pos hg] at h ⊢
      obtain ⟨ht, hd⟩ := takeWhile_append_apart
        (h.imp_right fun hz d t hdt => (hz d t hdt).not_isDigit)
      rw [ht, hd]
    · simp only [Token.cut, if_neg hn, if_neg hg] at h ⊢
      cases rest with
      | nil =>
        have hz := h.resolve_left (by simp [Token.cutSymbol])
        cases z with
        | nil => rfl
        | cons d t => simp [Token.cutSymbol, (hz d t rfl).pair?]
      | cons x rest =>
        rw [List.cons_append, Token.cutSymbol, Token.cutSymbol]
        cases Token.pair? c x <;> rfl

/-- The first token in front of more text that it does not go on with. -/
theorem lexemes_token_append {c : Char} {rest z : List Char} (hc : isBlank c = false)
    (hs : ¬(c = '/' ∧ (rest ++ z).head? = some '/'))
    (h : (Token.cut c rest).2 ≠ [] ∨ ∀ d t, z = d :: t → Apart d) :
    lexemes (c :: rest ++ z) =
      ⟨(Token.cut c rest).1, (Token.cut c rest).1.joins (Token.cut c rest).2⟩ ::
        lexemes ((Token.cut c rest).2 ++ z) := by
  rw [List.cons_append, lexemes_token hc hs, cut_append h]
  cases hr : (Token.cut c rest).2 with
  | cons x r => rw [joins_cons_append]
  | nil =>
    cases z with
    | nil => rfl
    | cons d t =>
      have hd : Apart d := h.resolve_left (by simp [hr]) d t rfl
      rw [List.nil_append, hd.joins, joins_nil]

/-- The place between two parts of a text is one between tokens, and layout is put in there: the
lexemes are those of the parts. Only a slash in front of a comment would lengthen it. -/
theorem lexemes_insert (hb : Between before after) (hw : IsLayout w)
    (hs : ¬(['/'] <:+ before ∧ ['/'] <+: w)) :
    lexemes (before ++ w ++ after) = lexemes before ++ lexemes after := by
  rw [List.append_assoc]
  induction before using lexemes.induct with
  | case1 => rw [List.nil_append, hw.lexemes, lexemes_nil, List.nil_append]
  | case2 c rest hc ih =>
    unfold Between at hb
    rw [List.cons_append, lexemes_blank hc, lexemes_blank hc] at *
    exact ih hb fun h => hs ⟨h.1.trans (List.suffix_cons c rest), h.2⟩
  | case3 c rest hc hslash ih =>
    obtain ⟨rfl, hhead⟩ := hslash
    have hcons : ∀ z, lexemes ('/' :: rest ++ z) =
        lexemes ((rest ++ z).dropWhile fun x => !isLineBreak x) := fun z => by
      rw [List.cons_append, lexemes_comment]
      rw [List.head?_append, hhead]
      rfl
    unfold Between at hb
    rw [hcons] at hb ⊢
    rw [lexemes_comment hhead] at hb ⊢
    by_cases hd : rest.dropWhile (fun x => !isLineBreak x) = []
    · -- the comment goes on behind the place
      have hall := List.dropWhile_eq_nil_iff.1 hd
      rw [List.dropWhile_append_of_pos hall] at hb ⊢
      rw [hd, lexemes_nil, List.nil_append] at hb ⊢
      exact hw.lexemes_line hb
    · have happ := fun z => (takeWhile_append_apart (z := z) (.inl hd)).2
      rw [happ] at hb ⊢
      exact ih hb fun h => hs ⟨h.1.trans ((List.dropWhile_suffix _).trans (List.suffix_cons _ _)),
        h.2⟩
  | case4 c rest hc hslash ih =>
    have hcf : isBlank c = false := by simpa using hc
    rw [lexemes_token hcf hslash]
    unfold Between at hb
    by_cases hr : (Token.cut c rest).2 = []
    · cases w with
      | nil => rw [List.nil_append, hb, lexemes_token hcf hslash]
      | cons d w =>
        have hd : Apart d := hw.head
        have hz : ¬(c = '/' ∧ (rest ++ (d :: w ++ after)).head? = some '/') := by
          rintro ⟨rfl, hh⟩
          cases rest with
          | nil =>
            cases hh
            exact hs ⟨List.suffix_rfl, ⟨w, rfl⟩⟩
          | cons x rest => exact hslash ⟨rfl, hh⟩
        rw [lexemes_token_append hcf hz (.inr fun d' t h => by cases h; exact hd), hr, lexemes_nil,
          List.nil_append, hw.lexemes]
        rfl
    · have hz : ∀ z, ¬(c = '/' ∧ (rest ++ z).head? = some '/') := by
        rintro z ⟨rfl, hh⟩
        cases rest with
        | nil => exact hr rfl
        | cons x rest => exact hslash ⟨rfl, hh⟩
      rw [lexemes_token_append hcf (hz _) (.inl hr), lexemes_token hcf hslash] at hb
      rw [lexemes_token_append hcf (hz _) (.inl hr), List.cons_append]
      have hsuffix : (Token.cut c rest).2 <:+ c :: rest := ⟨_, Token.text_cut c rest⟩
      rw [ih (List.cons.inj hb).2 fun h => hs ⟨h.1.trans hsuffix, h.2⟩]

/-! ## Outcomes -/

/-- The same tree, the same literal that does not fit, or a syntax error both times. -/
inductive SameOutcome : Except ParseError Block → Except ParseError Block → Prop where
  | tree (b : Block) : SameOutcome (.ok b) (.ok b)
  | literal (text : List Char) :
    SameOutcome (.error (.invalidLiteral text)) (.error (.invalidLiteral text))
  | syntaxError (e e' : SyntaxError) :
    SameOutcome (.error (.badSyntax e)) (.error (.badSyntax e'))

/-- Texts with the same lexemes have the same outcome. -/
theorem sameOutcome_of_lexemes {s t : List Char} (h : lexemes s = lexemes t) :
    SameOutcome (parseText s) (parseText t) := by
  have reads_both : ∀ vs, Reads .block (lexemes s) vs →
      SameOutcome (parseText s) (parseText t) := fun vs hvs => by
    rw [parseText_of_reads hvs, parseText_of_reads (h ▸ hvs)]
    cases vs with
    | ok b => exact .tree b
    | error e =>
      obtain ⟨ds, rfl⟩ := hvs.fits e rfl
      exact .literal ds
  rcases badSyntax_or_reads s with ⟨e, hs⟩ | ⟨vs, hvs, -⟩
  · rcases badSyntax_or_reads t with ⟨e', ht⟩ | ⟨vs, hvs, -⟩
    · rw [hs, ht]
      exact .syntaxError e e'
    · exact reads_both vs (h ▸ hvs)
  · exact reads_both vs hvs

/-- **Layout**: texts with the same tokens, which touch at the same places as far as that matters,
have the same outcome. In particular, it stays the same when layout is put in between tokens, or
taken out. -/
theorem parse_layout :
    (∀ s t : String, SameTokens s.toList t.toList → SameOutcome (parse s) (parse t)) ∧
      ∀ before w after : String, Between before.toList after.toList → IsLayout w.toList →
        ¬(['/'] <:+ before.toList ∧ ['/'] <+: w.toList) →
        SameOutcome (parse (before ++ w ++ after)) (parse (before ++ after)) := by
  constructor
  · exact fun s t h => sameOutcome_of_lexemes h.lexemes_eq
  · intro before w after hb hw hs
    refine sameOutcome_of_lexemes ?_
    rw [String.toList_append, String.toList_append, String.toList_append, lexemes_insert hb hw hs]
    exact hb.symm

/-- Other line breaks and comments, and a comment behind a slash that a blank keeps off. -/
theorem parse_layout_commented :
    let s := "f(x) // once\ny -1"
    let t := "f( //\r\n x)\ty\n\n-1//"
    let w := " // half\r\n"
    (SameTokens s.toList t.toList ∧ SameOutcome (parse s) (parse t)) ∧
      Between "x = a /".toList "2".toList ∧ IsLayout w.toList ∧
      SameOutcome (parse ("x = a /" ++ w ++ "2")) (parse ("x = a /" ++ "2")) := by
  intro s t w
  have hst : SameTokens s.toList t.toList := ⟨by decide +kernel, by decide +kernel⟩
  have hb : Between "x = a /".toList "2".toList := by
    unfold Between
    decide +kernel
  have hw : IsLayout w.toList := by
    have htext : w.toList =
        ' ' :: ('/' :: '/' :: [' ', 'h', 'a', 'l', 'f'] ++ '\r' :: ['\n']) := by decide +kernel
    rw [htext]
    exact .blank rfl (.comment (by simp [isLineBreak]) rfl (.blank rfl .nil))
  exact ⟨⟨hst, parse_layout.1 s t hst⟩, hb, hw, parse_layout.2 _ w _ hb hw (by decide)⟩

end IntScript
