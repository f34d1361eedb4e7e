import IntScript.Proofs.Grammar.Symbols

/-!
# Words and literals in a text

* `Cursor.word` : the name characters at a place;
* `parses_wholeWord`, `parses_keyword` : keywords are found where they are the whole word;
* `parses_identifier`, `parses_identifier_none`, `reaches_identifier` : names are the other words;
* `parses_callee`, `parses_literal`, ... : names joined to a bracket, and literals;
* `parses_wordSeq_none` : a keyword, and something else behind it, are not found inside a longer
  word.
-/

namespace IntScript

open Peg

variable {a : Bool} {c d : Cursor} {l : Lexeme} {ls : List Lexeme} {s : String} {j : Bool}

/-- The name characters at a place. -/
def Cursor.word (c : Cursor) : List Char := c.rest.takeWhile isNameChar

/-! ## Words -/

/-- Only a name character begins a word, and the word goes on as far as there are such. -/
theorem word_of_before (h : c.Before ⟨.word s, j⟩ d) (hc : c.Settled) :
    c.word = s.toList ∧ ∃ x rest, c.rest = x :: rest ∧ isNameStart x = true := by
  obtain ⟨x, rest, after, hx, hcut, -⟩ := cut_of_lexemes hc h.lexemes_eq
  rw [Token.cut] at hcut
  split at hcut
  · next hs =>
    simp only [Prod.mk.injEq, Token.word.injEq] at hcut
    refine ⟨?_, x, rest, hx, hs⟩
    rw [Cursor.word, hx, List.takeWhile_cons_of_pos (isNameChar_of_isNameStart hs), ← hcut.1,
      String.toList_ofList]
  · split at hcut
    · simp at hcut
    · have := Token.isSymbol_cutSymbol x rest
      rw [hcut] at this
      cases this

/-- A name start is the beginning of a word. -/
theorem before_of_isNameStart {x : Char} {rest : List Char} (hc : c.Settled)
    (hx : c.rest = x :: rest) (hs : isNameStart x = true) :
    ∃ j d, c.Before ⟨.word (String.ofList c.word), j⟩ d := by
  have hcut : Token.cut x rest = (.word (String.ofList c.word), rest.dropWhile isNameChar) := by
    rw [Token.cut, if_pos hs, Cursor.word, hx,
      List.takeWhile_cons_of_pos (isNameChar_of_isNameStart hs)]
  obtain ⟨d, hb, -⟩ := before_of_cut hc hx hcut
  exact ⟨_, d, hb⟩

theorem isBlank_of_isNameChar {x : Char} (h : isNameChar x = true) : isBlank x = false := by
  rw [Bool.eq_false_iff]
  intro hb
  simp only [isBlank, isLineBreak, Bool.or_eq_true, decide_eq_true_eq] at hb
  rcases hb with (rfl | rfl) | rfl | rfl <;> exact absurd h (by decide)

/-- No layout begins with a name character. -/
theorem settled_of_isNameChar {x : Char} {rest : List Char} (hx : c.rest = x :: rest)
    (h : isNameChar x = true) : c.Settled := by
  have hs : ¬(x = '/' ∧ rest.head? = some '/') := by
    rintro ⟨rfl, -⟩
    exact absurd h (by decide)
  rw [Cursor.Settled, hx, Layout.length, Layout.lengthFrom_cons, if_neg (by decide),
    isBlank_of_isNameChar h, if_neg (by decide), if_neg hs]

/-! ## Characters -/

theorem parses_char_of_cons {p : Char → Bool} {x : Char} {rest : List Char}
    (hx : c.rest = x :: rest) (hp : p x = true) :
    grammar.Parses a (.char p) c (some (c.advance 1, [])) :=
  .char (by simp [Cursor.passIf?, hx, hp])

theorem parses_char_none {p : Char → Bool} (h : ∀ x rest, c.rest = x :: rest → p x = false) :
    grammar.Parses a (.char p) c none := by
  refine .char ?_
  rw [Cursor.passIf?]
  split
  · rfl
  · next x rest hx => simp [h x rest hx]

/-- Inside an atomic rule, a repetition of characters takes all that there are. -/
theorem parses_many_char (p : Char → Bool) (c : Cursor) :
    grammar.Parses true (.many (.char p)) c
      (some (c.advance (c.rest.takeWhile p).length, [])) := by
  generalize hn : c.rest.length = n
  induction n generalizing c with
  | zero =>
    rw [List.length_eq_zero_iff] at hn
    rw [hn]
    exact .manyNil (parses_char_none (by simp [hn]))
  | succ n ih =>
    rcases hx : c.rest with _ | ⟨x, rest⟩
    · simp [hx] at hn
    · cases hp : p x with
      | true =>
        have hd : (c.advance 1).rest = rest := by rw [Cursor.rest_advance, hx]; rfl
        have hm := ih (c.advance 1) (by rw [hd]; simpa [hx] using hn)
        obtain ⟨e, he, h⟩ := Grammar.many_cons (parses_char_of_cons hx hp) hm
        rw [Cursor.advance_advance, hd] at he
        rw [List.takeWhile_cons_of_pos hp, List.length_cons, Nat.add_comm]
        rcases he with rfl | ⟨rfl, he⟩
        · exact h
        · rw [Grammar.afterLayout_true] at he
          rw [he]
          exact h
      | false =>
        rw [List.takeWhile_cons_of_neg (by simp [hp])]
        refine .manyNil (parses_char_none ?_)
        intro y t hy
        rw [hx, List.cons.injEq] at hy
        rw [← hy.1, hp]

/-! ## Keywords -/

/-- A word begins with a name character. -/
theorem exists_of_word_ne_nil (h : c.word ≠ []) :
    ∃ x rest, c.rest = x :: rest ∧ isNameChar x = true := by
  rcases hr : c.rest with _ | ⟨x, rest⟩
  · exact absurd (by rw [Cursor.word, hr]; rfl) h
  · refine ⟨x, rest, rfl, ?_⟩
    by_contra hx
    exact h (by simp [Cursor.word, hr, hx])

/-- A text of name characters that the text goes on with is the whole word, or the word goes on. -/
theorem word_of_pass? {k : List Char} (hk : k.all isNameChar = true) (h : c.pass? k = some d) :
    c.word = k ++ d.word := by
  rw [Cursor.word, (Cursor.eq_of_pass? h).1, List.takeWhile_append_of_pos]
  · rfl
  · simpa using hk

theorem pass?_word (c : Cursor) : c.pass? c.word = some (c.advance c.word.length) :=
  Cursor.pass?_of_eq (List.takeWhile_append_dropWhile (p := isNameChar) (l := c.rest)).symm

/-- That no name character follows. -/
theorem parses_deny_nameChar (c : Cursor) :
    grammar.Parses a (.deny (.char isNameChar)) c (if c.word = [] then some (c, []) else none) := by
  rcases hx : c.rest with _ | ⟨x, rest⟩
  · rw [Cursor.word, hx]
    exact .deny (parses_char_none (by simp [hx])) rfl
  · cases hp : isNameChar x with
    | true =>
      rw [Cursor.word, hx, List.takeWhile_cons_of_pos hp]
      exact .deny (parses_char_of_cons hx hp) rfl
    | false =>
      rw [Cursor.word, hx, List.takeWhile_cons_of_neg (by simp [hp])]
      refine .deny (p := none) (parses_char_none ?_) rfl
      intro y t hy
      rw [hx, List.cons.injEq] at hy
      rw [← hy.1, hp]

/-- A keyword is found where it is the whole word. -/
theorem parses_wholeWord {k : String} (hk : k.toList.all isNameChar = true) (c : Cursor) :
    grammar.Parses true (wholeWord k) c
      (if c.word = k.toList then some (c.advance c.word.length, []) else none) := by
  cases hp : c.pass? k.toList with
  | none =>
    rw [if_neg]
    · exact .seqFail (.text (by rw [hp]; rfl))
    · intro h
      rw [← h, pass?_word] at hp
      cases hp
  | some d =>
    have hw := word_of_pass? hk hp
    refine .seq (.text (by rw [hp]; rfl)) (parses_deny_nameChar _) ?_
    rw [Grammar.afterLayout_true, hw]
    by_cases hd : d.word = []
    · rw [if_pos hd, if_pos (by simp [hd]), hd, List.append_nil,
        (Cursor.eq_of_pass? hp).2]
      rfl
    · rw [if_neg hd, if_neg (by simpa using hd)]
      rfl

theorem all_isNameChar_keyword : ∀ k ∈ keywords, k.toList.all isNameChar = true := by decide

theorem keyword_prefix_keyword :
    ∀ k ∈ keywords, ∀ k' ∈ keywords, k.toList <+: k'.toList → k = k' := by
  decide

/-- A keyword of the language is found where it is the whole word. -/
theorem parses_keyword (c : Cursor) :
    ∃ o, grammar.Parses true (.rule .keyword) c o ∧
      (o.isSome = true ↔ String.ofList c.word ∈ keywords) := by
  have hch : grammar.Parses true (choice (keywords.map string)) c
      (((keywords.map String.toList).find? (·.isPrefixOf c.rest)).map
        fun s => (c.advance s.length, [])) := parses_choice_text (keywords.map String.toList)
  cases hf : (keywords.map String.toList).find? (·.isPrefixOf c.rest) with
  | none =>
    have hno : String.ofList c.word ∉ keywords := by
      intro hm
      have := List.find?_eq_none.1 hf c.word
        (List.mem_map.2 ⟨_, hm, String.toList_ofList⟩)
      exact this (List.isPrefixOf_iff_prefix.2 (List.takeWhile_prefix _))
    rw [hf] at hch
    exact ⟨_, .rule (.seqFail hch) rfl, by simpa [Grammar.wrap] using hno⟩
  | some k =>
    obtain ⟨k, hk, rfl⟩ := List.mem_map.1 (List.mem_of_find?_eq_some hf)
    have hpre : k.toList.isPrefixOf c.rest = true := by simpa using List.find?_some hf
    have hall := all_isNameChar_keyword k hk
    have hpass : c.pass? k.toList = some (c.advance k.toList.length) := by
      rw [Cursor.pass?, if_pos hpre]
    have hw := word_of_pass? hall hpass
    have hden := parses_deny_nameChar (a := true) (c.advance k.toList.length)
    rw [hf] at hch
    by_cases hd : (c.advance k.toList.length).word = []
    · have hmem : String.ofList c.word ∈ keywords := by
        rw [hw, hd, List.append_nil, String.ofList_toList]
        exact hk
      rw [if_pos hd] at hden
      exact ⟨_, .rule (.seq hch hden rfl) rfl, by simpa [Grammar.wrap] using hmem⟩
    · have hno : String.ofList c.word ∉ keywords := by
        intro hm
        have hpre' : k.toList <+: (String.ofList c.word).toList :=
          ⟨_, by rw [String.toList_ofList]; exact hw.symm⟩
        -- no keyword is the beginning of another
        have hkw := keyword_prefix_keyword k hk _ hm hpre'
        have : c.word = k.toList := by rw [hkw, String.toList_ofList]
        exact hd (List.append_right_eq_self.1 (hw.symm.trans this))
      rw [if_neg hd] at hden
      exact ⟨_, .rule (.seq hch hden rfl) rfl, by simpa [Grammar.wrap] using hno⟩

/-! ## Names -/

/-- An atomic rule finds what its body does where layout does not count. -/
theorem parses_atomic {r : Rule} {o p : Found Rule} (hr : r.atomic = true)
    (h : grammar.Parses true r.body c p) (ho : o = grammar.wrap r c p) :
    grammar.Parses a (.rule r) c o := by
  refine .rule ?_ ho
  change grammar.Parses (a || r.atomic) r.body c p
  rw [hr, Bool.or_true]
  exact h

/-- A word that is no keyword is found as a name. -/
theorem parses_identifier (hc : c.Settled) (h : c.Before ⟨.word s, j⟩ d) (hs : s ∉ keywords) :
    grammar.Parses a (.rule .identifier) c (some (d, [.mk .identifier c d []])) := by
  obtain ⟨hw, x, rest, hx, hstart⟩ := word_of_before h hc
  obtain ⟨o, ho, hkw⟩ := parses_keyword c
  rw [hw, String.ofList_toList] at hkw
  obtain rfl : o = none := Option.not_isSome_iff_eq_none.1 (mt hkw.1 hs)
  have hd : (c.advance 1).advance ((c.advance 1).rest.takeWhile isNameChar).length = d := by
    rw [h.advance_eq, Cursor.advance_advance]
    change _ = c.advance s.toList.length
    rw [← hw, Cursor.word, Cursor.rest_advance, hx,
      List.takeWhile_cons_of_pos (isNameChar_of_isNameStart hstart), List.length_cons, Nat.add_comm]
    rfl
  have hmany := parses_many_char isNameChar (c.advance 1)
  rw [hd] at hmany
  exact parses_atomic rfl
    (.seq (.deny ho rfl) (.seq (parses_char_of_cons hx hstart) hmany rfl) rfl) rfl

/-- Nothing else is found as a name. -/
theorem parses_identifier_none (hc : c.Settled)
    (h : ∀ s j ls, lexemes c.rest = ⟨.word s, j⟩ :: ls → s ∈ keywords) :
    grammar.Parses a (.rule .identifier) c none := by
  obtain ⟨o, ho, hkw⟩ := parses_keyword c
  by_cases hx : ∃ x rest, c.rest = x :: rest ∧ isNameStart x = true
  · obtain ⟨x, rest, hx, hstart⟩ := hx
    obtain ⟨j, d, hb⟩ := before_of_isNameStart hc hx hstart
    have hsome := hkw.2 (h _ _ _ hb.lexemes_eq)
    exact parses_atomic rfl (.seqFail (.deny ho (by rw [if_pos hsome]))) rfl
  · have hchar : grammar.Parses true (.char isNameStart) c none :=
      parses_char_none fun x rest hr => by
        simpa using fun hstart => hx ⟨x, rest, hr, hstart⟩
    cases o with
    | none => exact parses_atomic rfl (.seq (.deny ho rfl) (.seqFail hchar) rfl) rfl
    | some p => exact parses_atomic rfl (.seqFail (.deny ho rfl)) rfl

theorem reaches_identifier (hc : c.Settled) (h : grammar.Reaches a (.rule .identifier) c d) :
    ∃ s j, s ∉ keywords ∧ c.Before ⟨.word s, j⟩ d := by
  obtain ⟨ns, h⟩ := h
  by_cases hw : ∃ s j ls, lexemes c.rest = ⟨.word s, j⟩ :: ls ∧ s ∉ keywords
  · obtain ⟨s, j, ls, hls, hs⟩ := hw
    obtain ⟨d', hb, -⟩ := before_of_lexemes hc hls
    cases h.unique (parses_identifier hc hb hs)
    exact ⟨s, j, hs, hb⟩
  · have hnone := parses_identifier_none (a := a) hc fun s j ls hls => by
      by_contra hs
      exact hw ⟨s, j, ls, hls, hs⟩
    cases h.unique hnone

/-! ## Names joined to a bracket -/

theorem parses_callee (hc : c.Settled) (h : c.Before ⟨.word s, true⟩ d) (hs : s ∉ keywords) :
    ∃ p, grammar.Parses a (.rule .callee) c (some p) := by
  have hj := h.joined_eq
  rcases hd : d.rest with _ | ⟨x, rest⟩
  · simp [hd, Token.joins] at hj
  · obtain rfl : x = '(' := by simpa [hd, Token.joins] using hj
    have hb : grammar.Parses true (string "(") d (some (d.advance 1, [])) :=
      .text (by rw [Cursor.pass?_of_eq (s := "(".toList) hd]; rfl)
    exact ⟨_, parses_atomic rfl (.seq (parses_identifier hc h hs) hb rfl) rfl⟩

theorem parses_callee_none (hc : c.Settled)
    (h : ∀ s ls, lexemes c.rest = ⟨.word s, true⟩ :: ls → s ∈ keywords) :
    grammar.Parses a (.rule .callee) c none := by
  by_cases hw : ∃ s j ls, lexemes c.rest = ⟨.word s, j⟩ :: ls ∧ s ∉ keywords
  · obtain ⟨s, j, ls, hls, hs⟩ := hw
    obtain ⟨d, hb, -⟩ := before_of_lexemes hc hls
    have hj : j = false := by
      by_contra hj
      exact hs (h s ls (by simpa [hj] using hls))
    refine parses_atomic (p := none) rfl
      (.seq (parses_identifier hc hb hs) (.text (o := none) ?_) rfl) rfl
    rw [Grammar.afterLayout_true]
    cases hp : d.pass? "(".toList with
    | none => rfl
    | some e =>
      have := hb.joined_eq
      rw [(Cursor.eq_of_pass? hp).1, hj] at this
      simp [Token.joins] at this
  · refine parses_atomic rfl (.seqFail (parses_identifier_none hc fun s j ls hls => ?_)) rfl
    by_contra hs
    exact hw ⟨s, j, ls, hls, hs⟩

theorem reaches_callee (hc : c.Settled) (h : grammar.Reaches a (.rule .callee) c d) :
    ∃ s ls, s ∉ keywords ∧ lexemes c.rest = ⟨.word s, true⟩ :: ls := by
  by_contra hno
  obtain ⟨ns, h⟩ := h
  cases h.unique (parses_callee_none hc fun s ls hls => by
    by_contra hs
    exact hno ⟨s, ls, hs, hls⟩)

/-! ## Literals -/

/-- A number begins with a digit and goes on as far as there are digits. -/
theorem number_of_before {ds : List Char} (h : c.Before ⟨.number ds, j⟩ d) (hc : c.Settled) :
    c.rest.takeWhile Char.isDigit = ds ∧ ∃ x rest, c.rest = x :: rest ∧ x.isDigit = true := by
  obtain ⟨x, rest, after, hx, hcut, -⟩ := cut_of_lexemes hc h.lexemes_eq
  rw [Token.cut] at hcut
  split at hcut
  · simp at hcut
  · split at hcut
    · next hd =>
      simp only [Prod.mk.injEq, Token.number.injEq] at hcut
      refine ⟨?_, x, rest, hx, hd⟩
      rw [hx, List.takeWhile_cons_of_pos hd, hcut.1]
    · have := Token.isSymbol_cutSymbol x rest
      rw [hcut] at this
      cases this

theorem isNameStart_of_isDigit {x : Char} (h : x.isDigit = true) : isNameStart x = false := by
  have hx : x.toNat ≤ 57 := by
    simp only [Char.isDigit, Bool.and_eq_true, decide_eq_true_eq] at h
    exact h.2
  rw [Bool.eq_false_iff]
  intro hs
  delta isNameStart Char.isAlpha Char.isUpper Char.isLower at hs
  simp only [Bool.or_eq_true, Bool.and_eq_true, decide_eq_true_eq] at hs
  rcases hs with (⟨hs, -⟩ | ⟨hs, -⟩) | rfl
  · have : 65 ≤ x.toNat := hs
    omega
  · have : 97 ≤ x.toNat := hs
    omega
  · exact absurd hx (by decide)

theorem isNameChar_of_isDigit {x : Char} (h : x.isDigit = true) : isNameChar x = true := by
  simp [isNameChar, Char.isAlphanum, h]

/-- A digit is the beginning of a number. -/
theorem before_of_isDigit {x : Char} {rest : List Char} (hx : c.rest = x :: rest)
    (hd : x.isDigit = true) :
    c.Settled ∧ ∃ j d, c.Before ⟨.number (c.rest.takeWhile Char.isDigit), j⟩ d := by
  have hc := settled_of_isNameChar hx (isNameChar_of_isDigit hd)
  have hcut : Token.cut x rest =
      (.number (c.rest.takeWhile Char.isDigit), rest.dropWhile Char.isDigit) := by
    rw [Token.cut, if_neg (by simp [isNameStart_of_isDigit hd]), if_pos hd, hx,
      List.takeWhile_cons_of_pos hd]
  obtain ⟨d, hb, -⟩ := before_of_cut hc hx hcut
  exact ⟨hc, _, d, hb⟩

/-- A run of digits is found as a whole. -/
theorem parses_digits {ds : List Char} (hc : c.Settled) (h : c.Before ⟨.number ds, j⟩ d) :
    grammar.Parses true (.seq (.char Char.isDigit) (.many (.char Char.isDigit))) c
      (some (d, [])) := by
  obtain ⟨hw, x, rest, hx, hdig⟩ := number_of_before h hc
  have hd : (c.advance 1).advance ((c.advance 1).rest.takeWhile Char.isDigit).length = d := by
    rw [h.advance_eq, Cursor.advance_advance]
    change _ = c.advance ds.length
    rw [← hw, Cursor.rest_advance, hx, List.takeWhile_cons_of_pos hdig, List.length_cons,
      Nat.add_comm]
    rfl
  have hmany := parses_many_char Char.isDigit (c.advance 1)
  rw [hd] at hmany
  exact .seq (parses_char_of_cons hx hdig) hmany rfl

/-- A number is found as a literal. -/
theorem parses_number {ds : List Char} (hc : c.Settled) (h : c.Before ⟨.number ds, j⟩ d) :
    grammar.Parses a (.rule .literal) c (some (d, [.mk .literal c d []])) := by
  have hsign : grammar.Parses true (string "-") c none := by
    refine .text ?_
    obtain ⟨-, x, rest, hx, hdig⟩ := number_of_before h hc
    cases hp : c.pass? "-".toList with
    | none => rfl
    | some e =>
      have := (Cursor.eq_of_pass? hp).1
      rw [hx] at this
      obtain rfl : x = '-' := (List.cons.inj this).1
      exact absurd hdig (by decide)
  exact parses_atomic rfl (.seq (.opt hsign rfl) (parses_digits hc h) rfl) rfl

/-- Behind a joined minus sign stands a number. -/
theorem before_of_joined (h : c.Before ⟨.op .sub, true⟩ d) :
    d.Settled ∧ ∃ j e, d.Before ⟨.number (d.rest.takeWhile Char.isDigit), j⟩ e := by
  have hj := h.joined_eq
  rcases hd : d.rest with _ | ⟨x, rest⟩
  · simp [hd, Token.joins] at hj
  · rw [← hd]
    exact before_of_isDigit hd (by simpa [hd, Token.joins] using hj)

/-- A minus sign that a number is joined to is found with it as a literal. -/
theorem parses_negative {e : Cursor} {ds : List Char} (h : c.Before ⟨.op .sub, true⟩ d)
    (hd : d.Before ⟨.number ds, j⟩ e) :
    grammar.Parses a (.rule .literal) c (some (e, [.mk .literal c e []])) ∧
      c.upTo e = '-' :: ds := by
  have hsign : grammar.Parses true (string "-") c (some (d, [])) := parses_token h
  refine ⟨parses_atomic rfl (.seq (.opt hsign rfl) (parses_digits (before_of_joined h).1 hd) rfl)
    rfl, ?_⟩
  have hrest : c.rest = ('-' :: ds) ++ e.rest := by
    rw [h.rest_eq, hd.rest_eq]
    rfl
  have he : e = c.advance ('-' :: ds).length := by
    rw [hd.advance_eq, h.advance_eq, Cursor.advance_advance, List.length_cons, Nat.add_comm]
    rfl
  rw [he, Cursor.upTo_advance, hrest, List.take_left']
  rfl

/-- Nothing else is found as a literal. -/
theorem parses_literal_none (hc : c.Settled)
    (hn : ∀ ds j ls, lexemes c.rest ≠ ⟨.number ds, j⟩ :: ls)
    (hs : ∀ ls, lexemes c.rest ≠ ⟨.op .sub, true⟩ :: ls) :
    grammar.Parses a (.rule .literal) c none := by
  have hdigit : ∀ {e : Cursor}, (∀ x rest, e.rest = x :: rest → x.isDigit = false) →
      grammar.Parses true (.seq (.char Char.isDigit) (.many (.char Char.isDigit))) e none :=
    fun h => .seqFail (parses_char_none h)
  cases hp : c.pass? "-".toList with
  | none =>
    have hsign : grammar.Parses true (string "-") c none := .text (by rw [hp]; rfl)
    refine parses_atomic rfl (.seq (.opt hsign rfl) (hdigit fun x rest hx => ?_) rfl) rfl
    rw [Bool.eq_false_iff]
    intro hd
    obtain ⟨-, j, e, hb⟩ := before_of_isDigit hx hd
    exact hn _ _ _ hb.lexemes_eq
  | some d =>
    have hsign : grammar.Parses true (string "-") c (some (d, [])) := .text (by rw [hp]; rfl)
    refine parses_atomic rfl (.seq (.opt hsign rfl) (hdigit fun x rest hx => ?_) rfl) rfl
    rw [Bool.eq_false_iff]
    intro hd
    change d.rest = x :: rest at hx
    have hcut : Token.cut '-' d.rest = (.op .sub, d.rest) := by cases d.rest <;> rfl
    obtain ⟨d', hb, -⟩ := before_of_cut hc (Cursor.eq_of_pass? hp).1 hcut
    rw [hx, Token.joins, hd] at hb
    exact hs _ hb.lexemes_eq

theorem reaches_literal (hc : c.Settled) (h : grammar.Reaches a (.rule .literal) c d) :
    (∃ ds j, c.Before ⟨.number ds, j⟩ d) ∨
      ∃ e ds j, c.Before ⟨.op .sub, true⟩ e ∧ e.Before ⟨.number ds, j⟩ d := by
  obtain ⟨ns, h⟩ := h
  by_cases hn : ∃ ds j ls, lexemes c.rest = ⟨.number ds, j⟩ :: ls
  · obtain ⟨ds, j, ls, hls⟩ := hn
    obtain ⟨d', hb, -⟩ := before_of_lexemes hc hls
    cases h.unique (parses_number hc hb)
    exact .inl ⟨ds, j, hb⟩
  · by_cases hs : ∃ ls, lexemes c.rest = ⟨.op .sub, true⟩ :: ls
    · obtain ⟨ls, hls⟩ := hs
      obtain ⟨e, hb, -⟩ := before_of_lexemes hc hls
      obtain ⟨-, j, d', hd⟩ := before_of_joined hb
      cases h.unique (parses_negative hb hd).1
      exact .inr ⟨e, _, j, hb, hd⟩
    · have hnone := parses_literal_none (a := a) hc (fun ds j ls hls => hn ⟨ds, j, ls, hls⟩)
        fun ls hls => hs ⟨ls, hls⟩
      cases h.unique hnone

/-! ## Keywords in front of something else -/

theorem isWord_keyword : ∀ k ∈ keywords, isWord k.toList = true := by decide

/-- A keyword that is the whole word is the first lexeme. -/
theorem before_of_keyword {k : String} (hk : k ∈ keywords) (hw : c.word = k.toList) :
    c.Settled ∧ ∃ j d, c.Before ⟨.word k, j⟩ d := by
  have hword := isWord_keyword k hk
  rw [← hw, Cursor.word] at hword
  rcases hr : c.rest with _ | ⟨x, rest⟩
  · rw [hr] at hword
    cases hword
  · cases hx : isNameChar x with
    | false =>
      rw [hr, List.takeWhile_cons_of_neg (by simp [hx])] at hword
      cases hword
    | true =>
      have hc := settled_of_isNameChar hr hx
      rw [hr, List.takeWhile_cons_of_pos hx, isWord, Bool.and_eq_true] at hword
      have hb := before_of_isNameStart hc hr hword.1
      rw [hw, String.ofList_toList] at hb
      exact ⟨hc, hb⟩

/-- A keyword is found ahead where it is the first lexeme. -/
theorem parses_peek {k : String} {r : Rule} (hr : r.atomic = true) (hbody : r.body = wholeWord k)
    (hk : k ∈ keywords) (hc : c.Settled) (h : c.Before ⟨.word k, j⟩ d) :
    grammar.Parses a (.peek (.rule r)) c (some (c, [])) := by
  have hw := parses_wholeWord (all_isNameChar_keyword k hk) c
  rw [if_pos (word_of_before h hc).1, ← hbody] at hw
  exact .peek (parses_atomic hr hw rfl) rfl

theorem parses_peek_none {k : String} {r : Rule} (hr : r.atomic = true)
    (hbody : r.body = wholeWord k) (hk : k ∈ keywords)
    (h : ∀ j ls, lexemes c.rest ≠ ⟨.word k, j⟩ :: ls) :
    grammar.Parses a (.peek (.rule r)) c none := by
  have hw := parses_wholeWord (all_isNameChar_keyword k hk) c
  rw [if_neg, ← hbody] at hw
  · exact .peek (parses_atomic hr hw rfl) rfl
  · intro hword
    obtain ⟨-, j, d, hb⟩ := before_of_keyword hk hword
    exact h _ _ hb.lexemes_eq

theorem word_of_reaches {k : String} {r : Rule} (hr : r.atomic = true)
    (hbody : r.body = wholeWord k) (hk : k ∈ keywords) (h : grammar.Reaches a (.rule r) c d) :
    c.word = k.toList := by
  obtain ⟨ns, h⟩ := h
  have hw := parses_wholeWord (all_isNameChar_keyword k hk) c
  by_contra hne
  rw [if_neg hne, ← hbody] at hw
  cases h.unique (parses_atomic hr hw rfl)

/-- A keyword and what no name character begins are not found inside a longer word. -/
theorem parses_wordSeq_none {k : String} {y : Peg Rule} (hk : k ∈ keywords)
    (hy : ∀ d x rest, d.rest = x :: rest → isNameChar x = true → grammar.Parses a y d none)
    (h : ∀ j ls, lexemes c.rest ≠ ⟨.word k, j⟩ :: ls) :
    grammar.Parses a (.seq (string k) y) c none := by
  cases hp : c.pass? k.toList with
  | none => exact .seqFail (.text (by rw [hp]; rfl))
  | some d =>
    have hw := word_of_pass? (all_isNameChar_keyword k hk) hp
    have hd : d.word ≠ [] := by
      intro hd
      rw [hd, List.append_nil] at hw
      obtain ⟨-, j, d', hb⟩ := before_of_keyword hk hw
      exact h _ _ hb.lexemes_eq
    rcases hr : d.rest with _ | ⟨x, rest⟩
    · simp [Cursor.word, hr] at hd
    · cases hx : isNameChar x with
      | false => simp [Cursor.word, hr, hx] at hd
      | true =>
        refine .seq (d := d) (p := none) (.text (by rw [hp]; rfl)) ?_ rfl
        have hsame : grammar.afterLayout a d = d := by
          cases a with
          | true => rfl
          | false => exact afterLayout_of_settled (settled_of_isNameChar hr hx)
        rw [hsame]
        exact hy d x rest hr hx

/-- A text that no name character begins is not found at one. -/
theorem parses_text_none {s : List Char} {x y : Char} {rest t : List Char} (hs : s = y :: t)
    (hx : c.rest = x :: rest) (h : x ≠ y) : grammar.Parses a (.text s) c none := by
  refine .text ?_
  cases hp : c.pass? s with
  | none => rfl
  | some d =>
    rw [(Cursor.eq_of_pass? hp).1, hs] at hx
    exact absurd (List.cons.inj hx).1.symm h

/-! ## The sign of an assignment -/

/-- An equals sign that no other follows is the sign of an assignment. -/
theorem cut_equals {rest : List Char} (h : rest.head? ≠ some '=') :
    Token.cut '=' rest = (.assign, rest) := by
  cases rest with
  | nil => rfl
  | cons y rest =>
    have hpair : Token.pair? '=' y = none := by
      unfold Token.pair?
      split <;> simp_all
    change Token.cutSymbol '=' (y :: rest) = _
    rw [Token.cutSymbol, hpair]
    rfl

/-- Two equals signs are an equality. -/
theorem cut_equals_equals (rest : List Char) : Token.cut '=' ('=' :: rest) = (.op .eq, rest) := rfl

/-- A text goes on with an equals sign at an assignment or an equality only. -/
theorem parses_equals_none (hc : c.Settled) (ha : ∀ j ls, lexemes c.rest ≠ ⟨.assign, j⟩ :: ls)
    (he : ∀ j ls, lexemes c.rest ≠ ⟨.op .eq, j⟩ :: ls) :
    grammar.Parses a (string "=") c none := by
  refine .text ?_
  cases hp : c.pass? "=".toList with
  | none => rfl
  | some d =>
    have hx : c.rest = '=' :: d.rest := (Cursor.eq_of_pass? hp).1
    by_cases hd : d.rest.head? = some '='
    · obtain ⟨rest, hrest⟩ := List.head?_eq_some_iff.1 hd
      rw [hrest] at hx
      obtain ⟨e, hb, -⟩ := before_of_cut hc hx (cut_equals_equals rest)
      exact absurd hb.lexemes_eq (he _ _)
    · obtain ⟨e, hb, -⟩ := before_of_cut hc hx (cut_equals hd)
      exact absurd hb.lexemes_eq (ha _ _)

/-- An equality is no sign of an assignment: behind its first character comes another. -/
theorem parses_equals_deny (h : c.Before ⟨.op .eq, j⟩ d) (y : Peg Rule) :
    grammar.Parses a (.seq (string "=") (.seq (.deny (string "=")) y)) c none := by
  have hrest : c.rest = '=' :: '=' :: d.rest := h.rest_eq
  have h₁ : grammar.Parses a (string "=") c (some (c.advance 1, [])) :=
    .text (by rw [Cursor.pass?_of_eq (s := "=".toList) hrest]; rfl)
  have hr : (c.advance 1).rest = '=' :: d.rest := by
    rw [Cursor.rest_advance, hrest]
    rfl
  have h₂ : grammar.Parses a (string "=") (c.advance 1) (some ((c.advance 1).advance 1, [])) :=
    .text (by rw [Cursor.pass?_of_eq (s := "=".toList) hr]; rfl)
  have hs : grammar.afterLayout a (c.advance 1) = c.advance 1 := by
    cases a with
    | true => rfl
    | false =>
      refine afterLayout_of_settled ?_
      rw [Cursor.Settled, hr]
      rfl
  refine .seq (p := none) h₁ (.seqFail ?_) rfl
  rw [hs]
  exact .deny h₂ rfl

end IntScript
