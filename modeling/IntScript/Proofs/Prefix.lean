import IntScript.Proofs.Relayout

/-!
# Beginnings of a text

* `lexemes_append_line` : what stands on lines of its own is cut for itself;
* `lexemes_ne_nil` : the beginning of a text without layout in front has a lexeme;
* `unjoin` : lexemes the last of which is joined to nothing;
* `Cursor.Passes.lexemes_upTo` : a text that ends at a place between two lexemes has the lexemes in
  front of it, but the last one is joined to nothing any more (`Cursor.Passes.lexemes_take`).
-/

namespace IntScript

/-- A line break keeps tokens apart and ends a comment. -/
theorem lexemes_append_line {x : Char} (hx : isLineBreak x = true) (before after : List Char) :
    lexemes (before ++ x :: after) = lexemes before ++ lexemes after := by
  induction before using lexemes.induct with
  | case1 => rw [List.nil_append, lexemes_blank (isBlank_of_isLineBreak hx), lexemes_nil,
      List.nil_append]
  | case2 c rest hc ih => rw [List.cons_append, lexemes_blank hc, lexemes_blank hc, ih]
  | case3 c rest hc hslash ih =>
    obtain ⟨rfl, hhead⟩ := hslash
    have hhead' : (rest ++ x :: after).head? = some '/' := by rw [List.head?_append, hhead]; rfl
    rw [List.cons_append, lexemes_comment hhead', lexemes_comment hhead]
    by_cases hd : rest.dropWhile (fun x => !isLineBreak x) = []
    · -- the line break ends the comment
      have hline : ∀ y ∈ rest, isLineBreak y = false := by
        simpa using List.dropWhile_eq_nil_iff.1 hd
      rw [dropWhile_line hline hx, lexemes_blank (isBlank_of_isLineBreak hx), hd, lexemes_nil,
        List.nil_append]
    · rw [(takeWhile_append_apart (.inl hd)).2, ih]
  | case4 c rest hc hslash ih =>
    have hcf : isBlank c = false := by simpa using hc
    have hs : ¬(c = '/' ∧ (rest ++ x :: after).head? = some '/') := by
      rintro ⟨rfl, hh⟩
      cases rest with
      | nil =>
        obtain rfl : x = '/' := Option.some.inj hh
        cases hx
      | cons y rest => exact hslash ⟨rfl, hh⟩
    have hx' : ∀ d t, x :: after = d :: t → Apart d := by
      rintro d t heq
      cases heq
      exact .inl (isBlank_of_isLineBreak hx)
    rw [lexemes_token_append hcf hs (.inr hx'), lexemes_token hcf hslash, List.cons_append, ih]

/-- The beginning of a text without layout in front has a lexeme. -/
theorem lexemes_ne_nil {before after : List Char} (h : Layout.length (before ++ after) = 0)
    (hb : before ≠ []) : lexemes before ≠ [] := by
  refine fun hnil => hb (eq_nil_of_lexemes ?_ hnil)
  cases before with
  | nil => rfl
  | cons c rest =>
    rw [List.cons_append, Layout.length, Layout.lengthFrom_cons, if_neg (by decide)] at h
    rw [Layout.length, Layout.lengthFrom_cons, if_neg (by decide)]
    by_cases hc : isBlank c = true
    · rw [if_pos hc] at h
      cases h
    · rw [if_neg hc] at h ⊢
      refine if_neg fun hs => ?_
      rw [if_pos ⟨hs.1, by rw [List.head?_append, hs.2]; rfl⟩] at h
      cases h

/-! ## Texts that end early -/

/-- The lexemes, the last one joined to nothing. -/
def unjoin : List Lexeme → List Lexeme
  | [] => []
  | [l] => [⟨l.token, false⟩]
  | l :: l' :: ls => l :: unjoin (l' :: ls)

theorem unjoin_cons {ls : List Lexeme} (h : ls ≠ []) (l : Lexeme) :
    unjoin (l :: ls) = l :: unjoin ls := by
  cases ls with
  | nil => exact absurd rfl h
  | cons => rfl

@[simp] theorem unjoin_eq_nil {ls : List Lexeme} : unjoin ls = [] ↔ ls = [] := by
  rcases ls with _ | ⟨l, _ | ⟨l', ls⟩⟩ <;> simp [unjoin]

/-- Only the end of the lexemes matters. -/
theorem unjoin_append {ls' : List Lexeme} (h : ls' ≠ []) (ls : List Lexeme) :
    unjoin (ls ++ ls') = ls ++ unjoin ls' := by
  induction ls with
  | nil => rfl
  | cons l ls ih => rw [List.cons_append, unjoin_cons (by simp [h]), ih, List.cons_append]

/-- The layout at the beginning of a text is layout in front of anything else; a comment that goes
on to the end of the text is not gone on with. -/
theorem lexemes_take_lengthFrom (b : Bool) {text z : List Char}
    (hz : text.drop (Layout.lengthFrom b 0 text) = [] → z = []) :
    lexemes (if b then (text.take (Layout.lengthFrom b 0 text) ++ z).dropWhile
      (fun x => !isLineBreak x) else text.take (Layout.lengthFrom b 0 text) ++ z) = lexemes z := by
  induction text generalizing b with
  | nil =>
    obtain rfl := hz rfl
    cases b <;> rfl
  | cons c rest ih =>
    rw [Layout.lengthFrom_cons] at hz ⊢
    cases b with
    | true =>
      rw [if_pos rfl, List.drop_succ_cons] at hz
      have hrest := ih _ hz
      rw [if_pos rfl, if_pos rfl, List.take_succ_cons, List.cons_append]
      cases hc : isLineBreak c with
      | true =>
        rw [hc] at hrest
        rw [List.dropWhile_cons_of_neg (by simp [hc]), lexemes_blank (isBlank_of_isLineBreak hc)]
        exact hrest
      | false =>
        rw [hc] at hrest
        rw [List.dropWhile_cons_of_pos (by simp [hc])]
        exact hrest
    | false =>
      simp only [Bool.false_eq_true, if_false] at hz ⊢
      by_cases hb : isBlank c = true
      · rw [if_pos hb, List.drop_succ_cons] at hz
        rw [if_pos hb, List.take_succ_cons, List.cons_append, lexemes_blank hb]
        exact ih false hz
      · by_cases hs : c = '/' ∧ rest.head? = some '/'
        · rw [if_neg hb, if_pos hs, List.drop_succ_cons] at hz
          rw [if_neg hb, if_pos hs, List.take_succ_cons, List.cons_append, hs.1, lexemes_comment]
          · exact ih true hz
          · -- the second slash is layout, too
            obtain ⟨rest', rfl⟩ := List.head?_eq_some_iff.1 hs.2
            rw [Layout.lengthFrom_cons, if_pos rfl]
            rfl
        · rw [if_neg hb, if_neg hs]
          rfl

namespace Cursor

variable {c d : Cursor} {l : Lexeme} {ls : List Lexeme} {z : List Char}

/-- What `z` begins with, the text goes on with. -/
def Leads (c : Cursor) (z : List Char) : Prop := ∀ x ∈ z.head?, x ∈ c.rest.head?

theorem Leads.nil (c : Cursor) : c.Leads [] := nofun

theorem Leads.of_rest_nil (h : c.Leads z) (hc : c.rest = []) : z = [] := by
  cases z with
  | nil => rfl
  | cons x z =>
    have hx := h x rfl
    rw [hc] at hx
    cases hx

end Cursor

namespace Token

/-- Only the first character behind a token matters for it. -/
theorem joins_of_leads {t : Token} {rest z : List Char} (hz : z ≠ [])
    (h : ∀ x ∈ z.head?, x ∈ rest.head?) : t.joins z = t.joins rest := by
  obtain ⟨x, z, rfl⟩ := List.exists_cons_of_ne_nil hz
  obtain ⟨rest, rfl⟩ := List.head?_eq_some_iff.1 (h x rfl)
  rw [← List.nil_append z, ← List.cons_append, joins_cons_append, ← joins_cons_append t x [] rest]
  rfl

/-- A token ends in front of what begins like the text behind it. -/
theorem cut_of_leads {x : Char} {rest after z : List Char} {t : Token}
    (h : cut x rest = (t, after)) (hz : ∀ y ∈ z.head?, y ∈ after.head?) :
    ∃ xs, t.text = x :: xs ∧ cut x (xs ++ z) = (t, z) := by
  have hclass : ∀ p : Char → Bool, (∀ c r, after = c :: r → p c = false) →
      ∀ c r, z = c :: r → p c = false := by
    rintro p hp c r rfl
    obtain ⟨r', hr'⟩ := List.head?_eq_some_iff.1 (hz c rfl)
    exact hp c r' hr'
  have hrun : ∀ p : Char → Bool, rest.dropWhile p = after →
      (rest.takeWhile p ++ z).takeWhile p = rest.takeWhile p ∧
        (rest.takeWhile p ++ z).dropWhile p = z := fun p hp =>
    takeWhile_append_rest (fun c hc => List.mem_takeWhile_imp hc) <| hclass p fun c r hcr => by
      have hne : rest.dropWhile p ≠ [] := by simp [hp, hcr]
      simpa [hp, hcr] using List.head_dropWhile_not p hne
  by_cases hn : isNameStart x = true
  · rw [cut, if_pos hn] at h
    obtain ⟨rfl, hd⟩ := Prod.mk.inj h
    obtain ⟨htake, hdrop⟩ := hrun isNameChar hd
    exact ⟨_, String.toList_ofList, by rw [cut, if_pos hn, htake, hdrop]⟩
  · by_cases hg : x.isDigit = true
    · rw [cut, if_neg hn, if_pos hg] at h
      obtain ⟨rfl, hd⟩ := Prod.mk.inj h
      obtain ⟨htake, hdrop⟩ := hrun Char.isDigit hd
      exact ⟨_, rfl, by rw [cut, if_neg hn, if_pos hg, htake, hdrop]⟩
    · have hcut : ∀ r, cut x r = cutSymbol x r := fun r => by rw [cut, if_neg hn, if_neg hg]
      rw [hcut] at h
      cases rest with
      | nil =>
        obtain ⟨rfl, rfl⟩ := Prod.mk.inj h
        obtain rfl : z = [] := Cursor.Leads.of_rest_nil (c := ⟨0, []⟩) hz rfl
        exact ⟨[], text_single x, hcut _⟩
      | cons y rest =>
        rw [cutSymbol] at h
        cases hp : pair? x y with
        | some t' =>
          rw [hp] at h
          obtain ⟨rfl, -⟩ := Prod.mk.inj h
          refine ⟨[y], text_pair? hp, ?_⟩
          rw [hcut, List.singleton_append, cutSymbol, hp]
        | none =>
          rw [hp] at h
          obtain ⟨rfl, rfl⟩ := Prod.mk.inj h
          refine ⟨[], text_single x, ?_⟩
          rw [hcut, List.nil_append]
          cases z with
          | nil => rfl
          | cons y' z =>
            obtain rfl : y' = y := (Option.some.inj (hz y' rfl)).symm
            rw [cutSymbol, hp]

end Token

namespace Cursor

variable {c d : Cursor} {l : Lexeme} {ls : List Lexeme} {z : List Char}

/-- A lexeme in front of a text that begins like what is behind it. -/
theorem Before.lexemes_append (hc : c.Settled) (h : c.Before l d) (hz : d.Leads z) :
    lexemes (l.token.text ++ z) = ⟨l.token, l.token.joins z⟩ :: lexemes z := by
  obtain ⟨x, rest, after, hx, hcut, ht, -, -⟩ := cut_of_lexemes hc h.lexemes_eq
  obtain rfl : after = d.rest := List.append_cancel_left (ht.symm.trans h.rest_eq)
  obtain ⟨xs, htext, hcut'⟩ := Token.cut_of_leads hcut hz
  rw [Settled, hx, Layout.length, Layout.lengthFrom_cons, if_neg (by decide)] at hc
  have hb : isBlank x = false := by
    by_contra hb
    rw [if_pos (by simpa using hb)] at hc
    cases hc
  rw [htext, List.cons_append, lexemes_token hb, hcut']
  rintro ⟨rfl, hhead⟩
  have hrest : rest = xs ++ d.rest := by
    rw [hx, htext] at ht
    exact (List.cons.inj ht).2
  have hslash : rest.head? = some '/' := by
    rw [hrest]
    cases xs with
    | nil => exact hz '/' hhead
    | cons => exact hhead
  rw [if_neg (by decide), if_pos ⟨rfl, hslash⟩] at hc
  cases hc

theorem upTo_self (c : Cursor) : c.upTo c = [] := by
  rw [upTo, Nat.sub_self, List.take_zero]

/-- The characters up to a place, those up to one in between first. -/
theorem upTo_of_advance {n m : Nat} : c.upTo ((c.advance n).advance m) =
    c.rest.take n ++ (c.advance n).upTo ((c.advance n).advance m) := by
  rw [upTo_advance, advance_advance, upTo_advance, rest_advance, List.take_add]

namespace Passes

/-- What begins like the text behind it leads there from every place in front, too. -/
theorem leads (h : c.Passes ls d) (hz : d.Leads z) : c.Leads (c.upTo d ++ z) := by
  obtain ⟨n, rfl⟩ := h.advance_eq
  rw [upTo_advance]
  intro x hx
  cases hc : c.rest with
  | nil =>
    obtain rfl := hz.of_rest_nil (by rw [rest_advance, hc, List.drop_nil])
    simp [hc] at hx
  | cons y rest =>
    cases n with
    | zero =>
      have := hz x (by simpa using hx)
      rwa [rest_advance, List.drop_zero, hc] at this
    | succ n => simpa [hc] using hx

/-- What stands between two places is cut into the lexemes there, in front of anything that begins
like the text behind. At the end of a text, nothing is joined any more. -/
theorem lexemes_upTo (h : c.Passes ls d) (hz : d.Leads z) :
    lexemes (c.upTo d ++ z) = (if z = [] then unjoin ls else ls) ++ lexemes z := by
  induction h with
  | refl c => rw [upTo_self]; split <;> rfl
  | @layout c d ls h ih =>
    obtain ⟨n, rfl⟩ := h.advance_eq
    rw [Grammar.afterLayout_false, upTo_of_advance, List.append_assoc]
    have hlead := h.leads hz
    exact (lexemes_take_lengthFrom false fun hrest => hlead.of_rest_nil hrest).trans (ih hz)
  | @token c d e l ls hc hb h ih =>
    obtain ⟨n, rfl⟩ := h.advance_eq
    have hlead := h.leads hz
    have hup : c.upTo (d.advance n) = l.token.text ++ d.upTo (d.advance n) := by
      rw [hb.advance_eq, upTo_of_advance, hb.rest_eq, List.take_left' rfl]
    rw [hup, List.append_assoc, hb.lexemes_append hc hlead, ih hz]
    by_cases hne : d.upTo (d.advance n) ++ z = []
    · obtain ⟨hd, rfl⟩ := List.append_eq_nil_iff.1 hne
      have hls := ih hz
      rw [hne] at hls
      simp only [lexemes_nil, if_true, List.append_nil] at hls
      obtain rfl := unjoin_eq_nil.1 hls.symm
      rw [hne, joins_nil]
      rfl
    · rw [Token.joins_of_leads hne hlead, ← hb.joined_eq]
      split
      case isFalse => rfl
      case isTrue hz =>
        subst hz
        by_cases hls : ls = []
        · -- what is left is layout, which touches no token
          subst hls
          have hjoin : l.joined = false := by
            rw [hb.joined_eq, ← Token.joins_of_leads hne hlead]
            refine Bool.eq_false_iff.2 fun hj => ?_
            obtain ⟨l', ls', hl', -⟩ := minds_of_joins hj
            rw [ih hz, lexemes_nil] at hl'
            cases hl'
          rw [unjoin, hjoin]
          rfl
        · rw [unjoin_cons hls]
          rfl

/-- The lexemes of a text that ends at a place between two. -/
theorem lexemes_take {text : List Char} (h : (start text).Passes ls d) :
    lexemes (text.take d.offset) = unjoin ls := by
  have hup := h.lexemes_upTo (.nil d)
  rw [List.append_nil, if_pos rfl, lexemes_nil, List.append_nil] at hup
  exact hup

end Passes

end Cursor

end IntScript
