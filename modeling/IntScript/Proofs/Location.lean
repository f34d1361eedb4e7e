import IntScript.Proofs.Expected
import IntScript.Proofs.Failure.Programs

/-!
# Where syntax errors are

* `Place.textBehind` : what stands behind a line and a column of a text;
* `Place.exists_line`, `Place.textBehind_ofOffset` : the place of a character is in a line of the
  text, and behind it stands what stands behind the character;
* `IsComment`, `InComment` : comments, and the places inside them;
* `Cursor.Passes.le_of_comment` : a place in front of a lexeme is behind the comments that begin in
  front of it;
* `parse_error_place` : syntax errors are in front of something else than layout, or at the end.
-/

namespace IntScript

open Peg Furthest

variable {text before after comment : List Char} {c d : Cursor} {ls : List Lexeme}
  {f : Furthest Rule}

/-! ## Lines -/

theorem head?_splitOn (text : List Char) :
    (text.splitOn '\n').head? = some (text.takeWhile (· ≠ '\n')) := by
  induction text with
  | nil => rfl
  | cons x text ih =>
    rw [List.splitOn] at ih ⊢
    rw [List.splitOnP_cons_eq_if_modifyHead, List.takeWhile_cons]
    by_cases hx : x = '\n'
    · simp [hx]
    · simp [hx, ih, List.head?_modifyHead]

theorem length_splitOn (text : List Char) :
    (text.splitOn '\n').length = text.count '\n' + 1 := by
  induction text with
  | nil => rfl
  | cons x text ih =>
    rw [List.splitOn] at ih ⊢
    rw [List.splitOnP_cons_eq_if_modifyHead, List.count_cons]
    by_cases hx : x = '\n'
    · simp [hx, ih]
    · simp [hx, ih]

/-- A text goes on on its last line. -/
theorem exists_last_line (text : List Char) : ∃ last : List Char, '\n' ∉ last ∧
    (text.reverse.takeWhile (· ≠ '\n')).length = last.length ∧ ∃ lines : List (List Char),
      lines.length = text.count '\n' ∧
      ∀ after, (text ++ after).splitOn '\n' = lines ++ (last ++ after).splitOn '\n' := by
  by_cases hmem : '\n' ∈ text.reverse
  · obtain ⟨last, lines, htext, hlast⟩ := List.eq_append_cons_of_mem hmem
    have hreverse : text = lines.reverse ++ '\n' :: last.reverse := by
      rw [← List.reverse_reverse text, htext]
      simp
    refine ⟨last.reverse, by rwa [List.mem_reverse], ?_, lines.reverse.splitOn '\n', ?_,
      fun after => ?_⟩
    · have hall : ∀ x ∈ last, decide (x ≠ '\n') = true := fun x hx =>
        decide_eq_true (by rintro rfl; exact hlast hx)
      rw [htext, List.takeWhile_append_of_pos hall, List.takeWhile_cons_of_neg (by simp)]
      simp
    · have hcount : last.count '\n' = 0 := List.count_eq_zero.2 hlast
      rw [length_splitOn, hreverse]
      simp [hcount]
    · rw [hreverse, List.append_assoc, List.cons_append]
      exact List.splitOnP_append_cons _ _ (by simp)
  · rw [List.mem_reverse] at hmem
    refine ⟨text, hmem, ?_, [], (List.count_eq_zero.2 hmem).symm, fun after => rfl⟩
    rw [List.takeWhile_eq_self_iff.2, List.length_reverse]
    intro x hx
    exact decide_eq_true (by rintro rfl; exact hmem (List.mem_reverse.1 hx))

namespace Place

/-- What stands behind a line and a column of a text. -/
def textBehind (p : Place) (text : List Char) : List Char :=
  (['\n'].intercalate ((text.splitOn '\n').drop (p.line - 1))).drop (p.column - 1)

/-- The place of a character is in a line of the text, or at its end. -/
theorem exists_line (text : List Char) (n : Nat) : ∃ line,
    (text.splitOn '\n')[(ofOffset text n).line - 1]? = some line ∧
      (ofOffset text n).column - 1 ≤ line.length := by
  obtain ⟨last, hlast, hlength, lines, hlines, hsplit⟩ := exists_last_line (text.take n)
  have htext := hsplit (text.drop n)
  rw [List.take_append_drop] at htext
  refine ⟨(last ++ text.drop n).takeWhile (· ≠ '\n'), ?_, ?_⟩
  · rw [htext, ofOffset, Nat.add_sub_cancel, ← hlines,
      List.getElem?_append_right (Nat.le_refl _), Nat.sub_self, ← List.head?_eq_getElem?]
    exact head?_splitOn _
  · have hall : ∀ x ∈ last, decide (x ≠ '\n') = true := fun x hx =>
      decide_eq_true (by rintro rfl; exact hlast hx)
    rw [ofOffset, Nat.add_sub_cancel, hlength, List.takeWhile_append_of_pos hall,
      List.length_append]
    exact Nat.le_add_right _ _

/-- Behind the place of a character stands what stands behind the character. -/
theorem textBehind_ofOffset (text : List Char) (n : Nat) :
    (ofOffset text n).textBehind text = text.drop n := by
  obtain ⟨last, -, hlength, lines, hlines, hsplit⟩ := exists_last_line (text.take n)
  have htext := hsplit (text.drop n)
  rw [List.take_append_drop] at htext
  rw [textBehind, htext, ofOffset, Nat.add_sub_cancel, Nat.add_sub_cancel, hlength, ← hlines,
    List.drop_left' rfl, List.intercalate_splitOn, List.drop_left' rfl]

end Place

/-! ## Comments -/

/-- A comment, or the beginning of one. -/
def IsComment (text : List Char) : Prop :=
  ['/', '/'] <+: text ∧ ∀ x ∈ text, isLineBreak x = false

/-- The place is inside a comment. -/
def InComment (text : List Char) (n : Nat) : Prop :=
  ∃ before comment after, text = before ++ comment ++ after ∧ IsComment comment ∧
    before.length < n ∧ n < before.length + comment.length

namespace Layout

/-- A comment goes on up to a line break. -/
theorem le_lengthFrom_comment (h : ∀ x ∈ comment, isLineBreak x = false) (after : List Char) :
    comment.length ≤ lengthFrom true 0 (comment ++ after) := by
  induction comment with
  | nil => exact Nat.zero_le _
  | cons x comment ih =>
    rw [List.cons_append, lengthFrom_cons, if_pos rfl, h x List.mem_cons_self]
    exact Nat.succ_le_succ (ih fun y hy => h y (.tail x hy))

/-- Layout in which a comment begins contains it. -/
theorem le_length_of_comment (hc : IsComment comment) (b : Bool)
    (h : before.length < lengthFrom b 0 (before ++ comment ++ after)) :
    before.length + comment.length ≤ lengthFrom b 0 (before ++ comment ++ after) := by
  induction before generalizing b with
  | nil =>
    obtain ⟨⟨rest, rfl⟩, hbreak⟩ := hc
    cases b with
    | true => simpa using le_lengthFrom_comment hbreak after
    | false =>
      have hslash : ∀ y ∈ '/' :: rest, isLineBreak y = false := fun y hy => hbreak y (.tail _ hy)
      have hle := le_lengthFrom_comment hslash after
      change 0 + (rest.length + 1 + 1) ≤ lengthFrom false 0 ('/' :: '/' :: (rest ++ after))
      rw [lengthFrom_cons, if_neg Bool.false_ne_true, if_neg (by decide), if_pos ⟨rfl, rfl⟩,
        Nat.zero_add]
      exact Nat.succ_le_succ hle
  | cons x before ih =>
    have hgo : ∀ b', before.length + 1 < lengthFrom b' 0 (before ++ comment ++ after) + 1 →
        before.length + 1 + comment.length ≤ lengthFrom b' 0 (before ++ comment ++ after) + 1 := by
      intro b' hlt
      have := ih b' (Nat.lt_of_succ_lt_succ hlt)
      omega
    revert h
    rw [List.cons_append, List.cons_append, lengthFrom_cons, List.length_cons]
    split
    · exact hgo _
    · split
      · exact hgo _
      · split
        · exact hgo _
        · exact fun h => absurd h (Nat.not_lt_zero _)

end Layout

/-- Where no layout is left, the text is at its end, or it goes on with something else. -/
theorem Cursor.Settled.head {x : Char} {rest : List Char} (h : c.Settled)
    (hrest : c.rest = x :: rest) : isBlank x = false ∧ ¬(x = '/' ∧ rest.head? = some '/') := by
  rw [Settled, hrest, Layout.length, Layout.lengthFrom_cons, if_neg Bool.false_ne_true] at h
  split at h
  · cases h
  · next hx =>
    split at h
    · cases h
    · next hs => exact ⟨by simpa using hx, hs⟩

theorem Token.slash_not_mem_pair? {x y : Char} {t : Token} (h : pair? x y = some t) :
    '/' ∉ t.text := by
  unfold pair? at h
  split at h <;> cases h <;> decide

/-- A token with a slash is just that. -/
theorem Token.text_cut_of_slash {x : Char} {rest : List Char} (h : '/' ∈ (cut x rest).1.text) :
    (cut x rest).1.text = ['/'] := by
  have hname : ∀ cs, '/' ∉ List.takeWhile isNameChar cs := fun cs hmem =>
    absurd (List.mem_takeWhile_imp hmem) (by decide)
  have hdigit : ∀ cs, '/' ∉ List.takeWhile Char.isDigit cs := fun cs hmem =>
    absurd (List.mem_takeWhile_imp hmem) (by decide)
  unfold cut at h ⊢
  split at h
  · next hx =>
    rw [text, String.toList_ofList] at h
    rcases List.mem_cons.1 h with rfl | h
    · exact absurd hx (by decide)
    · exact absurd h (hname rest)
  · next hx =>
    rw [if_neg hx]
    split at h
    · next hd =>
      rcases List.mem_cons.1 h with rfl | h
      · exact absurd hd (by decide)
      · exact absurd h (hdigit rest)
    · next hd =>
      rw [if_neg hd]
      have hsingle : '/' ∈ (single x).text → (single x).text = ['/'] := fun h => by
        rw [text_single, List.mem_singleton] at h
        rw [text_single, h]
      cases rest with
      | nil => exact hsingle h
      | cons y rest =>
        rw [cutSymbol] at h ⊢
        cases hp : pair? x y with
        | none =>
          rw [hp] at h
          exact hsingle h
        | some t =>
          rw [hp] at h
          exact absurd h (slash_not_mem_pair? hp)

/-- Further on in front of a comment. -/
theorem Cursor.rest_advance_comment {k : Nat} (ht : c.rest = before ++ comment ++ after)
    (hk : k ≤ before.length) : (c.advance k).rest = before.drop k ++ comment ++ after := by
  rw [rest_advance, ht, List.append_assoc, List.drop_append_of_le_length hk, List.append_assoc]

/-- A place in front of a lexeme is behind the comments that begin in front of it. -/
theorem Cursor.Passes.le_of_comment (h : c.Passes ls d) (ht : c.rest = before ++ comment ++ after)
    (hc : IsComment comment) (hlt : c.offset + before.length < d.offset) :
    c.offset + before.length + comment.length ≤ d.offset := by
  induction h generalizing before with
  | refl => omega
  | @layout c d ls h ih =>
    have hoffset : (grammar.afterLayout false c).offset = c.offset + Layout.length c.rest := rfl
    by_cases hk : Layout.length c.rest ≤ before.length
    · have hrest := Cursor.rest_advance_comment ht hk
      have := ih hrest
      rw [hoffset, List.length_drop] at this
      omega
    · -- the comment begins in the layout
      obtain ⟨n, hn⟩ := h.advance_eq
      have hd : d.offset = (grammar.afterLayout false c).offset + n := hn ▸ rfl
      rw [Layout.length, ht] at hk
      have := Layout.le_length_of_comment hc false (Nat.lt_of_not_le hk)
      rw [hd, hoffset, Layout.length, ht]
      omega
  | @token c d e l ls hs hb h ih =>
    have hoffset : d.offset = c.offset + l.token.text.length := by rw [hb.advance_eq]; rfl
    by_cases hk : l.token.text.length ≤ before.length
    · have hrest := Cursor.rest_advance_comment ht hk
      rw [← hb.advance_eq] at hrest
      have := ih hrest
      rw [hoffset, List.length_drop] at this
      omega
    · -- the lexeme contains a slash, so it is just that, but there layout comes first
      exfalso
      obtain ⟨⟨rest, rfl⟩, -⟩ := hc
      obtain ⟨x, cs, cs', -, hcut, -⟩ := cut_of_lexemes hs hb.lexemes_eq
      have hslash : '/' ∈ l.token.text := by
        refine List.mem_of_getElem? (i := before.length) ?_
        rw [← List.getElem?_append_left (Nat.lt_of_not_le hk), ← hb.rest_eq, ht]
        simp
      have htext : l.token.text = ['/'] := by
        have heq : (Token.cut x cs).1 = l.token := by rw [hcut]
        exact heq ▸ Token.text_cut_of_slash (heq ▸ hslash)
      obtain rfl : before = [] := by
        rw [htext] at hk
        exact List.length_eq_zero_iff.1 (by simpa using hk)
      exact (hs.head ht).2 ⟨rfl, rfl⟩

/-! ## Places -/

theorem Layout.lengthFrom_le (b : Bool) (text : List Char) : lengthFrom b 0 text ≤ text.length := by
  induction text generalizing b with
  | nil => exact Nat.le_refl _
  | cons x text ih =>
    rw [lengthFrom_cons, List.length_cons]
    split
    · exact Nat.succ_le_succ (ih _)
    · split
      · exact Nat.succ_le_succ (ih _)
      · split
        · exact Nat.succ_le_succ (ih _)
        · exact Nat.zero_le _

theorem Cursor.Passes.length_eq (h : c.Passes ls d) :
    d.offset + d.rest.length = c.offset + c.rest.length := by
  induction h with
  | refl => rfl
  | @layout c _ _ _ ih =>
    have hle : Layout.length c.rest ≤ c.rest.length := Layout.lengthFrom_le false c.rest
    refine ih.trans ?_
    change c.offset + Layout.length c.rest + (c.rest.drop (Layout.length c.rest)).length = _
    rw [List.length_drop]
    omega
  | @token c d _ l _ _ hb _ ih =>
    have hoffset : d.offset = c.offset + l.token.text.length := by rw [hb.advance_eq]; rfl
    rw [ih, hoffset, hb.rest_eq, List.length_append]
    omega

/-- What stands behind a place of a text. -/
theorem Cursor.Passes.rest_eq (h : (Cursor.start text).Passes ls c) :
    c.rest = text.drop c.offset ∧ c.offset ≤ text.length := by
  have hlength := h.length_eq
  obtain ⟨n, rfl⟩ := h.advance_eq
  change 0 + n + _ = 0 + text.length at hlength
  refine ⟨?_, ?_⟩
  · change text.drop n = text.drop (0 + n)
    rw [Nat.zero_add]
  · change 0 + n ≤ _
    omega

/-- The place that a failure is recorded for. -/
theorem exists_place_of_recognise (hf : recognise text = .failed f) :
    ∃ c : Cursor, c.offset = f.offset ∧ (Boundary text c ∨ Stuck text c) := by
  rcases Nat.eq_zero_or_pos f.offset with hzero | hpos
  · refine ⟨.start text, hzero.symm, .inl ⟨?_, [], .refl _⟩⟩
    obtain ⟨d, t, htries, hends, rfl⟩ := exists_tries_of_recognise hf
    have hd := htries.le_offset.1 d rfl
    have hle := Grammar.offset_afterLayout grammar false d
    have ht := hends.le_offset
    rw [offset_reported_eq_zero] at hzero
    have hstart : (grammar.afterLayout false (.start text)).offset = 0 + Layout.length text := rfl
    change Layout.length text = 0
    omega
  · obtain ⟨r, c, hstands, hc⟩ := (recorded_of_recognise hf).place
    exact ⟨c, hc, hstands.boundary_or_stuck (hc ▸ hpos)⟩


theorem Boundary.not_inComment (h : Boundary text c) : ¬InComment text c.offset := by
  rintro ⟨before, comment, after, ht, hc, hlt, hlt'⟩
  obtain ⟨-, ls, hls⟩ := h
  have hle := hls.le_of_comment ht hc (by simpa [Cursor.start] using hlt)
  simp only [Cursor.start, Nat.zero_add] at hle
  omega

/-- Between two equals signs there is no comment. -/
theorem Stuck.not_inComment (h : Stuck text c) : ¬InComment text c.offset := by
  rintro ⟨before, comment, after, ht, hc, hlt, hlt'⟩
  obtain ⟨b, ls, hls, hrest, rfl⟩ := h.behind
  change before.length < b.offset + 1 at hlt
  change b.offset + 1 < _ at hlt'
  rcases Nat.lt_or_eq_of_le (Nat.le_of_lt_succ hlt) with hlt | heq
  · have hle := hls.le_of_comment ht hc (by simpa [Cursor.start] using hlt)
    simp only [Cursor.start, Nat.zero_add] at hle
    omega
  · obtain ⟨n, rfl⟩ := hls.advance_eq
    obtain ⟨⟨rest, rfl⟩, -⟩ := hc
    have hb : before.length = n := heq.trans (Nat.zero_add n)
    have hdrop : text.drop n = '=' :: _ := hrest
    rw [ht, List.append_assoc, ← hb, List.drop_left' rfl] at hdrop
    cases hdrop

/-- Places where rules can stand are places of the text, with no layout left and in no comment. -/
theorem settled_of_place (h : Boundary text c ∨ Stuck text c) : c.Settled ∧
    c.rest = text.drop c.offset ∧ c.offset ≤ text.length ∧ ¬InComment text c.offset := by
  rcases h with h | h
  · obtain ⟨hsettled, ls, hls⟩ := id h
    obtain ⟨hrest, hlength⟩ := hls.rest_eq
    exact ⟨hsettled, hrest, hlength, h.not_inComment⟩
  · obtain ⟨b, ls, hls, hb, rfl⟩ := h.behind
    obtain ⟨hrest, hlength⟩ := hls.rest_eq
    refine ⟨h.settled, ?_, ?_, h.not_inComment⟩
    · rw [Cursor.rest_advance, hrest, List.drop_drop]
      rfl
    · rw [hb] at hrest
      refine Nat.lt_of_not_le fun hle => ?_
      rw [List.drop_of_length_le hle] at hrest
      cases hrest

/-- **The place of an error**: a syntax error is at a line and a column of the text. There the text
is at its end, or it goes on with something else than layout. The place is not inside a line break
of two characters, and not inside a comment. -/
theorem parse_error_place {s : String} {e : SyntaxError} (h : parse s = .error (.badSyntax e)) :
    let text := s.toList
    e.offset ≤ s.length ∧ 1 ≤ e.place.line ∧ 1 ≤ e.place.column ∧
      (∃ line, (text.splitOn '\n')[e.place.line - 1]? = some line ∧
        e.place.column - 1 ≤ line.length) ∧
      e.place.textBehind text = text.drop e.offset ∧
      (∀ x rest, e.place.textBehind text = x :: rest →
        isBlank x = false ∧ ¬(x = '/' ∧ rest.head? = some '/')) ∧
      (∀ before after, text = before ++ '\r' :: '\n' :: after → e.offset ≠ before.length + 1) ∧
      ¬InComment text e.offset := by
  intro text
  obtain ⟨f, hf, rfl⟩ := recognise_of_badSyntax h
  obtain ⟨c, hc, hplace⟩ := exists_place_of_recognise hf
  obtain ⟨hsettled, hrest, hlength, hcomment⟩ := settled_of_place hplace
  have hbehind := Place.textBehind_ofOffset text f.offset
  rw [hc] at hrest hlength hcomment
  refine ⟨hlength, Nat.succ_pos _, Nat.succ_pos _, Place.exists_line text f.offset, hbehind, ?_, ?_,
    hcomment⟩
  · intro x rest hx
    exact hsettled.head (hrest.trans (hbehind.symm.trans hx))
  · intro before after htext heq
    have hfeed : c.rest = '\n' :: after := by
      rw [hrest, show s.toList = _ from htext, show f.offset = _ from heq]
      simp
    exact Bool.noConfusion (hsettled.head hfeed).1

/-- An expression is missing, and the error is not in front of the comment but behind it. -/
theorem parse_error_place_comment :
    let s := "x = // y\r\n \x7d"
    let e : SyntaxError := ⟨11, ⟨2, 2⟩, [.product], []⟩
    parse s = .error (.badSyntax e) ∧
      (∃ line, (s.toList.splitOn '\n')[1]? = some line ∧ 1 ≤ line.length) ∧
      e.place.textBehind s.toList = ['}'] ∧ isBlank '}' = false ∧ ¬InComment s.toList 11 := by
  intro s e
  have h : parse s = .error (.badSyntax e) := by decide +kernel
  obtain ⟨-, -, -, hline, hbehind, hhead, -, hcomment⟩ := parse_error_place h
  have hbehind : e.place.textBehind s.toList = ['}'] := hbehind.trans (by decide +kernel)
  exact ⟨h, hline, hbehind, (hhead _ _ hbehind).1, hcomment⟩

end IntScript
