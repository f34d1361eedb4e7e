import IntScript.Proofs.Failure.Programs
import IntScript.Proofs.Messages
import IntScript.Proofs.Peg.Shifts
import IntScript.Proofs.Relayout

/-!
# Errors move with the text

* `IsLayout.length_append` : layout in front of a text is skipped as a whole;
* `Place.ofOffset_append_line` : lines in front of a text move its places down;
* `tries_append` : a text is tried as a block in the same way behind layout;
* `parse_error_shift` : its error moves with it.

At the beginning of a text its message says that a program was expected. With layout in front, the
program begins earlier, and the message lists what can stand behind no statement at all.
-/

namespace IntScript

open Peg Furthest

variable {w text : List Char} {c d : Cursor} {t f f' : Furthest Rule} {n : Nat}

/-! ## Layout in front -/

theorem Layout.lengthFrom_line {xs : List Char} {x : Char} (hxs : ∀ y ∈ xs, isLineBreak y = false)
    (hx : isLineBreak x = true) (rest : List Char) :
    lengthFrom true 0 (xs ++ x :: rest) = lengthFrom false 0 rest + (xs.length + 1) := by
  induction xs with
  | nil => rw [List.nil_append, lengthFrom_cons, if_pos rfl, hx]; rfl
  | cons y xs ih =>
    rw [List.cons_append, lengthFrom_cons, if_pos rfl, hxs y List.mem_cons_self]
    exact congrArg (· + 1) (ih fun z hz => hxs z (.tail y hz))

theorem IsLayout.length_append (h : IsLayout w) (text : List Char) :
    Layout.length (w ++ text) = Layout.length text + w.length := by
  unfold Layout.length
  induction h with
  | nil => rfl
  | @blank c w hc _ ih =>
    rw [List.cons_append, Layout.lengthFrom_cons, if_neg Bool.false_ne_true, if_pos hc, ih]
    rfl
  | @comment xs w c hx hc _ ih =>
    have happ : '/' :: '/' :: xs ++ c :: w ++ text = '/' :: ('/' :: xs ++ c :: (w ++ text)) := by
      simp
    have hslash : ∀ x ∈ '/' :: xs, isLineBreak x = false := List.forall_mem_cons.2 ⟨rfl, hx⟩
    have hline := Layout.lengthFrom_line hslash hc (w ++ text)
    rw [happ, Layout.lengthFrom_cons, if_neg Bool.false_ne_true, if_neg (by decide),
      if_pos ⟨rfl, rfl⟩, hline, ih]
    simp only [List.length_append, List.length_cons]
    omega

theorem IsLayout.afterLayout_append (h : IsLayout w) (text : List Char) :
    grammar.afterLayout false (.start (w ++ text)) =
      (grammar.afterLayout false (.start text)).shift w.length := by
  have hlength : Layout.length (w ++ text) = Layout.length text + w.length := h.length_append text
  change Cursor.mk (0 + Layout.length (w ++ text)) ((w ++ text).drop (Layout.length (w ++ text))) =
    ⟨0 + Layout.length text + w.length, text.drop (Layout.length text)⟩
  rw [hlength, Nat.add_assoc, Nat.add_comm (Layout.length text) w.length, List.drop_append]
  simp

/-- Whole lines in front of a text move its places down by their number. -/
theorem Place.ofOffset_append (hw : w.getLast? = some '\n') (text : List Char) (n : Nat) :
    Place.ofOffset (w ++ text) (n + w.length) =
      ⟨(Place.ofOffset text n).line + w.count '\n', (Place.ofOffset text n).column⟩ := by
  obtain ⟨w, rfl⟩ := List.getLast?_eq_some_iff.1 hw
  have htake : (w ++ ['\n'] ++ text).take (n + (w ++ ['\n']).length) =
      w ++ '\n' :: text.take n := by
    rw [Nat.add_comm, List.take_length_add_append, List.append_assoc]
    rfl
  have hcolumn : ((w ++ '\n' :: text.take n).reverse.takeWhile (· ≠ '\n')).length =
      ((text.take n).reverse.takeWhile (· ≠ '\n')).length := by
    have hreverse : (w ++ '\n' :: text.take n).reverse =
        (text.take n).reverse ++ '\n' :: w.reverse := by simp
    rw [hreverse, List.takeWhile_append]
    split
    · next h => rw [List.takeWhile_cons_of_neg (by simp), List.append_nil, h]
    · rfl
  rw [ofOffset, htake, hcolumn, List.count_append, List.count_cons_self]
  simp only [ofOffset, List.count_append, List.count_singleton_self, Place.mk.injEq, and_true]
  omega

/-! ## Attempts behind layout -/

/-- Behind layout, a text is tried as a block in the same way. -/
theorem tries_append (hw : IsLayout w)
    (h : grammar.Tries false false (.rule .block) (grammar.afterLayout false (.start text))
      (some d) t) :
    ∃ t', grammar.Tries false false (.rule .block)
      (grammar.afterLayout false (.start (w ++ text))) (some (d.shift w.length)) t' ∧
        t.Shifted w.length t' := by
  have hrules : ∀ r, decide (r ≠ Rule.program) = true →
      (grammar.body r).floats (fun r => decide (r ≠ .program)) = true := by
    intro r hr
    cases r <;> first | rfl | cases hr
  rw [hw.afterLayout_append]
  exact h.shift hrules rfl w.length

theorem recognise_append (hw : IsLayout w) (hne : w ≠ []) (hf : recognise text = .failed f)
    (hf' : recognise (w ++ text) = .failed f') :
    f'.offset = f.offset + w.length ∧ (0 < f.offset → f'.expected = f.expected) ∧
      (f.offset = 0 → ∃ fn, Lists f' (.statement true false fn)) := by
  obtain ⟨d, t, htries, hends, rfl⟩ := exists_tries_of_recognise hf
  obtain ⟨d', t', htries', -, rfl⟩ := exists_tries_of_recognise hf'
  obtain ⟨t₁, h₁, hs⟩ := tries_append hw htries
  obtain ⟨hd, rfl⟩ := htries'.unique h₁
  obtain rfl := Option.some.inj hd
  have hlayout : (grammar.afterLayout false (d.shift w.length)).offset =
      (grammar.afterLayout false d).offset + w.length := by
    rw [Grammar.afterLayout_shift]
    rfl
  have hlength := List.length_pos_iff.2 hne
  have hle := hends.le_offset
  obtain ⟨ho, he, -⟩ := hs.resolve_left fun ⟨hinitial, _⟩ => by
    obtain ⟨r, hr⟩ := hends.exists_mem
    rw [hinitial] at hr
    cases hr
  have hpos : 0 < (reported (d.shift w.length) t').offset := by
    rw [Nat.pos_iff_ne_zero, ne_eq, offset_reported_eq_zero]
    omega
  by_cases hzero : t.offset = 0
  · -- nothing is reported behind the beginning, where a statement is asked for
    have hfirst := (offset_reported_eq_zero d t).2 hzero
    have hle' := htries.le_offset.1 d rfl
    have hle'' := Grammar.offset_afterLayout grammar false d
    obtain ⟨-, -, -, hstart⟩ := htries.told.2 (afterLayout_settled _)
    obtain ⟨fn, hl⟩ := hstart (by omega)
    have hl' : Lists t' (.statement false false fn) := fun r => he ▸ hl r
    have hend : (grammar.afterLayout false (d.shift w.length)).offset = t'.offset := by omega
    rw [reported_of_pos hpos, hend]
    refine ⟨?_, fun h => absurd hfirst h.ne', fun _ => ⟨fn, hl'.join_end⟩⟩
    rw [offset_join, hfirst]
    change max _ t'.offset = _
    omega
  · have hpos' : 0 < (reported d t).offset := by
      rwa [Nat.pos_iff_ne_zero, ne_eq, offset_reported_eq_zero]
    have hs' := hs.join (.listed w.length (grammar.afterLayout false d).offset [.endOfInput])
    rw [← hlayout, ← reported_of_pos hpos, ← reported_of_pos hpos'] at hs'
    obtain ⟨ho', he', -⟩ := hs'.resolve_left fun ⟨hinitial, _⟩ => by
      rw [hinitial] at hpos'
      exact Nat.lt_irrefl 0 hpos'
    exact ⟨ho', fun _ => he', fun h => absurd h hpos'.ne'⟩

/-- Behind layout, a text with a syntax error has one, too. -/
theorem exists_badSyntax_append {e : SyntaxError} (hw : IsLayout w)
    (h : parseText text = .error (.badSyntax e)) :
    ∃ e', parseText (w ++ text) = .error (.badSyntax e') := by
  by_contra hno
  have hd := derives_of_parseText fun e' he' => hno ⟨e', he'⟩
  rw [hw.lexemes] at hd
  exact accepts_of_derives hd e h

/-- **Shifted errors**: with whole lines of layout in front of a text, its syntax error is the same as
many lines further down, unless it is at the beginning of the text. There a program is expected, and
with layout in front of it the end of the text or any statement. -/
theorem parse_error_shift {w s : String} {e : SyntaxError} (hw : IsLayout w.toList)
    (hline : w.toList.getLast? = some '\n') (h : parse s = .error (.badSyntax e)) :
    ∃ e', parse (w ++ s) = .error (.badSyntax e') ∧
      e'.place = ⟨e.place.line + w.toList.count '\n', e.place.column⟩ ∧
      (e.place ≠ ⟨1, 1⟩ → e'.expected = e.expected ∧ e'.detail = e.detail) ∧
      (e.place = ⟨1, 1⟩ → e.detail = "expected program" ∧ ∃ fn,
        e'.expected = (Asked.statement true false fn).rules ∧
          e'.detail = "expected " ++ enumerate (e'.expected.map Rule.label)) := by
  obtain ⟨e', h'⟩ := exists_badSyntax_append hw h
  refine ⟨e', by rwa [parse, String.toList_append], ?_⟩
  obtain ⟨f, hf, rfl⟩ := recognise_of_badSyntax h
  obtain ⟨f', hf', rfl⟩ := recognise_of_badSyntax h'
  have hne : w.toList ≠ [] := fun hnil => by
    rw [hnil] at hline
    cases hline
  have hstart : (syntaxError s.toList f).place = ⟨1, 1⟩ ↔ f.offset = 0 :=
    Place.ofOffset_eq_start (ne_nil_of_badSyntax h)
  obtain ⟨hoffset, hsame, hfirst⟩ := recognise_append hw hne hf hf'
  have hu := unexpected_of_recognise hf
  have hu' := unexpected_of_recognise hf'
  rw [ne_eq, hstart]
  refine ⟨?place, fun hpos => ?inside, fun hzero => ?first⟩
  case place =>
    rw [syntaxError, hoffset]
    exact Place.ofOffset_append hline s.toList f.offset
  case inside =>
    have hexpected : (syntaxError (w.toList ++ s.toList) f').expected =
        (syntaxError s.toList f).expected := by
      rw [syntaxError, syntaxError, hsame (Nat.pos_of_ne_zero hpos)]
    exact ⟨hexpected, by rw [SyntaxError.detail, SyntaxError.detail, hexpected, hu, hu']⟩
  case first =>
    obtain ⟨a, hl, ha⟩ := exists_lists_of_recognise hf
    obtain rfl := ha.2 hzero
    obtain ⟨fn, hl'⟩ := hfirst hzero
    have hexpected := syntaxError_expected s.toList hl
    have hexpected' := syntaxError_expected (w.toList ++ s.toList) hl'
    refine ⟨?_, fn, hexpected', SyntaxError.detail_expected hu' ?_⟩
    · rw [SyntaxError.detail, hu, hexpected]
      rfl
    · rw [hexpected']
      exact Asked.rules_ne_nil _

/-- An expression is missing two lines further down; and a brace too many is there, where in front of
it a statement could stand. -/
theorem parse_error_shift_commented :
    let w := "// c\n\t\n"
    IsLayout w.toList ∧ w.toList.getLast? = some '\n' ∧
      parse "x =" = .error (.badSyntax ⟨3, ⟨1, 4⟩, [.product], []⟩) ∧
      (∃ e', parse (w ++ "x =") = .error (.badSyntax e') ∧ e'.place = ⟨3, 4⟩ ∧
        e'.expected = [.product] ∧ e'.detail = "expected multiplicative") ∧
      parse "\x7d" = .error (.badSyntax ⟨0, ⟨1, 1⟩, [.program], []⟩) ∧
      ∃ e', parse (w ++ "\x7d") = .error (.badSyntax e') ∧ e'.place = ⟨3, 1⟩ ∧ ∃ fn,
        e'.expected = (Asked.statement true false fn).rules ∧
          e'.detail = "expected " ++ enumerate (e'.expected.map Rule.label) := by
  intro w
  have hw : IsLayout w.toList := by
    have htext : w.toList = '/' :: '/' :: [' ', 'c'] ++ '\n' :: ['\t', '\n'] := by decide +kernel
    rw [htext]
    exact .comment (by simp [isLineBreak]) rfl (.blank rfl (.blank rfl .nil))
  have hline : w.toList.getLast? = some '\n' := by decide +kernel
  have hcount : w.toList.count '\n' = 2 := by decide +kernel
  have hx : parse "x =" = .error (.badSyntax ⟨3, ⟨1, 4⟩, [.product], []⟩) := by decide +kernel
  have hbrace : parse "\x7d" = .error (.badSyntax ⟨0, ⟨1, 1⟩, [.program], []⟩) := by decide +kernel
  obtain ⟨e, he, hplace, hsame, -⟩ := parse_error_shift hw hline hx
  obtain ⟨e', he', hplace', -, hfirst⟩ := parse_error_shift hw hline hbrace
  rw [hcount] at hplace hplace'
  exact ⟨hw, hline, hx, ⟨e, he, hplace, hsame (by decide)⟩, hbrace, e', he', hplace',
    (hfirst rfl).2⟩

end IntScript
