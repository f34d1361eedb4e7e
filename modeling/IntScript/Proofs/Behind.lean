import IntScript.Proofs.Failure.Programs
import IntScript.Proofs.Grammar.Takes
import IntScript.Proofs.Prefix

/-!
# Syntax errors lie behind what is accepted

What stands behind a text on lines of its own can change how the text is read, but not where the
recogniser gets to.

* `le_offset_of_recognise` : the statements of a text end in front of the place of its error;
* `length_le_offset` : a place where the lexemes are among those of the later lines is behind the
  earlier ones;
* `parse_error_behind` : the place of a syntax error is behind any accepted text in front of it.
-/

namespace IntScript

open Peg

variable {text : List Char} {f : Furthest Rule}

/-- The statements of a text with an error end, with the layout behind them, at the place of the
error or in front of it. -/
theorem le_offset_of_recognise (h : recognise text = .failed f) : ∃ d,
    grammar.Reaches false (.rule .block) (grammar.afterLayout false (.start text)) d ∧
      (grammar.afterLayout false d).offset ≤ f.offset := by
  obtain ⟨d, t, htries, hends, rfl⟩ := exists_tries_of_recognise h
  exact ⟨d, htries.reaches, hends.le_offset.trans (le_offset_reported d t)⟩

/-- Where no layout is left and the lexemes are among those of the later lines, the earlier lines
are left behind. -/
theorem length_le_offset {before after : List Char} {x : Char} {n : Nat}
    (hx : isLineBreak x = true) (hn : Layout.length ((before ++ x :: after).drop n) = 0)
    (hl : lexemes ((before ++ x :: after).drop n) <:+ lexemes after) : before.length ≤ n := by
  refine Nat.le_of_not_lt fun hlt => ?_
  rw [List.drop_append_of_le_length (Nat.le_of_lt hlt)] at hn hl
  have hne : before.drop n ≠ [] := by
    rw [ne_eq, List.drop_eq_nil_iff]
    omega
  have hlen := hl.length_le
  rw [lexemes_append_line hx, List.length_append] at hlen
  exact lexemes_ne_nil hn hne (List.eq_nil_of_length_eq_zero (by omega))

/-- Whatever the later lines are, the statements of a text go on at least as far as the earlier ones
are a block. -/
theorem length_le_of_block {before after : List Char} {x : Char} {d : Cursor}
    {vs : Except ParseError Block} (hx : isLineBreak x = true)
    (hvs : Reads .block (lexemes before) vs)
    (hd : grammar.Reaches false (.rule .block)
      (grammar.afterLayout false (.start (before ++ x :: after))) d) :
    before.length ≤ (grammar.afterLayout false d).offset := by
  have hc := afterLayout_settled (.start (before ++ x :: after))
  obtain ⟨ns, hd⟩ := hd
  have htakes : Takes (.rule .block) (lexemes before) := Takes.rule rfl hvs.taken
  obtain ⟨d', ⟨ns', hd'⟩, hl⟩ := htakes _ (lexemes after) hc
    (by rw [lexemes_afterLayout]; exact lexemes_append_line hx before after)
  obtain ⟨rfl, -⟩ := Prod.mk.inj (Option.some.inj (hd.unique hd'))
  have hspan : Spans (Derives .block) _ d := hd.means sound rfl rfl
  obtain ⟨ls, hls, -⟩ := hspan hc
  obtain ⟨n, hn⟩ := hls.layout.behind.advance_eq
  have hsettled := afterLayout_settled d
  rw [← lexemes_afterLayout d] at hl
  rw [hn] at hsettled hl ⊢
  rw [Cursor.advance, Cursor.start, Nat.zero_add]
  exact length_le_offset hx hsettled hl

/-- **Behind**: when an accepted text goes on with further lines and the whole has a syntax error, the
place of the error is not inside the accepted text: it lies at its end or behind it, so at the
earliest on its last line. -/
theorem parse_error_behind {a x : String} {e : SyntaxError}
    (ha : ∀ e, parse a ≠ .error (.badSyntax e))
    (hx : parse (a ++ "\n" ++ x) = .error (.badSyntax e)) :
    a.length ≤ e.offset ∧ a.toList.count '\n' + 1 ≤ e.place.line := by
  have htext : (a ++ "\n" ++ x).toList = a.toList ++ '\n' :: x.toList := by
    simp [String.toList_append]
  obtain ⟨f, hf, rfl⟩ := recognise_of_badSyntax hx
  rw [htext] at hf ⊢
  obtain ⟨vs, hvs, -⟩ := exists_reads (derives_of_parseText ha)
  obtain ⟨d, hd, hle⟩ := le_offset_of_recognise hf
  have hlen : a.toList.length ≤ f.offset := (length_le_of_block rfl hvs hd).trans hle
  refine ⟨hlen, Nat.succ_le_succ ?_⟩
  have hprefix : a.toList <+: (a.toList ++ '\n' :: x.toList).take f.offset := by
    rw [List.take_append, List.take_of_length_le hlen]
    exact List.prefix_append _ _
  exact hprefix.sublist.count_le '\n'

/-- What stands on the second line is first taken for the initialiser of the declaration. -/
theorem parse_error_behind_declaration :
    let e : SyntaxError := ⟨7, ⟨2, 2⟩, [.product], []⟩
    parse "var x" = .ok [.var "x" none] ∧
      parse ("var x" ++ "\n" ++ "== 1") = .error (.badSyntax e) ∧
      "var x".length ≤ e.offset ∧ "var x".toList.count '\n' + 1 ≤ e.place.line := by
  intro e
  have ha : parse "var x" = .ok [.var "x" none] := by decide +kernel
  have hx : parse ("var x" ++ "\n" ++ "== 1") = .error (.badSyntax e) := by decide +kernel
  exact ⟨ha, hx, parse_error_behind (fun e' => by rw [ha]; nofun) hx⟩

end IntScript
