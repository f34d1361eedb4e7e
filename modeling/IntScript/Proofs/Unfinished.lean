import IntScript.Proofs.Expected
import IntScript.Proofs.Failure.Programs
import IntScript.Proofs.Grammar.Touch

/-!
# The end is expected where a program could end

* `le_offset_of_derives` : where a text that ends at the place of an error is a block, the statements
  of the whole text go on up to there;
* `endOfInput_mem_iff` : the end is reported just where the text in front is a block;
* `end_expected_iff` : the end of the text is expected just where the text so far is a program;
  elsewhere it is an unfinished one.
-/

namespace IntScript

open Peg Furthest

variable {text : List Char} {c d : Cursor} {t f : Furthest Rule}

/-- No block ends with the sign of an assignment. -/
theorem Stuck.not_derives (h : Stuck text c) :
    ¬Derives .block (lexemes (text.take c.offset)) := by
  obtain ⟨b, ls, hls, hrest, hc⟩ := h.behind
  rw [lexemes_take_equals hls hrest hc]
  intro hd
  obtain ⟨pre, l, heq, hl⟩ := hd.endsPhrase (by simp)
  obtain ⟨-, heq⟩ := List.append_inj' heq rfl
  cases heq
  cases hl

/-- Where a text that ends at the place of an error is a block, the statements of the whole text go
on up to there. -/
theorem le_offset_of_derives (hf : recognise text = .failed f) (hpos : 0 < f.offset)
    (hd : Derives .block (lexemes (text.take f.offset)))
    (hr : grammar.Reaches false (.rule .block) (grammar.afterLayout false (.start text)) d) :
    f.offset ≤ (grammar.afterLayout false d).offset := by
  obtain ⟨r, c, hstands, hc⟩ := (recorded_of_recognise hf).place
  rw [← hc] at hpos hd ⊢
  rcases hstands.boundary_or_stuck hpos with ⟨hsettled, ls, hls⟩ | hstuck
  · obtain ⟨e, he, hsuffix⟩ := exists_reaches_of_derives hls hd
    obtain ⟨ns, hr⟩ := hr
    obtain ⟨ns', he⟩ := he
    obtain ⟨rfl, -⟩ := Prod.mk.inj (Option.some.inj (hr.unique he))
    have hspan : Spans (Derives .block) _ d := hr.means sound rfl rfl
    obtain ⟨ls', hls', -⟩ := hspan (afterLayout_settled _)
    exact hls.offset_le_of_suffix hsettled hls'.layout hsuffix
  · exact absurd hd hstuck.not_derives

/-- Behind the beginning of a text, the end is reported just where the text in front is a block. -/
theorem endOfInput_mem_iff (hf : recognise text = .failed f) (hpos : 0 < f.offset) :
    .endOfInput ∈ f.expected ↔ Derives .block (lexemes (text.take f.offset)) := by
  have hrec := recorded_of_recognise hf
  constructor
  · intro hmem
    obtain ⟨c, hstands, hc⟩ := hrec.expected _ hmem
    rw [← hc]
    exact hstands.2
  · intro hd
    obtain ⟨d, t, htries, hends, rfl⟩ := exists_tries_of_recognise hf
    have hle := le_offset_of_derives hf hpos hd htries.reaches
    obtain ⟨a, -, hl, hend⟩ := hends.exists_lists
    rw [reported_of_pos hpos] at hle ⊢
    rw [offset_join] at hle
    exact (hl _).2 (hend.2 (by have := hends.le_offset; omega))

/-- **The end of a program**: behind its beginning, the end of a text is expected just where the text
so far is accepted by itself. Elsewhere it is not, but it goes on to a text that is. -/
theorem end_expected_iff {s : String} {e : SyntaxError} (h : parse s = .error (.badSyntax e))
    (hpos : 0 < e.offset) :
    let before := String.ofList (s.toList.take e.offset)
    (.endOfInput ∈ e.expected ↔ ∀ e', parse before ≠ .error (.badSyntax e')) ∧
      (.endOfInput ∉ e.expected → (∃ e', parse before = .error (.badSyntax e')) ∧
        ∃ after : String, ∀ e', parse (before ++ after) ≠ .error (.badSyntax e')) := by
  intro before
  obtain ⟨f, hf, rfl⟩ := recognise_of_badSyntax h
  have hbefore : before.toList = s.toList.take f.offset := String.toList_ofList
  have hiff : .endOfInput ∈ (syntaxError s.toList f).expected ↔
      ∀ e', parse before ≠ .error (.badSyntax e') := by
    have haccepts : Derives .block (lexemes before.toList) ↔
        ∀ e', parse before ≠ .error (.badSyntax e') :=
      ⟨accepts_of_derives, derives_of_parseText⟩
    rw [← haccepts, hbefore, ← endOfInput_mem_iff hf hpos, syntaxError, List.mem_filter,
      decide_eq_true_eq, and_iff_right (Rule.mem_all _)]
  refine ⟨hiff, fun hnot => ⟨?_, ?_⟩⟩
  · by_contra hno
    exact hnot (hiff.2 fun e' he' => hno ⟨e', he'⟩)
  · obtain ⟨r, c, hc, hoffset⟩ := (recorded_of_recognise hf).place
    have haccepts := hc.accepts_beginning
    rwa [hoffset] at haccepts

/-- An operand is missing, in a body that is not closed. -/
theorem end_expected_iff_brace :
    let s := "if (1) \x7b f(1) +"
    let e : SyntaxError := ⟨15, ⟨1, 16⟩, [.product], []⟩
    parse s = .error (.badSyntax e) ∧ 0 < e.offset ∧
      (.endOfInput ∈ e.expected ↔
        ∀ e', parse (String.ofList (s.toList.take e.offset)) ≠ .error (.badSyntax e')) ∧
      (∃ e', parse (String.ofList (s.toList.take e.offset)) = .error (.badSyntax e')) ∧
      ∃ after : String, ∀ e',
        parse (String.ofList (s.toList.take e.offset) ++ after) ≠ .error (.badSyntax e') := by
  intro s e
  have h : parse s = .error (.badSyntax e) := by decide +kernel
  obtain ⟨hiff, hunfinished⟩ := end_expected_iff h (by decide)
  exact ⟨h, by decide, hiff, hunfinished (by decide)⟩

end IntScript
