import IntScript.Proofs.Expected
import IntScript.Proofs.Failure.Programs

/-!
# What the messages of syntax errors say

* `syntaxError_expected` : the rules that a message lists are one of the combinations;
* `Place.ofOffset_eq_start` : only the beginning of a text is at its first column;
* `syntaxErrors_of_parse` : the one entry of a syntax error, and its message.
-/

namespace IntScript

variable {text : List Char} {a : Asked} {f : Furthest Rule} {n : Nat}

/-- A message lists the rules of a combination in their order. -/
theorem syntaxError_expected (text : List Char) (h : Lists f a) :
    (syntaxError text f).expected = a.rules := by
  rw [syntaxError, ← a.filter_rules]
  exact List.filter_congr fun r _ => by rw [decide_eq_decide]; exact h r

/-- Only the beginning of a text is at the first column of the first line. -/
theorem Place.ofOffset_eq_start (hne : text ≠ []) : Place.ofOffset text n = ⟨1, 1⟩ ↔ n = 0 := by
  constructor
  · intro h
    obtain ⟨hline, hcolumn⟩ := Place.mk.inj h
    have hbreak : '\n' ∉ (text.take n).reverse := by
      rw [List.mem_reverse, ← List.count_eq_zero]
      exact Nat.succ.inj hline
    have hall : (text.take n).reverse.takeWhile (· ≠ '\n') = (text.take n).reverse :=
      List.takeWhile_eq_self_iff.2 fun x hx => by
        rw [decide_eq_true_eq]
        rintro rfl
        exact hbreak hx
    have hlength := Nat.succ.inj hcolumn
    rw [hall, List.length_eq_zero_iff, List.reverse_eq_nil_iff, List.take_eq_nil_iff] at hlength
    exact hlength.resolve_right hne
  · rintro rfl
    rfl

theorem ne_nil_of_badSyntax {e : SyntaxError} (h : parseText text = .error (.badSyntax e)) :
    text ≠ [] := by
  rintro rfl
  exact accepts_of_derives (lexemes_nil ▸ .nil) e h

theorem unexpected_of_recognise (h : recognise text = .failed f) :
    (syntaxError text f).unexpected = [] := by
  rw [syntaxError, (recorded_of_recognise h).unexpected]
  simp

theorem SyntaxError.detail_expected {e : SyntaxError} (hu : e.unexpected = [])
    (he : e.expected ≠ []) :
    e.detail = "expected " ++ enumerate (e.expected.map Rule.label) := by
  obtain ⟨r, rs, hr⟩ := List.exists_cons_of_ne_nil he
  rw [detail, hu, hr]

end IntScript
