import IntScript.Proofs.Syntax.Canonical
import IntScript.Proofs.Syntax.Complete
import IntScript.Proofs.Syntax.Sound

/-!
# The parser accepts the documented grammar

* `Tokenisable` : a text of the characters that tokens consist of;
* `parse_accepts_iff` : the texts without a syntax error are those of the documented grammar;
* `parse_reads` : what is parsed has been read as that.
-/

namespace IntScript

variable {text : List Char}

/-- Each character of the text belongs to layout or to a token. -/
def Tokenisable (text : List Char) : Prop := ∀ l ∈ lexemes text, ∀ c, l.token ≠ .other c

theorem token_ne_other_names (ps : List String) :
    ∀ l ∈ Lexeme.names ps, ∀ c, l.token ≠ .other c := by
  induction ps using Lexeme.names.induct with
  | case1 | case2 => simp [Lexeme.names]
  | case3 x y rest ih => simpa [Lexeme.names] using ih

theorem Derives.token_ne_other {p : Phrase} {ls : List Lexeme} (h : Derives p ls) :
    ∀ l ∈ ls, ∀ c, l.token ≠ .other c := by
  induction h with
  | @function f ps =>
    have hps := token_ne_other_names ps
    simp_all [Lexeme.inParens, Lexeme.inBraces, or_imp]
  | _ => simp_all [Lexeme.inParens, Lexeme.inBraces, or_imp]

/-- A text without a syntax error is a block of the documented grammar. -/
theorem derives_of_parseText (h : ∀ e, parseText text ≠ .error (.badSyntax e)) :
    Derives .block (lexemes text) := by
  obtain ⟨o, ho, hp⟩ := exists_found_recognise text
  cases hr : recognise text with
  | matched d ns f =>
    rw [hr] at ho
    cases ho
    exact derives_of_parses hp
  | failed f =>
    refine absurd ?_ (h (syntaxError text f))
    unfold parseText
    rw [hr]
  | exhausted => rw [hr] at ho; cases ho

/-- A block of the documented grammar is read, and parsed as what it is read as. -/
theorem exists_reads (h : Derives .block (lexemes text)) :
    ∃ vs, Reads .block (lexemes text) vs ∧ parseText text = vs := by
  obtain ⟨vs, hvs⟩ := h.reads (linked_lexemes text)
  exact ⟨vs, hvs, parseText_of_reads hvs⟩

/-- A text has a syntax error, or it is read and parsed as that. -/
theorem badSyntax_or_reads (text : List Char) :
    (∃ e, parseText text = .error (.badSyntax e)) ∨
      ∃ vs, Reads .block (lexemes text) vs ∧ parseText text = vs := by
  by_cases h : ∃ e, parseText text = .error (.badSyntax e)
  · exact .inl h
  · exact .inr (exists_reads (derives_of_parseText fun e he => h ⟨e, he⟩))

/-- A text that is read has no syntax error. -/
theorem accepts_of_derives (h : Derives .block (lexemes text)) (e : SyntaxError) :
    parseText text ≠ .error (.badSyntax e) := by
  intro he
  obtain ⟨vs, hvs, hp⟩ := exists_reads h
  obtain ⟨ds, hds⟩ := hvs.fits _ (hp.symm.trans he)
  cases hds

/-- A syntax error tells where the recogniser has failed. -/
theorem recognise_of_badSyntax {e : SyntaxError} (h : parseText text = .error (.badSyntax e)) :
    ∃ f, recognise text = .failed f ∧ e = syntaxError text f := by
  obtain ⟨o, ho, hp⟩ := exists_found_recognise text
  cases hr : recognise text with
  | matched d ns f =>
    rw [hr] at ho
    cases ho
    exact absurd h (accepts_of_derives (derives_of_parses hp) e)
  | failed f =>
    unfold parseText at h
    rw [hr] at h
    cases h
    exact ⟨f, rfl, rfl⟩
  | exhausted => rw [hr] at ho; cases ho

/-- **Acceptance**: a text has no syntax error if and only if it can be cut into tokens and these
are a block of the documented grammar. -/
theorem parse_accepts_iff (s : String) :
    (∀ e, parse s ≠ .error (.badSyntax e)) ↔
      Tokenisable s.toList ∧ Derives .block (lexemes s.toList) := by
  constructor
  · intro h
    have hd : Derives .block (lexemes s.toList) := derives_of_parseText h
    exact ⟨hd.token_ne_other, hd⟩
  · rintro ⟨-, hd⟩ e
    exact accepts_of_derives hd e

/-- What is parsed has been read as that. -/
theorem parse_reads {s : String} {b : Block} (h : parse s = .ok b) :
    Reads .block (lexemes s.toList) (.ok b) := by
  have hd : Derives .block (lexemes s.toList) := by
    refine derives_of_parseText fun e he => ?_
    rw [parse, he] at h
    cases h
  obtain ⟨vs, hvs, hp⟩ := exists_reads hd
  rw [parse, hp] at h
  exact h ▸ hvs

end IntScript
