import IntScript.Proofs.Grammar.Standing

/-!
# What is expected could stand there

* `Stands.opens`, `Stands.accepts` : where a rule can stand, the text that ends there goes on with a
  match of the rule in one that is accepted;
* `recorded_of_recognise` : the rules that a syntax error names can stand at its place;
* `parse_error_truthful` : they could have stood there.
-/

namespace IntScript

variable {text : List Char} {s : String} {r : Rule} {c : Cursor} {f : Furthest Rule}

theorem Stuck.opens (h : Stuck text c) (hr : r ∈ exprRules) :
    Open r.phrase (lexemes (text.take c.offset)) := by
  have hatom : Open (Derives .atom) (lexemes (text.take c.offset)) :=
    h.ends.mono fun _ _ _ => .single
  cases r
  case disjunction | conjunction | equality | relation | sum | product => exact h.ends
  case call | literal => exact hatom
  case identifier => exact hatom.mono fun _ _ _ => derives_of_isIdent
  case callee => exact hatom.complete [')'] fun _ _ _ => derives_of_isCallee
  all_goals exact absurd hr (by decide)

/-- The text that ends where the rule can stand goes on with what the rule matches. -/
theorem Stands.opens (h : Stands text r c) (hr : r ≠ .endOfInput) :
    Open r.phrase (lexemes (text.take c.offset)) := by
  by_cases hp : r = .program
  · subst hp
    obtain rfl : c = .start text := h
    refine ⟨[], fun ls (hls : ls = []) _ => ?_⟩
    rw [hls, show text.take (Cursor.start text).offset = [] from rfl, lexemes_nil]
    exact .nil
  · rcases h.awaits_or_stuck hp hr with h | ⟨h, hr⟩
    · exact h.ends
    · exact h.opens hr

/-! ## Texts that are accepted -/

/-- The text in front of a place where the rule can stand goes on with a match of it. -/
theorem Stands.accepts (h : Stands s.toList r c) (hr : r ≠ .endOfInput) : ∃ u : String,
    ∀ e, parse (String.ofList (s.toList.take c.offset) ++ "\n" ++ r.sample ++ u) ≠
      .error (.badSyntax e) := by
  obtain ⟨w, hw⟩ := h.opens hr
  refine ⟨"\n" ++ String.ofList w, ?_⟩
  have htext : (String.ofList (s.toList.take c.offset) ++ "\n" ++ r.sample ++
      ("\n" ++ String.ofList w)).toList =
        s.toList.take c.offset ++ '\n' :: (r.sample.toList ++ '\n' :: w) := by
    simp [String.toList_append]
  rw [parse, htext]
  have hl := linked_lexemes (s.toList.take c.offset ++ '\n' :: (r.sample.toList ++ '\n' :: w))
  refine accepts_of_derives ?_
  rw [lexemes_append_line rfl, lexemes_append_line rfl, ← List.append_assoc] at hl ⊢
  exact hw _ r.phrase_sample hl

/-- The text in front of a place where the end can stand. -/
theorem Stands.accepts_end (h : Stands s.toList .endOfInput c) :
    ∀ e, parse (String.ofList (s.toList.take c.offset)) ≠ .error (.badSyntax e) := by
  rw [parse, String.toList_ofList]
  exact accepts_of_derives h.2

/-- The text in front of a place where any rule can stand is the beginning of one that is
accepted. -/
theorem Stands.accepts_beginning (h : Stands s.toList r c) : ∃ after : String,
    ∀ e, parse (String.ofList (s.toList.take c.offset) ++ after) ≠ .error (.badSyntax e) := by
  by_cases hr : r = .endOfInput
  · subst hr
    refine ⟨"", ?_⟩
    rw [String.append_empty]
    exact h.accepts_end
  · obtain ⟨u, hu⟩ := h.accepts hr
    exact ⟨"\n" ++ r.sample ++ u, by simpa only [String.append_assoc] using hu⟩

/-! ## Errors -/

/-- The rules that a failure names can stand at its place. -/
theorem recorded_of_recognise (h : recognise text = .failed f) : Recorded (Stands text) f := by
  have hstart : Stands text .program (.start text) := rfl
  have hended : (recognise text).ended? = some (none, f) := by rw [h]; rfl
  obtain ⟨t, rfl, htries⟩ := Grammar.tries_of_run hended
  exact htries.recorded (fun r c hr ha => hr.keeps ha) rfl rfl hstart (.empty hstart)

/-- **Truthful errors**: a syntax error names the line and the column of its place, and nothing that
must not stand there. For each rule that it says was expected, the text in front of the place goes
on with a match of that rule in a text that is accepted, and if the end was expected, the text in
front is accepted. In any case, that text is the beginning of one that is. -/
theorem parse_error_truthful {s : String} {e : SyntaxError}
    (h : parse s = .error (.badSyntax e)) :
    let before := String.ofList (s.toList.take e.offset)
    e.place = Place.ofOffset s.toList e.offset ∧ e.unexpected = [] ∧
      (∀ r ∈ e.expected, r ≠ .endOfInput → ∃ t u : String, r.matchesWhole t.toList = true ∧
        ∀ e', parse (before ++ "\n" ++ t ++ u) ≠ .error (.badSyntax e')) ∧
      (.endOfInput ∈ e.expected → ∀ e', parse before ≠ .error (.badSyntax e')) ∧
      ∃ after : String, ∀ e', parse (before ++ after) ≠ .error (.badSyntax e') := by
  intro before
  obtain ⟨f, hf, rfl⟩ := recognise_of_badSyntax h
  have hrec := recorded_of_recognise hf
  have hexpected : ∀ r ∈ (syntaxError s.toList f).expected, ∃ c, Stands s.toList r c ∧
      c.offset = f.offset := fun r hr => by
    rw [syntaxError, List.mem_filter, decide_eq_true_eq] at hr
    exact hrec.expected r hr.2
  have hbefore : ∀ c : Cursor, c.offset = f.offset →
      before = String.ofList (s.toList.take c.offset) := fun c hc => by
    rw [hc]
    rfl
  refine ⟨rfl, ?unexpected, fun r hr hne => ?rule, fun hr => ?theEnd, ?beginning⟩
  case unexpected =>
    rw [syntaxError, hrec.unexpected]
    simp
  case rule =>
    obtain ⟨c, hc, hoffset⟩ := hexpected r hr
    obtain ⟨u, hu⟩ := hc.accepts hne
    exact ⟨r.sample, u, r.matchesWhole_sample, hbefore c hoffset ▸ hu⟩
  case theEnd =>
    obtain ⟨c, hc, hoffset⟩ := hexpected .endOfInput hr
    exact hbefore c hoffset ▸ hc.accepts_end
  case beginning =>
    obtain ⟨r, c, hc, hoffset⟩ := hrec.place
    exact hbefore c hoffset ▸ hc.accepts_beginning

/-- Behind a conditional, in front of what is only the beginning of an alternative. -/
theorem parse_error_truthful_else :
    let s := "if (a) {}\n else"
    let expected : List Rule := [.endOfInput, .loop, .conditional, .product, .identifier, .funWord,
      .varWord, .returnWord]
    parse s = .error (.badSyntax ⟨11, ⟨2, 2⟩, expected, []⟩) ∧
      (∀ e', parse "if (a) {}\n " ≠ .error (.badSyntax e')) ∧
      ∀ r ∈ expected, r ≠ .endOfInput → ∃ t u : String, r.matchesWhole t.toList = true ∧
        ∀ e', parse ("if (a) {}\n " ++ "\n" ++ t ++ u) ≠ .error (.badSyntax e') := by
  intro s expected
  have h : parse s = .error (.badSyntax ⟨11, ⟨2, 2⟩, expected, []⟩) := by decide +kernel
  have hbefore : String.ofList (s.toList.take 11) = "if (a) {}\n " := by decide +kernel
  obtain ⟨-, -, hrules, hend, -⟩ := parse_error_truthful h
  rw [hbefore] at hrules hend
  exact ⟨h, hend (by decide), hrules⟩

end IntScript
