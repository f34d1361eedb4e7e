import IntScript.Proofs.Contents
import IntScript.Proofs.Prefix

/-!
# Programs one after the other

* `significant` : a text without the layout that it begins with;
* `Reads.head?_significant` : a program that begins with an operator begins with a minus sign;
* `Reads.append` : the statements of two programs are read one after the other, unless an operator
  joins them;
* `parse_append_line` : two programs with a line break between them are one.
-/

namespace IntScript

variable {ls ls' : List Lexeme} {text : List Char}

/-! ## How programs begin -/

/-- The text without the layout that it begins with. -/
def significant (text : List Char) : List Char := text.drop (Layout.length text)

/-- Behind the layout, a text goes on with the characters of its first token. -/
theorem significant_of_lexemes {l : Lexeme} (h : lexemes text = l :: ls) :
    ∃ after, significant text = l.token.text ++ after := by
  rw [← lexemes_drop_layout] at h
  obtain ⟨-, -, after, -, -, htext, -, -⟩ := cut_of_lexemes (layout_drop_layout text) h
  exact ⟨after, htext⟩

/-- The only operator that a block can begin with is the sign of a literal. -/
theorem Reads.eq_sub_of_op {vs : Except ParseError Block} {o : Op} {j : Bool}
    (h : Reads .block ls vs) (hls : ls = ⟨.op o, j⟩ :: ls') : o = .sub := by
  cases h with
  | nil => cases hls
  | cons h =>
    obtain ⟨l, rest, rfl, hl⟩ := h.startsStmt
    cases hls
    cases o with
    | sub => rfl
    | _ => cases hl

/-- A program that begins with an operator begins with a minus sign. -/
theorem Reads.head?_significant {vs : Except ParseError Block} (h : Reads .block (lexemes text) vs)
    (hop : StartsOp (lexemes text)) : (significant text).head? = some '-' := by
  obtain ⟨o, j, rest, hls⟩ := hop
  obtain rfl := h.eq_sub_of_op hls
  obtain ⟨after, hafter⟩ := significant_of_lexemes hls
  rw [hafter]
  rfl

/-! ## Statements one after the other -/

theorem StartsOp.of_append (h : StartsOp (ls ++ ls')) (hop : ¬StartsOp ls') : StartsOp ls := by
  cases ls with
  | nil => exact absurd h hop
  | cons l ls =>
    obtain ⟨o, j, rest, heq⟩ := h
    exact ⟨o, j, ls, by rw [(List.cons.inj heq).1]⟩

/-- If the phrase `a` is a block, then with `ls'` behind its lexemes `ls` they are read as the
statements of `a` and those of `b`. -/
def Kind.GoesOn (ls ls' : List Lexeme) (b : Block) : (k : Kind) → k.Value → Prop
  | .block => fun a : List Stmt => Reads .block (ls ++ ls') (.ok (a ++ b))
  | _ => fun _ => True

/-- A statement ends in front of another program where it ends in front of nothing. -/
theorem Reads.goesOn {b : Block} (h' : Reads .block ls' (.ok b)) (hop : ¬StartsOp ls') {k : Kind}
    {v : Except ParseError k.Value} (h : Reads k ls v) : ∀ a, v = .ok a → k.GoesOn ls ls' b a := by
  induction h with
  | nil =>
    intro a ha
    cases ha
    exact h'
  | @cons ends ls₁ ls₂ v vs h _ hn _ ih =>
    intro a ha
    obtain ⟨s, hs, ha⟩ := eq_ok_of_bind ha
    obtain ⟨rest, hrest, ha⟩ := eq_ok_of_bind ha
    cases hs
    cases hrest
    cases ha
    have hn' : ends = true ∨ ¬StartsOp (ls₂ ++ ls') :=
      hn.imp_right fun hn hop' => hn (hop'.of_append hop)
    change Reads .block (ls₁ ++ ls₂ ++ ls') _
    rw [List.append_assoc]
    exact .cons h (ih rest rfl) hn'
  | _ => exact fun _ _ => trivial

/-- The statements of two programs are read one after the other. -/
theorem Reads.append {a b : Block} (h : Reads .block ls (.ok a)) (h' : Reads .block ls' (.ok b))
    (hop : ¬StartsOp ls') : Reads .block (ls ++ ls') (.ok (a ++ b)) :=
  h'.goesOn hop h a rfl

/-- **Concatenation**: two programs with a line break between them are one program, with the
statements of the first one and then those of the second one, unless the second one begins with a
minus sign. -/
theorem parse_append_line {s t : String} {a b : Block} (hs : parse s = .ok a) (ht : parse t = .ok b)
    (hm : (significant t.toList).head? ≠ some '-') : parse (s ++ "\n" ++ t) = .ok (a ++ b) := by
  have hread := (parse_reads hs).append (parse_reads ht) fun hop =>
    hm ((parse_reads ht).head?_significant hop)
  refine parseText_of_reads ?_
  have htext : (s ++ "\n" ++ t).toList = s.toList ++ '\n' :: t.toList := by simp
  rw [htext, lexemes_append_line rfl]
  exact hread

/-- A declaration without a value and a comment, then a comment and a bracket: the comment ends with
its line, and the bracket belongs to the next statement. -/
theorem parse_append_line_bracket :
    let s := "if (a) {} var x // = 1"
    let t := "// f\n (y) 2 else_ // end"
    parse s = .ok [.ifThen (.ident "a") [], .var "x" none] ∧
      parse t = .ok [.expr (.ident "y"), .expr (.lit 2), .expr (.ident "else_")] ∧
      (significant t.toList).head? ≠ some '-' ∧
      parse (s ++ "\n" ++ t) = .ok [.ifThen (.ident "a") [], .var "x" none, .expr (.ident "y"),
        .expr (.lit 2), .expr (.ident "else_")] := by
  intro s t
  have hs : parse s = .ok [.ifThen (.ident "a") [], .var "x" none] := by decide +kernel
  have ht : parse t = .ok [.expr (.ident "y"), .expr (.lit 2), .expr (.ident "else_")] := by
    decide +kernel
  have hm : (significant t.toList).head? ≠ some '-' := by decide +kernel
  exact ⟨hs, ht, hm, parse_append_line hs ht hm⟩

/-- The sign of a literal would be taken for an operator. -/
example : parse "a\n-1" = .ok [.expr (.bin .sub (.ident "a") (.lit 1))] := by decide +kernel

end IntScript
