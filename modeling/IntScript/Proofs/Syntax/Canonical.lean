import IntScript.Proofs.Syntax.Reading

/-!
# Every derivation has a reading

The documented grammar leaves open where an expression ends: a minus sign can begin the next
statement or go on with the expression, and a bracket joined to a name can be either as well. The
parser always goes on. What is left of the next statement then goes on with it too, so nothing of
the text is lost.

* `Reads.absorb` : an expression takes what it can of the statements behind it;
* `Derives.reads` : a text of the documented grammar has a reading.
-/

namespace IntScript

open Lexeme

/-- The lexemes begin with an opening bracket. -/
def StartsParen (ls : List Lexeme) : Prop := ∃ rest, ls = ⟨.openParen, false⟩ :: rest

variable {ls ls' post rest t : List Lexeme} {v : Except ParseError Expr}
  {vs : Except ParseError Block}

theorem Linked.left (h : Linked (ls ++ ls')) (hn : ¬StartsParen ls') : Linked ls := by
  intro pre s post hls
  obtain ⟨rest, hr⟩ := h pre s (post ++ ls') (by rw [hls]; simp)
  cases post with
  | nil => exact absurd ⟨rest, hr⟩ hn
  | cons l post => exact ⟨post, by rw [(List.cons.inj hr).1]⟩

theorem Linked.startsParen {pre : List Lexeme} {f : String}
    (h : Linked (pre ++ [⟨.word f, true⟩] ++ post)) : StartsParen post :=
  h pre f post (by simp)

namespace Reads

/-- An operand that begins with an operator is a negative literal. -/
theorem negative_of_op {o : Op} {j : Bool} (h : Reads .operand ls v)
    (hls : ls = ⟨.op o, j⟩ :: rest) : ∃ ds, IsNumber ds ∧ rest = [⟨.number ds, false⟩] := by
  cases h with
  | @negative ds hd =>
    cases hls
    exact ⟨ds, hd, rfl⟩
  | name | number | bracket | call => simp [inParens] at hls

/-- An operand that begins with a bracket is a bracketed expression. -/
theorem bracket_of_paren (h : Reads .operand ls v) (hls : ls = ⟨.openParen, false⟩ :: rest) :
    ∃ ls' w, ls = inParens ls' ∧ Reads (.level 0) ls' w := by
  cases h with
  | bracket h => exact ⟨_, _, rfl, h⟩
  | name | number | negative | call => simp at hls

/-- A block that begins with an operator or a bracket begins with an expression, and that with an
operand. -/
theorem split_block (h : Reads .block rest vs) (hr : StartsOp rest ∨ StartsParen rest) :
    ∃ l as t rest' w vs', rest = l :: as ++ t ++ rest' ∧ Reads .operand (l :: as) w ∧ Tail t ∧
      Reads .block rest' vs' ∧ ¬StartsOp rest' := by
  cases h with
  | nil => simp [StartsOp, StartsParen] at hr
  | cons h hs hn =>
    cases h with
    | expr h =>
      obtain ⟨a, t, w, rfl, ha, ht⟩ := h.lead
      obtain ⟨l, as, rfl, -⟩ := ha.startsExpr_operand
      exact ⟨l, as, t, _, w, _, rfl, ha, ht, hs, hn.resolve_left (by decide)⟩
    | function | declare | define | loop | ifThen | ifElse | ret | assign =>
      simp [StartsOp, StartsParen] at hr

end Reads

/-- What there is to read in a phrase of the documented grammar. An expression that ends with a name
joined to a bracket is still to be gone on with by that bracket; a statement is read with the block
behind it; all but expressions are linked in themselves. -/
def Readable : Phrase → List Lexeme → Prop
  | .atom, ls => (∃ v, Reads .operand ls v) ∨ ∃ f, IsName f ∧ ls = [⟨.word f, true⟩]
  | .expr, ls => (∃ v, Reads (.level 0) ls v) ∨ ∃ pre f, IsName f ∧ ls = pre ++ [⟨.word f, true⟩] ∧
    ∀ a w, Reads .operand a w → ∃ u, Reads (.level 0) (pre ++ a) u
  | .items, ls => Linked ls → ∃ vs, Reads .items ls vs
  | .args, ls => Linked ls → ∃ vs, Reads .args ls vs
  | .stmt, ls => ∀ rest vs, Reads .block rest vs → Linked (ls ++ rest) →
    ∃ vs', Reads .block (ls ++ rest) vs'
  | .block, ls => Linked ls → ∃ vs, Reads .block ls vs

namespace Readable

/-- An expression without a joined name at its end is read as a whole. -/
theorem expr_linked (h : Readable .expr ls) (hl : Linked ls) : ∃ v, Reads (.level 0) ls v := by
  rcases h with h | ⟨pre, f, -, rfl, -⟩
  · exact h
  · obtain ⟨rest, hr⟩ := hl pre f [] rfl
    cases hr

/-- An expression takes what it can of the statements behind it. -/
theorem absorb (h : Readable .expr ls) (hb : Reads .block rest vs) (hl : Linked (ls ++ rest)) :
    ∃ ls' rest' v vs', ls ++ rest = ls' ++ rest' ∧ Reads (.level 0) ls' v ∧
      Reads .block rest' vs' ∧ ¬StartsOp rest' := by
  rcases h with ⟨v, h⟩ | ⟨pre, f, hf, rfl, hpre⟩
  · by_cases hr : StartsOp rest
    · obtain ⟨l, as, t, rest', w, vs', rfl, ha, ht, hs, hn⟩ := hb.split_block (.inl hr)
      obtain ⟨o, j, xs, hx⟩ := hr
      cases (List.cons.inj hx).1
      -- the sign of the next statement's literal becomes an operator
      obtain ⟨ds, hd, rfl⟩ := ha.negative_of_op rfl
      obtain ⟨u, hu⟩ := h.push (o := o) (j := j) (.number hd)
      obtain ⟨u', hu'⟩ := hu.push_tail ht
      exact ⟨_, rest', u', vs', by simp, hu', hs, hn⟩
    · exact ⟨ls, rest, v, vs, rfl, h, hb, hr⟩
  · have hr := hl.startsParen
    obtain ⟨l, as, t, rest', w, vs', rfl, ha, ht, hs, hn⟩ := hb.split_block (.inr hr)
    obtain ⟨xs, hx⟩ := hr
    cases (List.cons.inj hx).1
    -- the brackets of the next statement become the argument of a call
    obtain ⟨ls', w', hls, h'⟩ := ha.bracket_of_paren rfl
    rw [hls]
    obtain ⟨u, hu⟩ := hpre _ _ (.call hf (.someArgs (.oneItem h')))
    obtain ⟨u', hu'⟩ := hu.push_tail ht
    exact ⟨_, rest', u', vs', by simp, hu', hs, hn⟩

/-- A statement that ends with an expression takes what that takes. -/
theorem open_stmt (pre : List Lexeme) (h : Readable .expr ls)
    (hs : ∀ ls' v, Reads (.level 0) ls' v → ∃ w, Reads (.stmt false) (pre ++ ls') w) :
    Readable .stmt (pre ++ ls) := by
  intro rest vs hb hl
  rw [List.append_assoc] at hl
  obtain ⟨ls', rest', v, vs', hls, he, hb', hn⟩ := h.absorb hb hl.right
  obtain ⟨w, hw⟩ := hs ls' v he
  rw [List.append_assoc, hls, ← List.append_assoc]
  exact ⟨_, .cons hw hb' (.inr hn)⟩

/-- A statement that no expression ends stands for itself. -/
theorem closed_stmt {w : Except ParseError Stmt} (h : Reads (.stmt true) ls w) :
    Readable .stmt ls :=
  fun _ _ hb _ => ⟨_, .cons h hb (.inl rfl)⟩

end Readable

theorem not_startsParen_cons {l : Lexeme} (h : l.token ≠ .openParen) :
    ¬StartsParen (l :: post) := by
  rintro ⟨rest, hr⟩
  exact h (by rw [(List.cons.inj hr).1])

/-- What stands between brackets or braces is linked in itself. -/
theorem Linked.inner {l r : Lexeme} (h : Linked (l :: ls ++ [r] ++ post))
    (hr : r.token ≠ .openParen) : Linked (ls ++ r :: post) ∧ Linked ls := by
  have h' : Linked (ls ++ r :: post) := by simpa using h.tail
  exact ⟨h', h'.left (not_startsParen_cons hr)⟩

/-- Each phrase of the documented grammar is readable. -/
theorem Derives.readable {p : Phrase} (h : Derives p ls) :
    ∀ post, Linked (ls ++ post) → Readable p ls := by
  induction h with
  | @name x j hx =>
    intro post _
    cases j with
    | true => exact .inr ⟨x, hx, rfl⟩
    | false => exact .inl ⟨_, .name hx⟩
  | number hd => exact fun _ _ => .inl ⟨_, .number hd⟩
  | negative hd => exact fun _ _ => .inl ⟨_, .negative hd⟩
  | bracket _ ih =>
    intro post hl
    obtain ⟨hin, hls⟩ := hl.inner (by decide)
    obtain ⟨v, hv⟩ := (ih _ hin).expr_linked hls
    exact .inl ⟨_, .bracket hv⟩
  | call hf _ ih =>
    intro post hl
    obtain ⟨hin, hls⟩ := hl.tail.inner (by decide)
    obtain ⟨vs, hvs⟩ := ih _ hin hls
    exact .inl ⟨_, .call hf hvs⟩
  | single _ ih =>
    intro post hl
    rcases ih post hl with ⟨v, hv⟩ | ⟨f, hf, rfl⟩
    · exact .inl ⟨v, .of_operand hv (by decide)⟩
    · exact .inr ⟨[], f, hf, rfl, fun a w ha => ⟨w, .of_operand ha (by decide)⟩⟩
  | @operation o j ls ls' _ _ ihl ihr =>
    intro post hl
    rw [List.append_assoc, List.cons_append] at hl
    obtain ⟨v, hv⟩ := (ihl _ hl).expr_linked (hl.left (not_startsParen_cons (by simp)))
    rcases ihr post hl.right.tail with ⟨w, hw⟩ | ⟨f, hf, rfl⟩
    · exact .inl (hv.push hw)
    · refine .inr ⟨ls ++ [⟨.op o, j⟩], f, hf, by simp, fun a w ha => ?_⟩
      simpa using hv.push (o := o) (j := j) ha
  | oneItem _ ih =>
    intro post hl hls
    obtain ⟨v, hv⟩ := (ih post hl).expr_linked hls
    exact ⟨_, .oneItem hv⟩
  | moreItems _ _ ih ihs =>
    intro post hl hls
    rw [List.append_assoc, List.cons_append] at hl
    obtain ⟨v, hv⟩ := (ih _ hl).expr_linked (hl.left (not_startsParen_cons (by simp)))
    obtain ⟨vs, hvs⟩ := ihs post hl.right.tail hls.right.tail
    exact ⟨_, .moreItems hv hvs⟩
  | noArgs => exact fun _ _ _ => ⟨_, .noArgs⟩
  | someArgs _ ih =>
    intro post hl hls
    obtain ⟨vs, hvs⟩ := ih post hl hls
    exact ⟨_, .someArgs hvs⟩
  | function hf hp _ ih =>
    intro post hl
    rw [List.append_assoc] at hl
    obtain ⟨hin, hls⟩ := hl.right.inner (by decide)
    obtain ⟨w, hw⟩ := ih _ hin hls
    exact Readable.closed_stmt (.function hf hp hw)
  | declare hx => exact fun _ _ => Readable.closed_stmt (.declare hx)
  | define hx _ ih =>
    intro post hl
    exact Readable.open_stmt [_, _, _] (ih post hl.tail.tail.tail) fun _ _ h =>
      ⟨_, .define hx h⟩
  | loop _ _ ihc ihb =>
    intro post hl
    rw [List.append_assoc] at hl
    obtain ⟨hinc, hlc⟩ := hl.tail.inner (by decide)
    obtain ⟨hinb, hlb⟩ := hl.right.inner (by decide)
    obtain ⟨v, hv⟩ := (ihc _ hinc).expr_linked hlc
    obtain ⟨w, hw⟩ := ihb _ hinb hlb
    exact Readable.closed_stmt (.loop hv hw)
  | ifThen _ _ ihc ihb =>
    intro post hl
    rw [List.append_assoc] at hl
    obtain ⟨hinc, hlc⟩ := hl.tail.inner (by decide)
    obtain ⟨hinb, hlb⟩ := hl.right.inner (by decide)
    obtain ⟨v, hv⟩ := (ihc _ hinc).expr_linked hlc
    obtain ⟨w, hw⟩ := ihb _ hinb hlb
    exact Readable.closed_stmt (.ifThen hv hw)
  | ifElse _ _ _ ihc ihb ihb' =>
    intro post hl
    rw [List.append_assoc, List.append_assoc] at hl
    obtain ⟨hinc, hlc⟩ := hl.tail.inner (by decide)
    obtain ⟨hinb, hlb⟩ := hl.right.inner (by decide)
    obtain ⟨hinb', hlb'⟩ := hl.right.right.tail.inner (by decide)
    obtain ⟨v, hv⟩ := (ihc _ hinc).expr_linked hlc
    obtain ⟨w, hw⟩ := ihb _ hinb hlb
    obtain ⟨w', hw'⟩ := ihb' _ hinb' hlb'
    exact Readable.closed_stmt (.ifElse hv hw hw')
  | ret _ ih =>
    intro post hl
    exact Readable.open_stmt [_] (ih post hl.tail) fun _ _ h => ⟨_, .ret h⟩
  | assign hx _ ih =>
    intro post hl
    exact Readable.open_stmt [_, _] (ih post hl.tail.tail) fun _ _ h =>
      ⟨_, .assign hx h⟩
  | expr _ ih =>
    intro post hl
    exact Readable.open_stmt [] (ih post hl) fun _ _ h => ⟨_, .expr h⟩
  | nil => exact fun _ _ _ => ⟨_, .nil⟩
  | cons _ _ ih ihs =>
    intro post hl hls
    rw [List.append_assoc] at hl
    obtain ⟨vs, hvs⟩ := ihs post hl.right hls.right
    exact ih _ hl _ vs hvs hls

/-- A text of the documented grammar has a reading. -/
theorem Derives.reads (h : Derives .block ls) (hl : Linked ls) :
    ∃ vs, Reads .block ls vs :=
  h.readable [] (by rwa [List.append_nil]) hl

end IntScript
