import IntScript.Proofs.Concatenation
import IntScript.Proofs.Eval.Arithmetic
import IntScript.Proofs.Eval.Calls

/-!
# A program for the greatest common divisor

A loop that replaces two numbers by the second one and the remainder of the first one by it, until the
second one is zero.

* `gcdSource` : the program as text (`parse_gcdSource`);
* `Division.gcd_mod` : the greatest common divisor of the two numbers stays the same;
* `Dividing`, `Divided` : what the loop keeps and what it ends with (`Run.dividing_step`,
  `Run.endsWith_gcd_loop`);
* `Run.endsWith_gcd_call` : what a call of the function comes to;
* `runCaptured_gcd` : what the program gives.
-/

namespace IntScript

open Lexeme

/-! ## The program -/

/-- The declaration of the function. -/
def gcdDeclaration : String :=
  "fun gcd(a, b) \x7b\n    while (b != 0) \x7b\n        var t = b\n        b = a % b\n" ++
    "        a = t\n    \x7d\n    return a\n\x7d"

/-- The line that returns what the function gives for two numbers. -/
def gcdReturn (a b : Int64) : String :=
  "return gcd(" ++ printedNumeral a ++ ", " ++ printedNumeral b ++ ")\n"

/-- The program for two numbers. -/
def gcdSource (a b : Int64) : String := gcdDeclaration ++ "\n" ++ gcdReturn a b

/-- The condition of its loop. -/
def gcdCondition : Expr := .bin .ne (.ident "b") (.lit 0)

/-- The body of its loop. -/
def gcdBody : Block :=
  [.var "t" (some (.ident "b")), .assign "b" (.bin .mod (.ident "a") (.ident "b")),
    .assign "a" (.ident "t")]

/-- The function that is declared. -/
def gcdFunction : FunDef := ⟨["a", "b"], [.loop gcdCondition gcdBody, .ret (.ident "a")]⟩

theorem toList_gcdReturn (a b : Int64) : (gcdReturn a b).toList =
    "return".toList ++ ' ' :: ("gcd".toList ++ '(' :: (Decimal.ofInt a.toInt ++
      ',' :: ' ' :: (Decimal.ofInt b.toInt ++ [')', '\n']))) := by
  simp [gcdReturn, printedNumeral]

theorem lexemes_gcdReturn (a b : Int64) : lexemes (gcdReturn a b).toList =
    ⟨.word "return", false⟩ :: ⟨.word "gcd", true⟩ ::
      inParens (numeral a ++ ⟨.comma, false⟩ :: numeral b) := by
  rw [toList_gcdReturn, lexemes_keyword (by decide), lexemes_joined_word (by decide),
    lexemes_numeral a (quiet_comma _)]
  simp [lexemes_numeral b (quiet_closeParen _), inParens]

theorem parse_gcdReturn (a b : Int64) :
    parse (gcdReturn a b) = .ok [.ret (.call "gcd" [.lit a, .lit b])] := by
  have ha : Reads (.level 0) (numeral a) (.ok (Expr.lit a)) :=
    .of_operand (reads_numeral a) (by decide)
  have hb : Reads (.level 0) (numeral b) (.ok (Expr.lit b)) :=
    .of_operand (reads_numeral b) (by decide)
  have hcall : Reads .operand _ (.ok (Expr.call "gcd" [.lit a, .lit b])) :=
    .call (by decide) (.someArgs (.moreItems ha (.oneItem hb)))
  have hret : Reads .block (lexemes (gcdReturn a b).toList ++ [])
      (.ok ([.ret (.call "gcd" [.lit a, .lit b])] : List Stmt)) := by
    rw [lexemes_gcdReturn]
    exact .cons (.ret (.of_operand hcall (by decide))) .nil (.inr nofun)
  rw [List.append_nil] at hret
  exact parseText_of_reads hret

theorem parse_gcdSource (a b : Int64) : parse (gcdSource a b) =
    .ok [.function "gcd" gcdFunction.params gcdFunction.body,
      .ret (.call "gcd" [.lit a, .lit b])] := by
  have hdeclaration : parse gcdDeclaration =
      .ok [.function "gcd" gcdFunction.params gcdFunction.body] := by decide +kernel
  refine parse_append_line hdeclaration (parse_gcdReturn a b) ?_
  -- the second line does not begin with a minus sign
  rw [toList_gcdReturn]
  change some 'r' ≠ some '-'
  decide

/-! ## The loop -/

/-- With the second number and the remainder, the greatest common divisor is the same. -/
theorem Division.gcd_mod (a b : Int64) : Nat.gcd b.toInt.natAbs (a % b).toInt.natAbs =
    Nat.gcd a.toInt.natAbs b.toInt.natAbs :=
  calc
    Nat.gcd b.toInt.natAbs (a % b).toInt.natAbs =
        Nat.gcd (a.toInt.natAbs % b.toInt.natAbs) b.toInt.natAbs := by
      rw [Int64.toInt_mod, Int.natAbs_tmod, Nat.gcd_comm]
    _ = Nat.gcd b.toInt.natAbs a.toInt.natAbs := (Nat.gcd_rec _ _).symm
    _ = Nat.gcd a.toInt.natAbs b.toInt.natAbs := Nat.gcd_comm _ _

/-- The variables hold the two numbers. -/
structure Vars.Holds (vars : Vars) (a b : Int64) : Prop where
  left : vars["a"]? = some a
  right : vars["b"]? = some b

theorem Vars.Holds.insert {vars : Vars} {a b : Int64} (h : vars.Holds a b) {x : String}
    (ha : x ≠ "a") (hb : x ≠ "b") (v : Int64) : Vars.Holds (vars.insert x v) a b :=
  ⟨(getElem?_insert_of_ne ha vars v).trans h.left, (getElem?_insert_of_ne hb vars v).trans h.right⟩

/-- The variables after an iteration. -/
def Vars.divided (vars : Vars) (a b : Int64) : Vars :=
  ((vars.insert "t" b).insert "b" (a % b)).insert "a" b

theorem Vars.holds_divided (vars : Vars) (a b : Int64) : (vars.divided a b).Holds b (a % b) where
  left := Std.ExtTreeMap.getElem?_insert_self
  right := (getElem?_insert_of_ne (by decide) _ _).trans Std.ExtTreeMap.getElem?_insert_self

/-- What the loop keeps, from the state `s` on: the variables hold two numbers with the greatest common
divisor `d`, and the second one has the absolute value `n`. -/
inductive Dividing {σ : Type} (s : State σ) (d : Nat) : Nat → State σ → Prop where
  | intro {vars : Vars} {a b : Int64} (h : vars.Holds a b)
    (hd : Nat.gcd a.toInt.natAbs b.toInt.natAbs = d) :
    Dividing s d b.toInt.natAbs { s with vars }

/-- What the loop ends with, from the state `s` on: the first number is the greatest common divisor
`d`, up to its sign. -/
inductive Divided {σ : Type} (s : State σ) (d : Nat) : State σ → Prop where
  | intro {vars : Vars} {g : Int64} (h : vars["a"]? = some g) (hd : g.toInt.natAbs = d) :
    Divided s d { s with vars }

namespace Run

variable {σ : Type} [Sink σ] {s t : State σ} {a b : Int64}

theorem endsWith_gcd_condition (h : s.vars.Holds a b) :
    EndsWith (expr gcdCondition).withFuel s (.done (ofBool (b ≠ 0)) s) :=
  endsWith_bin_of_some (endsWith_ident h.right) (endsWith_lit s 0) rfl

variable [OutputOnly σ]

/-- An iteration goes on with the second number and the remainder. -/
theorem endsWith_gcd_body (hs : s.result = none) (h : s.vars.Holds a b) (hb : b ≠ 0) :
    EndsWith (block gcdBody).withFuel s (.done () { s with vars := s.vars.divided a b }) := by
  have h₁ : Vars.Holds (s.vars.insert "t" b) a b := h.insert (by decide) (by decide) b
  have ha₂ : ((s.vars.insert "t" b).insert "b" (a % b))["a"]? = some a :=
    (getElem?_insert_of_ne (by decide) _ _).trans h₁.left
  have ht₂ : ((s.vars.insert "t" b).insert "b" (a % b))["t"]? = some b :=
    (getElem?_insert_of_ne (by decide) _ _).trans Std.ExtTreeMap.getElem?_insert_self
  have hmod : Op.apply .mod a b = some (a % b) := if_neg hb
  have hdefine : EndsWith (stmt (.var "t" (some (.ident "b")))).withFuel s
      (.done () { s with vars := s.vars.insert "t" b }) :=
    endsWith_define (endsWith_ident h.right) "t"
  have hrest : EndsWith (stmt (.assign "b" (.bin .mod (.ident "a") (.ident "b")))).withFuel
      { s with vars := s.vars.insert "t" b }
      (.done () { s with vars := (s.vars.insert "t" b).insert "b" (a % b) }) :=
    endsWith_assign h₁.right
      (endsWith_bin_of_some (endsWith_ident h₁.left) (endsWith_ident h₁.right) hmod)
  have hassign : EndsWith (stmt (.assign "a" (.ident "t"))).withFuel
      { s with vars := (s.vars.insert "t" b).insert "b" (a % b) }
      (.done () { s with vars := s.vars.divided a b }) := endsWith_assign ha₂ (endsWith_ident ht₂)
  rw [gcdBody, endsWith_cons hs hdefine, endsWith_cons (by exact hs) hrest,
    endsWith_cons (by exact hs) hassign]
  exact endsWith_nil _

/-- With a second number of zero, the first one is the greatest common divisor; otherwise an iteration
makes the second one smaller. -/
theorem dividing_step (hs : s.result = none) {d n : Nat} (h : Dividing s d n t) :
    ∃ v u, EndsWith (expr gcdCondition).withFuel t (.done v u) ∧
      (v = 0 → Divided s d u) ∧
      (v ≠ 0 → ∃ m w, EndsWith (block gcdBody).withFuel u (.done () w) ∧ m < n ∧
        Dividing s d m w) := by
  obtain @⟨vars, a, b, hvars, rfl⟩ := h
  refine ⟨_, _, endsWith_gcd_condition hvars, fun hv => ?_, fun hv => ?_⟩
  · obtain rfl : b = 0 := by simpa using hv
    exact .intro hvars.left (Nat.gcd_zero_right _).symm
  · have hb : b ≠ 0 := by simpa using hv
    exact ⟨_, _, endsWith_gcd_body hs hvars hb, Division.natAbs_mod_lt a hb,
      .intro (vars.holds_divided a b) (Division.gcd_mod a b)⟩

/-- The loop comes to its end, and the first number is the greatest common divisor then. -/
theorem endsWith_gcd_loop (hs : s.result = none) (h : s.vars.Holds a b) :
    ∃ t, EndsWith (stmt (.loop gcdCondition gcdBody)).withFuel s (.done () t) ∧
      Divided s (Nat.gcd a.toInt.natAbs b.toInt.natAbs) t :=
  endsWith_loop (fun _ _ => dividing_step hs) (.intro h rfl)

/-- A call of the function, with the values of its arguments. -/
theorem endsWith_gcd_call {l r : Expr} (hf : s.functions["gcd"]? = some gcdFunction)
    (hargs : Evaluated [l, r] s [a, b] t) :
    ∃ g, EndsWith (expr (.call "gcd" [l, r])).withFuel s
        (.done g { s with functions := t.functions, sink := t.sink }) ∧
      g.toInt.natAbs = Nat.gcd a.toInt.natAbs b.toInt.natAbs := by
  let inner : Vars := s.vars.bindAll (gcdFunction.params.zip [a, b])
  have hinner : BindsParams gcdFunction.params [a, b] s.vars inner := bindsParams_bindAll rfl _
  have hholds : inner.Holds a b :=
    ⟨hinner.param 0 "a" rfl (by decide), hinner.param 1 "b" rfl (by decide)⟩
  obtain ⟨-, hloop, @⟨vars, g, hg, hgcd⟩⟩ :=
    endsWith_gcd_loop (s := ⟨inner, none, t.functions, t.sink⟩) rfl hholds
  have hbody : EndsWith (program gcdFunction.body).withFuel _ _ :=
    endsWith_program ((endsWith_cons rfl hloop _).2 (endsWith_block_ret rfl (endsWith_ident hg)))
  exact ⟨g, (endsWith_call_iff (by decide) hf rfl hargs hinner _).2 ⟨_, hbody, rfl⟩, hgcd⟩

/-- The program, from a state without terminal value. -/
theorem endsWith_gcd_program (hs : s.result = none) (a b : Int64) :
    ∃ g t, EndsWith (program [.function "gcd" gcdFunction.params gcdFunction.body,
        .ret (.call "gcd" [.lit a, .lit b])]).withFuel s (.done (some g) t) ∧
      t.sink = s.sink ∧ g.toInt.natAbs = Nat.gcd a.toInt.natAbs b.toInt.natAbs := by
  let u : State σ := { s with functions := s.functions.insert "gcd" gcdFunction }
  have hargs : Evaluated [.lit a, .lit b] u [a, b] u :=
    .cons (endsWith_lit u a) (.cons (endsWith_lit u b) (.nil u))
  obtain ⟨g, hcall, hgcd⟩ := endsWith_gcd_call Std.ExtTreeMap.getElem?_insert_self hargs
  have hfunction : EndsWith (stmt (.function "gcd" gcdFunction.params gcdFunction.body)).withFuel s
      (.done () u) := endsWith_function s "gcd" _ _
  exact ⟨g, _, endsWith_program ((endsWith_cons hs hfunction _).2 (endsWith_block_ret hs hcall)),
    rfl, hgcd⟩

end Run

/-- **The greatest common divisor**: for any two numbers, the program with their literals is read, and
with enough fuel it ends without a fault, prints nothing, and gives a number with the absolute value
of their greatest common divisor. -/
theorem runCaptured_gcd (a b : Int64) :
    ∃ p g, parse (gcdSource a b) = .ok p ∧
      (∃ n, ∀ m ≥ n, runCaptured m p = some (.ok (some g, ""))) ∧
      g.toInt.natAbs = Nat.gcd a.toInt.natAbs b.toInt.natAbs := by
  obtain ⟨g, t, hrun, hsink, hgcd⟩ :=
    Run.endsWith_gcd_program (s := State.fresh Buffer.empty) rfl a b
  obtain ⟨n, hn⟩ := Run.eventually (Run.program _) hrun
  refine ⟨_, g, parse_gcdSource a b, ⟨n, fun m hm => ?_⟩, hgcd⟩
  have hm : runBuffered m _ = .done (some g) t := hn m hm
  rw [runCaptured, hm]
  change some (Except.ok (some g, t.sink.text)) = _
  rw [hsink]
  rfl

end IntScript
