import IntScript.Parse
import IntScript.Proofs.Eval.Arithmetic
import IntScript.Proofs.Eval.Calls
import Mathlib.Tactic.NormNum.NatFib

/-!
# A function for the Fibonacci numbers

A function that calls itself twice behind a branch with a `return`. Each activation binds the parameter
anew, in variables of its own.

* `fibFunction` : the function;
* `fibonacci` : the numbers that it gives, reduced at each sum (`fibonacci_eq`: to reduce the number
  itself is enough);
* `Returns σ n v` : with the value `n` for its parameter, the body returns `v`; `Returns.call` : then so
  does a call;
* `returns_of_le`, `Returns.add` : the two branches, `exists_returns` : what every number gives;
* `evalExpr_fib` : what a call gives.
-/

namespace IntScript

/-! ## The numbers -/

/-- One up to the index `1`, and for each index behind it the sum of the two numbers before, reduced
into the range of the 64-bit values. -/
def fibonacci (i : Int) : Int :=
  if i ≤ 1 then 1 else (fibonacci (i - 1) + fibonacci (i - 2)).bmod (2 ^ 64)
termination_by i.toNat

theorem fibonacci_of_le {i : Int} (h : i ≤ 1) : fibonacci i = 1 := by
  rw [fibonacci, if_pos h]

theorem fibonacci_of_lt {i : Int} (h : 1 < i) :
    fibonacci i = (fibonacci (i - 1) + fibonacci (i - 2)).bmod (2 ^ 64) := by
  rw [fibonacci, if_neg (Int.not_le.2 h)]

/-- The numbers are those of the sequence without reductions, reduced once. -/
theorem fibonacci_eq (i : Int) :
    fibonacci i = (Nat.fib (i.toNat + 1) : Int).bmod (2 ^ 64) := by
  induction i using fibonacci.induct with
  | case1 i h =>
    have hfib : Nat.fib (i.toNat + 1) = 1 := by
      have hi : i.toNat = 0 ∨ i.toNat = 1 := by omega
      rcases hi with hi | hi <;> rw [hi] <;> rfl
    rw [fibonacci_of_le h, hfib]
    decide
  | case2 i h ih₁ ih₂ =>
    have hlt : 1 < i := Int.not_le.1 h
    obtain ⟨k, rfl⟩ : ∃ k : Nat, i = k + 2 := ⟨(i - 2).toNat, by omega⟩
    have h₁ : ((k : Int) + 2 - 1).toNat + 1 = k + 2 := by omega
    have h₂ : ((k : Int) + 2 - 2).toNat + 1 = k + 1 := by omega
    have h₃ : ((k : Int) + 2).toNat + 1 = k + 1 + 2 := by omega
    rw [h₁] at ih₁
    rw [h₂] at ih₂
    rw [fibonacci_of_lt hlt, ih₁, ih₂, h₃, Int.bmod_add_bmod, Int.add_bmod_bmod, ← Nat.cast_add,
      Nat.fib_add_two (n := k + 1), Nat.add_comm]

/-! ## The function -/

/-- The function `fib(n)`: `if (n <= 1) { return 1 } return fib(n - 1) + fib(n - 2)`. -/
def fibFunction : FunDef :=
  ⟨["n"],
    [.ifThen (.bin .le (.ident "n") (.lit 1)) [.ret (.lit 1)],
      .ret (.bin .add (.call "fib" [.bin .sub (.ident "n") (.lit 1)])
        (.call "fib" [.bin .sub (.ident "n") (.lit 2)]))]⟩

namespace Fibonacci

open Run

variable {σ : Type} [Sink σ] {s t : State σ} {e : Expr} {n v w : Int64}

/-- From each state without terminal value in which the parameter has the value `n` and the function is
registered, its body ends with the terminal value `v` and changes nothing else. -/
def Returns (σ : Type) [Sink σ] (n v : Int64) : Prop :=
  ∀ s : State σ, s.result = none → s.vars["n"]? = some n → s.functions["fib"]? = some fibFunction →
    EndsWith (program fibFunction.body).withFuel s (.done (some v) { s with result := some v })

/-- The condition of its branch. -/
theorem endsWith_condition (hn : s.vars["n"]? = some n) :
    EndsWith (expr (.bin .le (.ident "n") (.lit 1))).withFuel s (.done (ofBool (n ≤ 1)) s) :=
  endsWith_bin_of_some (endsWith_ident hn) (endsWith_lit s 1) rfl

/-- The arguments of its calls. -/
theorem endsWith_argument (hn : s.vars["n"]? = some n) (k : Int64) :
    EndsWith (expr (.bin .sub (.ident "n") (.lit k))).withFuel s (.done (n - k) s) :=
  endsWith_bin_of_some (endsWith_ident hn) (endsWith_lit s k) rfl

variable [OutputOnly σ]

/-- A call gives what the body returns for the value of its argument, and leaves the state in which
this has been evaluated. -/
theorem Returns.call (h : Returns σ n v) (hs : s.functions["fib"]? = some fibFunction)
    (he : EndsWith (expr e).withFuel s (.done n t)) (ht : t.functions["fib"]? = some fibFunction) :
    EndsWith (expr (.call "fib" [e])).withFuel s (.done v t) := by
  have hargs : Evaluated [e] s [n] t := .cons he (.nil t)
  have hinner : BindsParams fibFunction.params [n] s.vars
      (s.vars.bindAll (fibFunction.params.zip [n])) := bindsParams_bindAll rfl s.vars
  have hn := hinner.param 0 "n" rfl (by decide)
  refine (endsWith_call_iff (by decide) hs rfl hargs hinner _).2 ⟨_, h _ rfl hn ht, ?_⟩
  -- the argument has left the variables and the terminal value of the caller as they were
  have hframe : Frame s t := hargs.frame
  change Outcome.done v t = .done v ⟨s.vars, s.result, t.functions, t.sink⟩
  rw [← hframe.vars, ← hframe.result]

/-- Up to one, the branch is taken, and what stands behind it is not executed. -/
theorem returns_of_le (h : n ≤ 1) : Returns σ n 1 := by
  intro s hs hn _
  have hc : EndsWith (expr (.bin .le (.ident "n") (.lit 1))).withFuel s (.done 1 s) := by
    simpa [h, ofBool] using endsWith_condition hn
  have hbranch : EndsWith (stmt (.ifThen (.bin .le (.ident "n") (.lit 1)) [.ret (.lit 1)])).withFuel
      s (.done () { s with result := some 1 }) := by
    rw [stmt_ifThen, endsWith_bind_of_done hc, if_pos (by decide)]
    exact endsWith_block_ret hs (endsWith_lit s 1)
  refine endsWith_program (t := { s with result := some 1 }) ?_
  rw [fibFunction, endsWith_cons hs hbranch]
  exact (block_of_result (by simp) _ _).2 (endsWith_pure () _)

/-- Above one, the values of two calls are added. -/
theorem Returns.add (h : 1 < n) (h₁ : Returns σ (n - 1) v) (h₂ : Returns σ (n - 2) w) :
    Returns σ n (v + w) := by
  intro s hs hn hf
  have hc : EndsWith (expr (.bin .le (.ident "n") (.lit 1))).withFuel s (.done 0 s) := by
    simpa [Int64.not_le.2 h, ofBool] using endsWith_condition hn
  have hbranch : EndsWith (stmt (.ifThen (.bin .le (.ident "n") (.lit 1)) [.ret (.lit 1)])).withFuel
      s (.done () s) := by
    rw [stmt_ifThen, endsWith_bind_of_done hc, if_neg (by decide)]
    exact endsWith_pure () s
  have hsum : EndsWith (expr (.bin .add (.call "fib" [.bin .sub (.ident "n") (.lit 1)])
      (.call "fib" [.bin .sub (.ident "n") (.lit 2)]))).withFuel s (.done (v + w) s) :=
    endsWith_bin_of_some (h₁.call hf (endsWith_argument hn 1) hf)
      (h₂.call hf (endsWith_argument hn 2) hf) rfl
  refine endsWith_program (t := { s with result := some (v + w) }) ?_
  rw [fibFunction, endsWith_cons hs hbranch]
  exact endsWith_block_ret hs hsum

omit [OutputOnly σ] [Sink σ] in
/-- Above one, smaller numbers do not wrap around. -/
theorem toInt_sub_of_lt {k : Int64} (h : 1 < n.toInt) (hk : k.toInt = 1 ∨ k.toInt = 2) :
    (n - k).toInt = n.toInt - k.toInt := by
  have hn : n.toInt < 2 ^ 63 := Int64.toInt_lt n
  rw [Int64.toInt_sub, Int.bmod_eq_of_le] <;> omega

/-- The body returns the Fibonacci number of its parameter. -/
theorem exists_returns (σ : Type) [Sink σ] [OutputOnly σ] (n : Int64) :
    ∃ v : Int64, v.toInt = fibonacci n.toInt ∧ Returns σ n v := by
  induction hk : n.toInt.toNat using Nat.strongRecOn generalizing n with
  | ind k ih =>
    by_cases h : n ≤ 1
    · have hle : n.toInt ≤ 1 := Int64.le_iff_toInt_le.1 h
      exact ⟨1, (fibonacci_of_le hle).symm, returns_of_le h⟩
    · have hlt : 1 < n.toInt := Int64.lt_iff_toInt_lt.1 (Int64.not_le.1 h)
      have h₁ : (n - 1).toInt = n.toInt - 1 := toInt_sub_of_lt hlt (.inl rfl)
      have h₂ : (n - 2).toInt = n.toInt - 2 := toInt_sub_of_lt hlt (.inr rfl)
      obtain ⟨v, hv, hreturns₁⟩ := ih _ (by omega) (n - 1) rfl
      obtain ⟨w, hw, hreturns₂⟩ := ih _ (by omega) (n - 2) rfl
      refine ⟨v + w, ?_, hreturns₁.add (Int64.not_le.1 h) hreturns₂⟩
      rw [Int64.toInt_add, hv, hw, h₁, h₂, fibonacci_of_lt hlt]

end Fibonacci

/-- **Fibonacci numbers**: in a state where the function is registered, whatever variables are bound,
and for any number `n`, there is a value `v`, the Fibonacci number of `n`, such that

* the call with the literal `n` comes to its end with `v`, and the state is the same after it;
* so does a call with any argument that has the value `n`, in the state that its argument has left, if
  the function is registered there still. -/
theorem evalExpr_fib {σ : Type} [Sink σ] [OutputOnly σ] {s : State σ}
    (hs : s.functions["fib"]? = some fibFunction) (n : Int64) :
    ∃ v : Int64, v.toInt = fibonacci n.toInt ∧
      v.toInt = (Nat.fib (n.toInt.toNat + 1) : Int).bmod (2 ^ 64) ∧
      (∃ k, ∀ m ≥ k, evalExpr m (.call "fib" [.lit n]) s = .done v s) ∧
      ∀ e t, EndsWith (evalExpr · e) s (.done n t) → t.functions["fib"]? = some fibFunction →
        ∃ k, ∀ m ≥ k, evalExpr m (.call "fib" [e]) s = .done v t := by
  obtain ⟨v, hv, hreturns⟩ := Fibonacci.exists_returns σ n
  refine ⟨v, hv, hv.trans (fibonacci_eq n.toInt), ?_, fun e t he ht => ?_⟩
  · exact Run.eventually (Run.expr _) (hreturns.call hs (Run.endsWith_lit s n) hs)
  · exact Run.eventually (Run.expr _) (hreturns.call hs he ht)

/-- The number of `92` wraps around; the caller has a variable of the parameter's name, and its value is
an argument too. -/
theorem evalExpr_fib_wrapping :
    let s : State Buffer := ⟨(∅ : Vars).insert "n" 5, none, (∅ : FunTable).insert "fib" fibFunction,
      .empty⟩
    s.functions["fib"]? = some fibFunction ∧
      (∃ k, ∀ m ≥ k, evalExpr m (.call "fib" [.lit 92]) s = .done (-6246583658587674878) s) ∧
      EndsWith (evalExpr · (.ident "n")) s (.done 5 s) ∧
      ∃ k, ∀ m ≥ k, evalExpr m (.call "fib" [.ident "n"]) s = .done 8 s := by
  intro s
  have hs : s.functions["fib"]? = some fibFunction := Std.ExtTreeMap.getElem?_insert_self
  have hn : EndsWith (evalExpr · (.ident "n")) s (.done 5 s) :=
    Run.endsWith_ident Std.ExtTreeMap.getElem?_insert_self
  obtain ⟨v, -, hv, hliteral, -⟩ := evalExpr_fib hs 92
  obtain ⟨w, -, hw, -, hargument⟩ := evalExpr_fib hs 5
  have hfib : Nat.fib 93 = 12200160415121876738 := by norm_num
  obtain rfl : v = -6246583658587674878 := Int64.toInt_inj.1 (hv.trans (by
    change (Nat.fib 93 : Int).bmod _ = _
    rw [hfib]
    decide))
  obtain rfl : w = 8 := Int64.toInt_inj.1 (hw.trans (by decide))
  exact ⟨hs, hliteral, hn, hargument _ _ hn hs⟩

/-- The function is what its text declares. -/
example : parse "fun fib(n) \x7b if (n <= 1) \x7b return 1 \x7d return fib(n - 1) + fib(n - 2) \x7d" =
    .ok [.function "fib" fibFunction.params fibFunction.body] := by
  decide +kernel

end IntScript
