import IntScript.Eval

/-!
# Runs of whole programs

* `State.fresh` : nothing bound, nothing registered, no terminal value;
* `runBuffered`, `runStreamed`, `runConsole`, `runCaptured` : a program from there, with its output in
  a buffer, at a destination with a limit, on the standard output, or given only when there is no
  fault;
* `ampleFuel` : more fuel than any run that comes to its end on a machine uses up.
-/

namespace IntScript

/-- The state before a program is run. -/
def State.fresh {σ : Type} (sink : σ) : State σ := ⟨∅, none, ∅, sink⟩

/-- Runs a program into a buffer. -/
def runBuffered (fuel : Nat) (b : Block) : Outcome Buffer (Option Int64) :=
  runBlock fuel b (.fresh .empty)

/-- Runs a program into a destination that accepts at most `limit` bytes. -/
def runStreamed (fuel : Nat) (limit : Option Nat) (b : Block) : Outcome Stream (Option Int64) :=
  runBlock fuel b (.fresh ⟨.empty limit⟩)

/-- Runs a program that prints to the standard output. -/
def runConsole (fuel : Nat) (b : Block) : Outcome Console (Option Int64) :=
  runBlock fuel b (.fresh .empty)

/-- The terminal value and the output of a program, or its fault; `none` for want of fuel. -/
def runCaptured (fuel : Nat) (b : Block) : Option (Except Fault (Option Int64 × String)) :=
  match runBuffered fuel b with
  | .done v s => some (.ok (v, s.sink.text))
  | .fault e _ => some (.error e)
  | .unfinished _ => none

/-- More fuel than a run can use up. -/
def ampleFuel : Nat := Nat.pow 2 62

end IntScript
