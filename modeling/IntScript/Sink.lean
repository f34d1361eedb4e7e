import IntScript.Binding
import IntScript.Decimal

/-!
# What becomes of the events of a run

A run reports what happens to a sink, one event after the other.

* `Event` : what can happen, `Event.printed` is the output of a program;
* `Sink` : something that receives events;
* `Buffer` : keeps the output as text, a line for each value;
* `Writer`, `Stream` : the same output for a destination that may accept only so many bytes;
* `Console` : the same output for the standard output of a command;
* `Trace` : keeps the events themselves.
-/

namespace IntScript

/-- Something that happens in a run. -/
inductive Event where
  /-- The execution of a statement begins. -/
  | began (s : Stmt)
  /-- The condition of a loop was evaluated. -/
  | tested (cond : Expr) (value : Int64)
  /-- A variable was bound or changed. -/
  | bound (name : String) (value : Int64)
  | registered (name : String) (f : FunDef)
  /-- The terminal value of the activation was set. -/
  | returned (value : Int64)
  | printed (value : Int64)
  /-- The activation of a called function begins. -/
  | entered (name : String) (args : List Int64)
  /-- The activation of a called function has come to its end. -/
  | left (name : String)

/-- Something that receives the events of a run. -/
class Sink (σ : Type) where
  /-- What becomes of the sink by an event. -/
  receive : σ → Event → σ

/-- The numeral of a printed value. -/
def printedNumeral (v : Int64) : String := String.ofList (Decimal.ofInt v.toInt)

/-- The line that a printed value takes. -/
def printedLine (v : Int64) : String := printedNumeral v ++ "\n"

/-! ## Buffers -/

/-- Output as text. -/
structure Buffer where
  text : String
deriving DecidableEq

/-- No output yet. -/
def Buffer.empty : Buffer := ⟨""⟩

instance : Sink Buffer where
  receive b
    | .printed v => ⟨b.text ++ printedLine v⟩
    | _ => b

/-! ## Streams -/

/-- A destination for bytes. -/
structure Writer where
  /-- The bytes that were accepted. -/
  accepted : ByteArray
  /-- How many further bytes will be accepted, if there is a limit. -/
  room : Option Nat

/-- A destination that accepts at most `limit` bytes. -/
def Writer.empty (limit : Option Nat) : Writer := ⟨.empty, limit⟩

/-- Writes as many of the bytes as there is room for. It fails if these are not all of them. -/
def Writer.write (w : Writer) (bytes : ByteArray) : Bool × Writer :=
  match w.room with
  | none => (true, { w with accepted := w.accepted ++ bytes })
  | some n => (decide (bytes.size ≤ n), ⟨w.accepted ++ bytes.extract 0 n, some (n - bytes.size)⟩)

/-- Writes one piece after the other until this fails. -/
def Writer.writeAll (w : Writer) : List ByteArray → Bool × Writer
  | [] => (true, w)
  | piece :: pieces =>
    match w.write piece with
    | (true, w) => w.writeAll pieces
    | (false, w) => (false, w)

/-- Output written to a destination. -/
structure Stream where
  out : Writer

/-- The numeral and the end of its line are written apart, and a failure is dropped. -/
instance : Sink Stream where
  receive s
    | .printed v => ⟨(s.out.writeAll [(printedNumeral v).toUTF8, "\n".toUTF8]).2⟩
    | _ => s

/-! ## The console -/

/-- The standard output of a command. -/
structure Console where
  stdout : Writer

/-- Nothing was written to the standard output yet. -/
def Console.empty : Console := ⟨.empty none⟩

/-- Each value is written to the standard output by a stream of its own. -/
instance : Sink Console where
  receive c e := ⟨(Sink.receive (⟨c.stdout⟩ : Stream) e).out⟩

/-! ## Traces -/

/-- The events of a run, the last one first. -/
structure Trace where
  events : List Event

instance : Sink Trace where
  receive t e := ⟨e :: t.events⟩

end IntScript
