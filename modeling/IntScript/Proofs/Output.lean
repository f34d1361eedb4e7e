import IntScript.Proofs.Eval.Events
import IntScript.Run

/-!
# What a run prints

* `printedText` : the text of printed values, a line for each, and `outputLines`, which cuts it again
  (`outputLines_printedText`);
* `Writer.write_write` : whether a destination takes bytes at once or in parts, it has accepted the
  same ones;
* `Buffer.foldl_receive`, `Stream.foldl_receive`, `Console.foldl_receive` : what the sinks make of the
  events of a run;
* `OutputOnly σ` : the sink receives what is printed and nothing else;
* `printedValues`, `output` : what the run of a block prints, as values and as text;
* `runBlock_sinks` : the same run into a buffer, at a destination with a limit, and captured.
-/

namespace IntScript

variable {σ τ : Type}

/-! ## The text of printed values -/

/-- The value that is printed by an event. -/
def Event.printed? : Event → Option Int64
  | .printed v => some v
  | _ => none

/-- The lines of printed values. -/
def printedText : List Int64 → String
  | [] => ""
  | v :: vs => printedLine v ++ printedText vs

/-- The lines of a text in which each line has an end. -/
def outputLines (text : String) : List (List Char) := (text.toList.splitOn '\n').dropLast

/-- A numeral has no line end. -/
theorem newline_not_mem_numeral (i : Int) : '\n' ∉ Decimal.ofInt i := by
  have hdigits : '\n' ∉ Nat.toDigits 10 i.natAbs := fun h =>
    absurd (Nat.isDigit_of_mem_toDigits (by decide) (by decide) h) (by decide)
  unfold Decimal.ofInt
  split
  · simpa using hdigits
  · exact hdigits

theorem splitOn_printedText (vs : List Int64) :
    (printedText vs).toList.splitOn '\n' = vs.map (fun v => Decimal.ofInt v.toInt) ++ [[]] := by
  induction vs with
  | nil => rfl
  | cons v vs ih =>
    have htext : (printedText (v :: vs)).toList =
        Decimal.ofInt v.toInt ++ '\n' :: (printedText vs).toList := by
      simp [printedText, printedLine, printedNumeral]
    rw [htext, List.splitOn_append_cons_self_of_not_mem (newline_not_mem_numeral _), ih]
    rfl

/-- The lines of a printed text are the numerals of the values. -/
theorem outputLines_printedText (vs : List Int64) :
    outputLines (printedText vs) = vs.map fun v => Decimal.ofInt v.toInt := by
  rw [outputLines, splitOn_printedText, List.dropLast_concat]

/-- The values come back from the text that they are printed as. -/
theorem toInt64?_outputLines (vs : List Int64) :
    (outputLines (printedText vs)).map Decimal.toInt64? = vs.map some := by
  rw [outputLines_printedText, List.map_map]
  exact List.map_congr_left fun v _ => Decimal.toInt64?_ofInt v

/-! ## Destinations -/

namespace Writer

variable (w : Writer)

theorem write_empty : (w.write .empty).2 = w := by
  have hempty : ∀ n, ByteArray.empty.extract 0 n = .empty := by simp
  obtain ⟨accepted, room⟩ := w
  cases room <;> simp [write, hempty]

/-- The bytes of two writes are those of one, however many of them are accepted. -/
theorem write_write (a b : ByteArray) : ((w.write a).2.write b).2 = (w.write (a ++ b)).2 := by
  obtain ⟨accepted, room⟩ := w
  cases room with
  | none => simp only [write, ByteArray.append_assoc]
  | some n =>
    simp only [write, ByteArray.extract_append, ByteArray.append_assoc, ByteArray.size_append,
      Nat.sub_sub, Nat.zero_sub]

/-- After a failure there is no room. -/
theorem write_of_failed {a : ByteArray} (h : (w.write a).1 = false) (b : ByteArray) :
    ((w.write a).2.write b).2 = (w.write a).2 := by
  obtain ⟨accepted, room⟩ := w
  cases room with
  | none => cases h
  | some n =>
    have hroom : n - a.size = 0 := by
      have : n < a.size := by simpa [write] using h
      omega
    simp [write, hroom]

/-- What is written after a failure is lost, as it would be in a single write. -/
theorem writeAll_eq (pieces : List ByteArray) :
    (w.writeAll pieces).2 = (w.write (pieces.foldr (· ++ ·) .empty)).2 := by
  induction pieces generalizing w with
  | nil => exact w.write_empty.symm
  | cons piece pieces ih =>
    rw [List.foldr_cons, ← write_write]
    unfold writeAll
    split
    · next w' hw => rw [hw, ih]
    · next w' hw => rw [write_of_failed w (by rw [hw]), hw]

end Writer

/-! ## Sinks -/

theorem Buffer.foldl_receive (es : List Event) (k : Buffer) :
    es.foldl Sink.receive k = ⟨k.text ++ printedText (es.filterMap Event.printed?)⟩ := by
  induction es generalizing k with
  | nil => simp [printedText]
  | cons e es ih =>
    rw [List.foldl_cons, ih]
    cases e with
    | printed v => simp [Sink.receive, Event.printed?, printedText, String.append_assoc]
    | _ => rfl

theorem Stream.receive_printed (k : Stream) (v : Int64) :
    Sink.receive k (.printed v) = (⟨(k.out.write (printedLine v).toUTF8).2⟩ : Stream) := by
  change (⟨(k.out.writeAll _).2⟩ : Stream) = _
  simp [Writer.writeAll_eq, printedLine]

/-- A stream writes the text of the printed values. -/
theorem Stream.foldl_receive (es : List Event) (k : Stream) :
    es.foldl Sink.receive k =
      ⟨(k.out.write (printedText (es.filterMap Event.printed?)).toUTF8).2⟩ := by
  induction es generalizing k with
  | nil => exact congrArg Stream.mk k.out.write_empty.symm
  | cons e es ih =>
    rw [List.foldl_cons, ih]
    cases e with
    | printed v =>
      rw [receive_printed, Writer.write_write]
      simp [Event.printed?, printedText]
    | _ => rfl

/-- The console shows what a stream that goes on writing would. -/
theorem Console.foldl_receive (es : List Event) (c : Console) :
    es.foldl Sink.receive c =
      ⟨(c.stdout.write (printedText (es.filterMap Event.printed?)).toUTF8).2⟩ := by
  have hstream : ∀ c : Console,
      es.foldl Sink.receive c = ⟨(es.foldl Sink.receive (⟨c.stdout⟩ : Stream)).out⟩ := by
    induction es with
    | nil => exact fun _ => rfl
    | cons e es ih => exact fun c => ih (Sink.receive c e)
  rw [hstream, Stream.foldl_receive]

/-- The sink receives what is printed and nothing else. -/
class OutputOnly (σ : Type) [Sink σ] : Prop where
  receive_eq {e : Event} (he : e.printed? = none) (k : σ) : Sink.receive k e = k

instance : OutputOnly Buffer where
  receive_eq {e} he _ := by
    cases e with
    | printed v => cases he
    | _ => rfl

instance : OutputOnly Stream where
  receive_eq {e} he _ := by
    cases e with
    | printed v => cases he
    | _ => rfl

instance : OutputOnly Console where
  receive_eq he c :=
    congrArg (fun k : Stream => Console.mk k.out) (OutputOnly.receive_eq he ⟨c.stdout⟩)

/-! ## Runs -/

/-- The values that the run of a block prints, in order. -/
def printedValues (n : Nat) (b : Block) (s : State σ) : List Int64 :=
  (runEvents n b s).filterMap Event.printed?

/-- The output of the run of a block. -/
def output (n : Nat) (b : Block) (s : State σ) : String := printedText (printedValues n b s)

/-- The terminal value with a text, or the fault; `none` for want of fuel. -/
def Outcome.captured (text : String) :
    Outcome σ (Option Int64) → Option (Except Fault (Option Int64 × String))
  | .done v _ => some (.ok (v, text))
  | .fault e _ => some (.error e)
  | .unfinished _ => none

@[simp] theorem Outcome.captured_withSink (text : String) (k : τ) (o : Outcome σ (Option Int64)) :
    (o.withSink k).captured text = o.captured text := by
  cases o <;> rfl

section Run

variable (n : Nat) (b : Block)

/-- A buffer goes on with the output of a run. -/
theorem text_runBlock (s : State Buffer) :
    (runBlock n b s).state.sink.text = s.sink.text ++ output n b s := by
  rw [(runBlock_reports n b s).sink, Buffer.foldl_receive]
  rfl

/-- A stream has room for so many bytes of the output of a run. -/
theorem runBlock_stream [Sink σ] (s : State σ) (w : ByteArray) (limit : Nat) :
    runBlock n b (s.withSink (⟨⟨w, some limit⟩⟩ : Stream)) =
      (runBlock n b s).withSink ⟨⟨w ++ (output n b s).toUTF8.extract 0 limit,
        some (limit - (output n b s).utf8ByteSize)⟩⟩ := by
  rw [runBlock_withSink, Stream.foldl_receive, ← String.size_toByteArray]
  rfl

/-- A fresh state differs from another one by its sink only. -/
theorem runBuffered_eq [Sink σ] (k : σ) :
    runBuffered n b = (runBlock n b (.fresh k)).withSink ⟨output n b (.fresh k)⟩ := by
  have h := runBlock_withSink n b (.fresh k) Buffer.empty
  rw [Buffer.foldl_receive, Buffer.empty, String.empty_append] at h
  exact h

theorem runCaptured_eq :
    runCaptured n b = (runBuffered n b).captured (runBuffered n b).state.sink.text := by
  unfold runCaptured
  cases runBuffered n b <;> rfl

end Run

/-- **Sinks**: the run of a block into a stream that accepts `n` further bytes is the same run as
that into a buffer: the same terminal value or fault, with the same variables and functions. The
buffer goes on with the output, a line for each printed value, and the stream has accepted the first
`n` bytes of that. The lines of the output are the numerals of the printed values and read back as
these. From a fresh state, the output is what is captured, whatever sink the run has. -/
theorem runBlock_sinks (fuel : Nat) (b : Block) :
    (∀ (s : State Buffer) (w : ByteArray) (n : Nat),
      (runBlock fuel b s).state.sink.text = s.sink.text ++ output fuel b s ∧
      runBlock fuel b (s.withSink (⟨⟨w, some n⟩⟩ : Stream)) =
        (runBlock fuel b s).withSink ⟨⟨w ++ (output fuel b s).toUTF8.extract 0 n,
          some (n - (output fuel b s).utf8ByteSize)⟩⟩ ∧
      outputLines (output fuel b s) =
        (printedValues fuel b s).map (fun v => Decimal.ofInt v.toInt) ∧
      (outputLines (output fuel b s)).map Decimal.toInt64? = (printedValues fuel b s).map some) ∧
    ∀ {σ : Type} [Sink σ] (k : σ), runCaptured fuel b =
      (runBlock fuel b (.fresh k)).captured (output fuel b (.fresh k)) := by
  refine ⟨fun s w n => ⟨text_runBlock fuel b s, runBlock_stream fuel b s w n,
    outputLines_printedText _, toInt64?_outputLines _⟩, fun k => ?_⟩
  rw [runCaptured_eq, runBuffered_eq fuel b k, Outcome.captured_withSink, Outcome.state_withSink]
  rfl

end IntScript
