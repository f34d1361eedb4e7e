import IntScript.Peg.Cursor
import IntScript.Peg.Expression
import IntScript.Peg.Furthest

/-!
# Matching a text

* `Verdict R` : the end of an attempt, a match or a failure, with the furthest failure so far;
* `Mode` : whether layout counts, and whether the match is a lookahead;
* `Grammar.run` : matches an expression at a place of a text.

The fuel bounds how deep expressions are nested in each other and how often one repetition goes on;
`Verdict.exhausted` says that it did not suffice.
-/

namespace IntScript

/-- What looking ahead there is: none, for something, or for the absence of something. -/
inductive Lookahead where
  | off | positive | negative
deriving DecidableEq

/-- The lookahead inside a lookahead for something. -/
def Lookahead.peek : Lookahead → Lookahead
  | .negative => .negative
  | _ => .positive

/-- The lookahead inside a lookahead for the absence of something. -/
def Lookahead.deny : Lookahead → Lookahead
  | .negative => .positive
  | _ => .negative

/-- The circumstances of a match. -/
structure Mode where
  /-- An atomic rule is being matched. -/
  atomic : Bool
  /-- What looking ahead the match is part of. -/
  look : Lookahead
deriving DecidableEq

/-- The circumstances at the beginning. -/
def Mode.initial : Mode := ⟨false, .off⟩

/-- The end of an attempt to match. -/
inductive Verdict (R : Type) where
  /-- A match up to the place `last`. -/
  | matched (last : Cursor) (nodes : List (Node R)) (furthest : Furthest R)
  | failed (furthest : Furthest R)
  /-- The fuel did not suffice. -/
  | exhausted

namespace Verdict

variable {R : Type}

/-- A match up to the given place, if there is one. -/
@[inline] def ofCursor? (c? : Option Cursor) (f : Furthest R) : Verdict R :=
  match c? with
  | some c => .matched c [] f
  | none => .failed f

/-- Goes on from a match. -/
@[inline] def andThen (v : Verdict R)
    (next : Cursor → List (Node R) → Furthest R → Verdict R) : Verdict R :=
  match v with
  | .matched c ns f => next c ns f
  | .failed f => .failed f
  | .exhausted => .exhausted

/-- Goes on from a failure. -/
@[inline] def orElse (v : Verdict R) (next : Furthest R → Verdict R) : Verdict R :=
  match v with
  | .failed f => next f
  | v => v

end Verdict

/-- The record after an attempt to match `r` at `offset`. A failed rule is reported where something
is looked for, a matched one where its absence is; inside an atomic rule nothing is. -/
def Mode.report {R : Type} (m : Mode) (before after : Furthest R) (offset : Nat) (r : R)
    (matched : Bool) : Furthest R :=
  if m.atomic then after
  else if matched = (m.look = .negative) then before.report after offset r matched
  else after

namespace Grammar

variable {R : Type}

/-- The place behind the layout, if layout counts. -/
def skip (g : Grammar R) (m : Mode) (c : Cursor) : Cursor :=
  if m.atomic then c else c.advance (g.layout c.rest)

/-- Takes further steps, at most as many as the first argument says, and ends where the next one
fails. `done` holds the nodes so far, the last one first. -/
def repeatMore (step : Cursor → Furthest R → Verdict R) :
    Nat → Cursor → List (Node R) → Furthest R → Verdict R
  | 0, _, _, _ => .exhausted
  | n + 1, c, done, f =>
    match step c f with
    | .matched c' ns f' => repeatMore step n c' (ns.reverse ++ done) f'
    | .failed f' => .matched c done.reverse f'
    | .exhausted => .exhausted

/-- Matches an expression at a place. A failed step of a repetition gives back the layout that was
skipped before it. -/
def run (g : Grammar R) : Nat → Mode → Peg R → Cursor → Furthest R → Verdict R
  | 0, _, _, _, _ => .exhausted
  | _ + 1, _, .text s, c, f => .ofCursor? (c.pass? s) f
  | _ + 1, _, .char p, c, f => .ofCursor? (c.passIf? p) f
  | _ + 1, _, .start, c, f => .ofCursor? (if c.offset = 0 then some c else none) f
  | _ + 1, _, .stop, c, f => .ofCursor? (if c.rest.isEmpty then some c else none) f
  | n + 1, m, .rule r, c, f =>
    match run g n { m with atomic := m.atomic || g.atomic r } (g.body r) c f with
    | .matched d ns f' =>
      .matched d [.mk r c d (if g.atomic r then [] else ns)] (m.report f f' c.offset r true)
    | .failed f' => .failed (m.report f f' c.offset r false)
    | .exhausted => .exhausted
  | n + 1, m, .seq a b, c, f =>
    (run g n m a c f).andThen fun d ns f =>
      (run g n m b (g.skip m d) f).andThen fun e ns' f => .matched e (ns ++ ns') f
  | n + 1, m, .alt a b, c, f => (run g n m a c f).orElse fun f => run g n m b c f
  | n + 1, m, .opt a, c, f => (run g n m a c f).orElse fun f => .matched c [] f
  | n + 1, m, .many a, c, f =>
    match run g n m a c f with
    | .matched d ns f => repeatMore (fun c f => run g n m a (g.skip m c) f) n d ns.reverse f
    | .failed f => .matched c [] f
    | .exhausted => .exhausted
  | n + 1, m, .peek a, c, f =>
    (run g n { m with look := m.look.peek } a c f).andThen fun _ _ f => .matched c [] f
  | n + 1, m, .deny a, c, f =>
    match run g n { m with look := m.look.deny } a c f with
    | .matched _ _ f => .failed f
    | .failed f => .matched c [] f
    | .exhausted => .exhausted

end Grammar

end IntScript
