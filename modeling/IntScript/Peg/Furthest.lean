/-!
# The furthest failure

While a text is being matched, the furthest place at which a rule was tried in vain is kept,
together with the rules that were tried there. When the whole match fails, this is what the error
says. The record outlives backtracking: only an attempt further on replaces it.

* `Furthest R` : the place and the rules, in the order of the attempts;
* `Furthest.countAt` : how many attempts are on record for a place;
* `Furthest.report` : one more rule that was tried at a place.

A rule stands for what is tried inside it at its own beginning: its report replaces the reports
from inside, except that a single one of those is kept in its stead.
-/

namespace IntScript

/-- The furthest place at which rules were tried in vain, and these rules. -/
structure Furthest (R : Type) where
  /-- The number of characters before the place. -/
  offset : Nat
  /-- The rules that did not match. -/
  expected : List R
  /-- The rules that matched where they must not. -/
  unexpected : List R
deriving DecidableEq

namespace Furthest

variable {R : Type}

/-- Nothing was tried yet. -/
def initial : Furthest R := ⟨0, [], []⟩

/-- The number of rules on record for the place `offset`. -/
def countAt (f : Furthest R) (offset : Nat) : Nat :=
  if f.offset = offset then f.expected.length + f.unexpected.length else 0

/-- Adds a rule to those of the record. -/
def add (f : Furthest R) (r : R) (unwanted : Bool) : Furthest R :=
  if unwanted then { f with unexpected := f.unexpected ++ [r] }
  else { f with expected := f.expected ++ [r] }

/-- What remains of `after` at the place `offset` without the reports since `before`. -/
def since (before after : Furthest R) (offset : Nat) : Furthest R :=
  if before.offset = offset then
    { after with
      expected := after.expected.take before.expected.length
      unexpected := after.unexpected.take before.unexpected.length }
  else { after with expected := [], unexpected := [] }

/-- The record `after` an attempt to match the rule `r` at the place `offset`, when the record was
`before` at its beginning. -/
def report (before after : Furthest R) (offset : Nat) (r : R) (unwanted : Bool) : Furthest R :=
  if after.countAt offset = before.countAt offset + 1 then after
  else if after.offset = offset then (before.since after offset).add r unwanted
  else if after.offset < offset then (⟨offset, [], []⟩ : Furthest R).add r unwanted
  else after

end Furthest

end IntScript
