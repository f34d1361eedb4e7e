/-!
# Decimal numerals

* `Decimal.ofInt` : the shortest numeral of an integer, `-` in front of a negative one;
* `Decimal.toInt` : the integer that a numeral denotes, leading zeros allowed
  (`Decimal.toInt_ofInt`);
* `Decimal.toInt64?` : the same within 64 bits, `none` for an integer that does not fit
  (`Decimal.toInt64?_ofInt`).
-/

namespace IntScript.Decimal

/-- The shortest numeral of `i`. -/
def ofInt (i : Int) : List Char :=
  if i < 0 then '-' :: Nat.toDigits 10 i.natAbs else Nat.toDigits 10 i.natAbs

/-- The integer that a run of digits denotes, or a sign and a run of digits. -/
def toInt : List Char → Int
  | '-' :: digits => -(Nat.ofDigitChars 10 digits 0 : Int)
  | digits => (Nat.ofDigitChars 10 digits 0 : Int)

/-- The value of a numeral, if it lies between `-2^63` and `2^63 - 1`. -/
def toInt64? (numeral : List Char) : Option Int64 :=
  let i := toInt numeral
  if Int64.minValue.toInt ≤ i ∧ i ≤ Int64.maxValue.toInt then some (Int64.ofInt i) else none

theorem toInt_of_isDigit {cs : List Char} (h : ∀ c ∈ cs, c.isDigit = true) :
    toInt cs = Nat.ofDigitChars 10 cs 0 := by
  unfold toInt
  split
  · exact absurd (h '-' (by simp)) (by decide)
  · rfl

/-- A numeral denotes the integer that it was made from. -/
theorem toInt_ofInt (i : Int) : toInt (ofInt i) = i := by
  unfold ofInt
  split
  · next h => simp only [toInt, Nat.ofDigitChars_toDigits (by decide : 1 < 10) (by decide)]; omega
  · next h =>
    rw [toInt_of_isDigit fun c hc => Nat.isDigit_of_mem_toDigits (by decide) (by decide) hc,
      Nat.ofDigitChars_toDigits (by decide) (by decide)]
    omega

/-- A 64-bit value comes back from its numeral. -/
theorem toInt64?_ofInt (v : Int64) : toInt64? (ofInt v.toInt) = some v := by
  unfold toInt64?
  simp only [toInt_ofInt]
  rw [if_pos ⟨v.minValue_le_toInt, v.toInt_le⟩, Int64.ofInt_toInt]

end IntScript.Decimal
