/-!
# Exact arithmetic on binary64 numbers

A finite binary64 number is a significand times a power of two.  This module
decodes words into that form and rounds a quotient of natural numbers to the
nearest word, ties to the even significand.  Conversion from the integers,
division of integers and the reading of decimals are all instances of that one
rounding, and integers are compared with binary64 numbers without rounding.
-/

namespace ProbTrace
namespace Number

/-- What a binary64 word stands for. -/
inductive Decoded where
  | nan
  | infinite (negative : Bool)
  /-- The number `significand * 2 ^ power`, negated if `negative`. -/
  | finite (negative : Bool) (significand : Nat) (power : Int)

/-- The word of a number, split into its fields. -/
def decode (x : Float) : Decoded :=
  let word : Nat := x.toBits.toNat
  let negative := decide (Nat.pow 2 63 ≤ word)
  let exponent : Nat := word / Nat.pow 2 52 % Nat.pow 2 11
  let fraction : Nat := word % Nat.pow 2 52
  if exponent = 2047 then
    if fraction = 0 then .infinite negative else .nan
  else if exponent = 0 then .finite negative fraction (-1074)
  else .finite negative (Nat.pow 2 52 + fraction) ((exponent : Int) - 1075)

/-- The number whose word has these bits. -/
def ofWord (negative : Bool) (magnitude : Nat) : Float :=
  Float.ofBits (UInt64.ofNat (magnitude + if negative then Nat.pow 2 63 else 0))

/-- The word of the infinities, without its sign. -/
def infiniteWord : Nat := 2047 * Nat.pow 2 52

/-- Divide and round to the nearest integer, a tie to the even one. -/
def divideEven (num den : Nat) : Nat :=
  let q := num / den
  let r := num % den
  if 2 * r < den then q
  else if den < 2 * r then q + 1
  else q + q % 2

/-- The power of two of the last place of the number nearest to `num / den`. -/
def lastPlace (num den : Nat) : Int :=
  let guess : Int := (num.log2 : Int) - (den.log2 : Int) - 52
  let below : Bool :=
    if 0 ≤ guess then num < den * Nat.pow 2 (52 + guess.toNat)
    else num * Nat.pow 2 (-guess).toNat < den * Nat.pow 2 52
  max (-1074) (if below then guess - 1 else guess)

/-- The magnitude bits of the binary64 number nearest to `num / den`, ties to
the even significand.  Quotients beyond the largest number give infinity.  A
significand of full width adds one to the exponent field by itself. -/
def magnitudeOfRatio (num den : Nat) : Nat :=
  if num = 0 then 0
  else
    let place := lastPlace num den
    let significand :=
      if 0 ≤ place then divideEven num (den * Nat.pow 2 place.toNat)
      else divideEven (num * Nat.pow 2 (-place).toNat) den
    min infiniteWord ((place + 1074).toNat * Nat.pow 2 52 + significand)

/-- The binary64 number nearest to `± num / den`. -/
def ofRatio (negative : Bool) (num den : Nat) : Float :=
  ofWord negative (magnitudeOfRatio num den)

/-- The binary64 number nearest to `i / j`, or nothing if it is too large. -/
def ofQuotient? (i j : Int) : Option Float :=
  let magnitude := magnitudeOfRatio i.natAbs j.natAbs
  if magnitude = infiniteWord then none
  else some (ofWord (decide (i < 0) != decide (j < 0)) magnitude)

/-- The binary64 number nearest to an integer, or nothing if it is too large. -/
def ofInt? (i : Int) : Option Float :=
  ofQuotient? i 1

/-- The numerator and denominator of a finite number. -/
def ratio (negative : Bool) (significand : Nat) (power : Int) : Int × Nat :=
  let magnitude : Nat := if 0 ≤ power then significand * Nat.pow 2 power.toNat else significand
  (if negative then -(magnitude : Int) else magnitude, Nat.pow 2 (-power).toNat)

/-- Compare an integer with a binary64 number exactly; `none` for a NaN. -/
def compareInt (i : Int) (x : Float) : Option Ordering :=
  match decode x with
  | .nan => none
  | .infinite negative => some (if negative then .gt else .lt)
  | .finite negative significand power =>
    let (num, den) := ratio negative significand power
    some (compare (i * den) num)

/-- The integer that a number without a fraction equals. -/
def toInt? (x : Float) : Option Int :=
  match decode x with
  | .finite negative significand power =>
    let (num, den) := ratio negative significand power
    if num % den = 0 then some (num / den) else none
  | _ => none

/-- A positive integer as `m * 2 ^ e`, with `m` rounded to a binary64 number in
`[1/2, 1)`. -/
def halfScaled (n : Nat) : Float × Nat :=
  let e := n.log2 + 1
  let m := ofRatio false n (Nat.pow 2 e)
  if m < 1.0 then (m, e) else (0.5, e + 1)

def positiveInfinity : Float := ofWord false infiniteWord

def negativeInfinity : Float := ofWord true infiniteWord

def notANumber : Float := ofWord false (infiniteWord + Nat.pow 2 51)

end Number
end ProbTrace
