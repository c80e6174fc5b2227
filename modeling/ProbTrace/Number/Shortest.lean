import ProbTrace.Number.Numeral

/-!
# The shortest decimal of a binary64 number

A finite number is written with the fewest significant digits that read back as
the same number; of two such decimals the nearer one is taken.  The digits are
then laid out in positional or in exponent notation.
-/

namespace ProbTrace
namespace Number

/-- A positive decimal `0.d₁d₂… * 10 ^ point`, given by its digits as a number
without trailing zeros. -/
structure Decimal where
  digits : List Char
  point : Int

/-- The quotient `num / den` scaled by a power of ten. -/
def scaleByTen (num den : Nat) (power : Int) : Nat × Nat :=
  if 0 ≤ power then (num * Nat.pow 10 power.toNat, den) else (num, den * Nat.pow 10 (-power).toNat)

/-- The least `k` with `num / den < 10 ^ k`, looked for upwards from a lower
bound that is at most `tries` too small. -/
def decimalPoint (num den : Nat) : Nat → Int → Int
  | 0, k => k
  | tries + 1, k =>
    let (a, b) := scaleByTen num den (-k)
    if a < b then k else decimalPoint num den tries (k + 1)

/-- A lower bound of the decimal point of `num / den`, at most three too small.  The
logarithm of two in base ten lies between 0.30102 and 0.30103. -/
def pointBound (num den : Nat) : Int :=
  let bits : Int := (num.log2 : Int) - (den.log2 : Int) - 1
  if 0 ≤ bits then bits * 30102 / 100000 else bits * 30103 / 100000 - 1

/-- The number with these digits before the power of ten reads as `magnitude`. -/
def readsAs (magnitude digits : Nat) (power : Int) : Bool :=
  let (a, b) := scaleByTen digits 1 power
  magnitudeOfRatio a b == magnitude

/-- The digits of `num / den` on the grid of `n` significant digits, if one of
the two neighbours on that grid reads back. -/
def onGrid? (magnitude num den : Nat) (point : Int) (n : Nat) : Option Nat :=
  let power := point - n
  let (a, b) := scaleByTen num den (-power)
  let low := a / b
  let high := low + 1
  match readsAs magnitude low power, readsAs magnitude high power with
  | true, true =>
    if 2 * (a % b) < b then some low
    else if b < 2 * (a % b) then some high
    else some (low + low % 2)
  | true, false => some low
  | false, true => some high
  | false, false => none

/-- The least number of digits from `n` on whose grid has a hit, and that hit. -/
def firstGrid (magnitude num den : Nat) (point : Int) : Nat → Nat → Nat × Nat
  | 0, n => (n, (onGrid? magnitude num den point n).getD 0)
  | tries + 1, n =>
    match onGrid? magnitude num den point n with
    | some hit => (n, hit)
    | none => firstGrid magnitude num den point tries (n + 1)

/-- The shortest decimal of the positive number `significand * 2 ^ power`.  A hit of
one digit more than its grid has is the next power of ten. -/
def shortest (significand : Nat) (power : Int) : Decimal :=
  let num := if 0 ≤ power then significand * Nat.pow 2 power.toNat else significand
  let den := Nat.pow 2 (-power).toNat
  let point := decimalPoint num den 8 (pointBound num den)
  let (n, hit) := firstGrid (magnitudeOfRatio num den) num den point 16 1
  let written := Nat.toDigits 10 hit
  { digits := (written.reverse.dropWhile (· == '0')).reverse
    point := point + ((written.length : Int) - n) }

/-- Exponents of the leading digit that are written positionally. -/
def isPositional (exponent : Int) : Bool :=
  -4 ≤ exponent && exponent < 16

/-- A sign and at least two digits. -/
def exponentText (exponent : Int) : String :=
  let ds := Nat.toDigits 10 exponent.natAbs
  (if exponent < 0 then "-" else "+") ++
    String.ofList (List.replicate (2 - ds.length) '0' ++ ds)

/-- Positional notation with at least one digit on each side of the point;
exponent notation with the point only between digits. -/
def Decimal.text (d : Decimal) : String :=
  let exponent := d.point - 1
  if isPositional exponent then
    if d.point ≤ 0 then
      "0." ++ String.ofList (List.replicate (-d.point).toNat '0' ++ d.digits)
    else
      let whole := d.digits.take d.point.toNat
      let fraction := d.digits.drop d.point.toNat
      String.ofList (whole ++ List.replicate (d.point.toNat - whole.length) '0') ++ "." ++
        (if fraction.isEmpty then "0" else String.ofList fraction)
  else
    let lead := String.ofList (d.digits.take 1)
    let fraction := d.digits.drop 1
    lead ++ (if fraction.isEmpty then "" else "." ++ String.ofList fraction) ++ "e" ++
      exponentText exponent

/-- The text of a binary64 number. -/
def floatText (x : Float) : String :=
  match decode x with
  | .nan => "nan"
  | .infinite negative => if negative then "-inf" else "inf"
  | .finite negative significand power =>
    (if negative then "-" else "") ++
      (if significand = 0 then "0.0" else (shortest significand power).text)

/-- The text of an integer. -/
def intText (i : Int) : String :=
  (if i < 0 then "-" else "") ++ String.ofList (Nat.toDigits 10 i.natAbs)

/-- Whether an integer may be written at all: it has no more digits than are read back. -/
def hasText (i : Int) : Bool :=
  decide ((Nat.toDigits 10 i.natAbs).length ≤ digitLimit)

theorem hasText_iff (i : Int) : hasText i = true ↔ i.natAbs < Nat.pow 10 digitLimit := by
  have hpos : 0 < digitLimit := by decide
  unfold hasText
  rw [decide_eq_true_iff]
  generalize digitLimit = limit at hpos ⊢
  exact Nat.length_toDigits_le_iff (by decide) hpos

/-- The least power of ten that may not be written. -/
theorem hasText_pow_digitLimit : hasText (Int.pow 10 digitLimit) = false := by
  have hsize (k : Nat) : (Int.pow 10 k).natAbs = Nat.pow 10 k := Int.natAbs_pow 10 k
  rw [Bool.eq_false_iff, ne_eq, hasText_iff, hsize]
  exact Nat.lt_irrefl _

end Number
end ProbTrace
