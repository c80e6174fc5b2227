import ProbTrace.Text.Blank
import ProbTrace.Text.Digit
import ProbTrace.Number.Binary64

/-!
# Numerals

How a text is read as an integer or as a binary64 number.  White space around it
is ignored, digits may come from any script, and single underscores may stand
between two digits.  A numeral that is no integer may be a decimal with a point
or an exponent, or the name of an infinity or of the NaN.
-/

namespace ProbTrace
namespace Number

/-- The longest integer numeral that is read or written, in digits. -/
def digitLimit : Nat := 4300

/-- The values of a run of digits with single underscores between them. -/
def digitRun? : List Char → Option (List Nat)
  | [] => none
  | [c] => (Text.digitValue? c).map fun d => [d]
  | c :: '_' :: rest =>
    match Text.digitValue? c, digitRun? rest with
    | some d, some ds => some (d :: ds)
    | _, _ => none
  | c :: rest =>
    match Text.digitValue? c, digitRun? rest with
    | some d, some ds => some (d :: ds)
    | _, _ => none

/-- A sign in front of a numeral, and what follows it. -/
def splitSign : List Char → Bool × List Char
  | '-' :: rest => (true, rest)
  | '+' :: rest => (false, rest)
  | rest => (false, rest)

/-- Read an integer. -/
def readInt? (cs : List Char) : Option Int :=
  let (negative, body) := splitSign (Text.trimMargin cs)
  match digitRun? body with
  | some ds =>
    if digitLimit < ds.length then none
    else
      let n : Int := Text.ofDigits ds
      some (if negative then -n else n)
  | none => none

/-- The digits before and after a mark that occurs in a text, the mark itself
left out. -/
def splitAt? (mark : Char → Bool) (cs : List Char) : List Char × Option (List Char) :=
  match cs.span (fun c => !mark c) with
  | (before, []) => (before, none)
  | (before, _ :: after) => (before, some after)

/-- A run of digits that may be missing. -/
def optionalRun? (cs : List Char) : Option (List Nat) :=
  if cs.isEmpty then some [] else digitRun? cs

/-- The number `ds * 10 ^ power`, where `ds` are the digits of an integer.  With more
than 400 places before the point it is infinite, after it nearest to zero. -/
def ofScientific (negative : Bool) (ds : List Nat) (power : Int) : Float :=
  let digits := ds.dropWhile (· == 0)
  let n := Text.ofDigits digits
  let point : Int := digits.length + power
  if n = 0 || point < -400 then ofWord negative 0
  else if 400 < point then ofWord negative infiniteWord
  else if 0 ≤ power then ofRatio negative (n * Nat.pow 10 power.toNat) 1
  else ofRatio negative n (Nat.pow 10 (-power).toNat)

/-- Read the digits of a decimal: a whole part, a fraction and an exponent, of
which the whole part or the fraction may be missing. -/
def readDecimal? (negative : Bool) (cs : List Char) : Option Float :=
  let (mantissa, exponent?) := splitAt? (fun c => c == 'e' || c == 'E') cs
  let (whole, fraction?) := splitAt? (· == '.') mantissa
  let power? : Option Int :=
    match exponent? with
    | none => some 0
    | some e =>
      let (low, ds) := splitSign e
      (digitRun? ds).map fun ds => if low then -(Text.ofDigits ds : Int) else Text.ofDigits ds
  match optionalRun? whole, optionalRun? (fraction?.getD []), power? with
  | some ws, some fs, some power =>
    if ws.isEmpty && fs.isEmpty then none
    else some (ofScientific negative (ws ++ fs) (power - fs.length))
  | _, _, _ => none

/-- Read a binary64 number: a decimal, or one of the names `inf`, `infinity`
and `nan` in any case. -/
def readFloat? (cs : List Char) : Option Float :=
  let (negative, body) := splitSign (Text.trimMargin cs)
  let word := String.ofList (body.map Char.toLower)
  if word == "inf" || word == "infinity" then some (ofWord negative infiniteWord)
  else if word == "nan" then some notANumber
  else readDecimal? negative body

end Number
end ProbTrace
