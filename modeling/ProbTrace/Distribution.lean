import ProbTrace.Random

/-!
# Distributions

The primitive random procedures: a coin with a bias, a number between two bounds,
and a normal number.  Each has a sampler, which takes random numbers, and a log
density, which scores a given value.
-/

namespace ProbTrace

namespace Distribution

/-- Draw a value for given parameters. -/
def sample (ctx : Context) : Distribution → List Value → Run Value
  | flip, [p] => do
    let u ← Run.draw ctx
    return .bool (← Run.ofExcept ((Value.float u).relateAtoms .less p))
  | uniform, [low, high] => Random.uniform ctx low high
  | gaussian, [mean, deviation] => Random.normal ctx mean deviation
  | _, _ => Run.raise .wrongType

/-- The logarithm of a positive number, negative infinity for all others. -/
def safeLog (v : Value) : Except Fault Float := do
  if ← v.relateAtoms .greater (.int 0) then v.logarithm else return Number.negativeInfinity

/-- Half the logarithm of a full turn, negated: the log density of a standard normal
number at zero. -/
def standardPeak : Float :=
  -0.5 * Random.fullTurn.log

/-- The log density of a coin: every value other than true counts as tails. -/
def flipLogDensity (value p : Value) : Except Fault Float :=
  match value with
  | .bool true => safeLog p
  | _ => do safeLog (← (Value.float 1.0).subtract p)

/-- The log density of a number between two bounds, which are included. -/
def uniformLogDensity (s : Store) (value low high : Value) : Except Fault Float := do
  if ← low.relate s .lessEqual value then
    if ← value.relate s .lessEqual high then
      return -(← (← high.subtract low).logarithm)
  return Number.negativeInfinity

/-- The log density of a normal number. -/
def gaussianLogDensity (value mean deviation : Value) : Except Fault Float := do
  let z ← (← (← value.subtract mean).divide deviation).toFloat
  let width ← deviation.logarithm
  return standardPeak - width - 0.5 * z * z

/-- The log density of a value for given parameters. -/
def logDensity (s : Store) : Distribution → List Value → Except Fault Float
  | flip, [value, p] => flipLogDensity value p
  | uniform, [value, low, high] => uniformLogDensity s value low high
  | gaussian, [value, mean, deviation] => gaussianLogDensity value mean deviation
  | _, _ => .error .wrongType

end Distribution
end ProbTrace
