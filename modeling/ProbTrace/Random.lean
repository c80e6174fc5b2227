import ProbTrace.Machine
import ProbTrace.Value.Arithmetic

/-!
# Random numbers

How uniform and normal numbers and weighted choices are made from the stream of
random numbers.  Normal deviates are made in pairs, and the second of a pair is
kept for the next request.  The numbers are taken before parameters that do not fit
are noticed.
-/

namespace ProbTrace
namespace Random

/-- The circumference of the unit circle. -/
def fullTurn : Float := 2.0 * 3.141592653589793

/-- The square root of a number that is not negative. -/
def squareRoot (x : Float) : Except Fault Float :=
  if x < 0.0 then .error .wrongValue else .ok x.sqrt

/-- A number between two bounds. -/
def uniform (ctx : Context) (low high : Value) : Run Value := do
  let width ← Run.ofExcept (high.subtract low)
  let u ← Run.draw ctx
  Run.enroll (← Run.ofExcept do low.add (← width.multiply (.float u)))

/-- A standard normal deviate. -/
def deviate (ctx : Context) : Run Float := do
  let spare := (← get).spare
  modify fun m => { m with spare := none }
  match spare with
  | some z => return z
  | none =>
    let turn := (← Run.draw ctx) * fullTurn
    let u ← Run.draw ctx
    let radius ← Run.ofExcept do squareRoot (-2.0 * (← logOfFloat (1.0 - u)))
    modify fun m => { m with spare := some (turn.sin * radius) }
    return turn.cos * radius

/-- A normal number with a mean and a deviation. -/
def normal (ctx : Context) (mean deviation : Value) : Run Value := do
  let z ← deviate ctx
  Run.enroll (← Run.ofExcept do mean.add (← (Value.float z).multiply deviation))

/-- The sums of the beginnings of a sequence, starting from a sum. -/
def runningSums : Float → List Float → List Float
  | _, [] => []
  | total, w :: ws => (total + w) :: runningSums (total + w) ws

/-- The position of the first of the sums that lies above a number, the last
position if there is none. -/
def positionAbove (x : Float) : List Float → Nat
  | [] => 0
  | [_] => 0
  | c :: cs => if x < c then 0 else positionAbove x cs + 1

/-- The cumulative weights of a weighted choice. -/
def cumulative : List Float → List Float
  | [] => []
  | w :: ws => w :: runningSums w ws

/-- Choose a position in proportion to the weights. -/
def choose (ctx : Context) (weights : List Float) : Run Nat := do
  let sums := cumulative weights
  let total := sums.getLast?.getD 0.0 + 0.0
  if total ≤ 0.0 || total.isNaN || total.isInf then Run.raise .wrongValue
  let u ← Run.draw ctx
  return positionAbove (u * total) sums

end Random
end ProbTrace
