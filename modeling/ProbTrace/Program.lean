import ProbTrace.Evaluator
import ProbTrace.Settings

/-!
# Whole programs

A program is run as the body of a procedure without parameters, under what was
observed, with a new trace as its record.
-/

namespace ProbTrace
namespace Program

/-- The random numbers that a seed stands for: a counter, mixed bit by bit and scaled
to the unit interval.  This is a generator of its own and not the one whose numbers the
same seed gives elsewhere; nothing but the range of the numbers is to be relied on. -/
def streamOf (seed : Int) (n : Nat) : Float :=
  let z : UInt64 := UInt64.ofInt seed + 0x9E3779B97F4A7C15 * (UInt64.ofNat n + 1)
  let z := (z ^^^ (z >>> 30)) * 0xBF58476D1CE4E5B9
  let z := (z ^^^ (z >>> 27)) * 0x94D049BB133111EB
  let z := z ^^^ (z >>> 31)
  Number.ofRatio false (z >>> 11).toNat (Nat.pow 2 53)

/-- The context in which programs run under given settings. -/
def context (settings : Settings) : Context where
  topLevel := .standard
  stream := streamOf (settings.seed.getD 0)
  warnOnMismatch := settings.warnOnMismatch

/-- Observations from outside as observations of the run. -/
def receiveObservations (observations : List (Value × Value)) : Run (List (Value × Value)) :=
  observations.mapM fun (a, v) => do return (← Run.receive a, ← Run.receive v)

/-- The trace of observed values, if there are any. -/
def observedTrace (observations : List (Value × Value)) : Run (Option Trace) :=
  if observations.isEmpty then return none
  else some <$> Run.edit (Trace.ofEntries observations)

/-- Run a program under observations. -/
def run (ctx : Context) (text : String) (observations : List (Value × Value)) :
    Run Evaluator.Execution := do
  let body ← Run.receiveTrace (← Run.ofExcept (Expression.parseProgram text))
  let procedure := Expression.gen (Expression.tuplePattern []) body none
  let (proc, _) ← Evaluator.eval ctx (.trace procedure) .top none none .null
  let observed ← observedTrace (← receiveObservations observations)
  Evaluator.infer ctx proc (.list []) observed none

end Program
end ProbTrace
