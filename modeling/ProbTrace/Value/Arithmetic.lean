import ProbTrace.Value.Order

/-!
# Arithmetic on values

The four operations on numbers, with exact integers and binary64 numbers mixed.
An integer that meets a binary64 number is first rounded to one, and two integers
are divided to the nearest binary64 number.  Addition also joins two sequences of
one kind, and multiplication repeats a sequence.
-/

namespace ProbTrace

namespace Numeric

/-- The binary64 number nearest to a number. -/
def toFloat : Numeric → Except Fault Float
  | int i =>
    match Number.ofInt? i with
    | some x => .ok x
    | none => .error .tooLarge
  | float x => .ok x

/-- Apply an exact operation to two integers and a rounded one to all other pairs. -/
def combine (exact : Int → Int → Int) (rounded : Float → Float → Float) :
    Numeric → Numeric → Except Fault Value
  | int i, int j => .ok (.int (exact i j))
  | a, b => do
    let x ← a.toFloat
    let y ← b.toFloat
    return .float (rounded x y)

/-- Divide two numbers to the nearest binary64 number. -/
def divide : Numeric → Numeric → Except Fault Value
  | int i, int j =>
    if j = 0 then .error .divisionByZero
    else
      match Number.ofQuotient? i j with
      | some x => .ok (.float x)
      | none => .error .tooLarge
  | a, b => do
    let x ← a.toFloat
    let y ← b.toFloat
    if y == 0.0 then .error .divisionByZero else return .float (x / y)

/-- The number with the opposite sign. -/
def negate : Numeric → Value
  | int i => .int (-i)
  | float x => .float (-x)

end Numeric

/-- The largest number of items that a sequence can have. -/
def lengthLimit : Int := 9223372036854775807

/-- The largest number of items that there is memory for. -/
def memoryLimit : Nat := 68719476736

/-- Whether there is memory for so many items. -/
def checkMemory (size : Nat) : Except Fault Unit :=
  if memoryLimit < size then .error .outOfMemory else .ok ()

/-- How often a sequence of a size is repeated for a count; a count below zero is zero,
and nothing is not repeated. -/
def repeatCount (size : Nat) (count : Int) : Except Fault Nat :=
  if lengthLimit < count || count < -lengthLimit - 1 then .error .tooLarge
  else .ok (if size = 0 then 0 else count.toNat)

namespace Value

/-- The number that a value is, or a fault if it is none. -/
def expectNumeric (v : Value) : Except Fault Numeric :=
  match v.numeric? with
  | some a => .ok a
  | none => .error .wrongType

/-- The sum of two numbers, or two texts, lists or tuples one after the other. -/
def add (v w : Value) : Except Fault Value :=
  match v.numeric?, w.numeric? with
  | some a, some b => a.combine (· + ·) (· + ·) b
  | _, _ =>
    match v.characters?, w.characters? with
    | some s, some t => .ok (text (s ++ t))
    | _, _ =>
      match v.items?, w.items? with
      | some vs, some ws =>
        if v.isTuple == w.isTuple then .ok (v.sameKind (vs ++ ws)) else .error .wrongType
      | _, _ => .error .wrongType

/-- The difference of two numbers. -/
def subtract (v w : Value) : Except Fault Value := do
  let a ← v.expectNumeric
  let b ← w.expectNumeric
  a.combine (· - ·) (· - ·) b

/-- A sequence repeated, if the value is one. -/
def repeated (v : Value) (count : Int) : Except Fault Value :=
  match v.characters?, v.items? with
  | some s, _ => do
    let n ← repeatCount s.length count
    if lengthLimit < s.length * n then throw .tooLarge
    checkMemory (s.length * n)
    return text (String.join (List.replicate n s))
  | none, some vs => do
    let n ← repeatCount vs.length count
    checkMemory (vs.length * n)
    return v.sameKind (List.replicate n vs).flatten
  | none, none => .error .wrongType

/-- The product of two numbers, or a sequence repeated by an integer. -/
def multiply (v w : Value) : Except Fault Value :=
  match v.numeric?, w.numeric? with
  | some a, some b => a.combine (· * ·) (· * ·) b
  | some (.int i), none => w.repeated i
  | none, some (.int i) => v.repeated i
  | _, _ => .error .wrongType

/-- The quotient of two numbers. -/
def divide (v w : Value) : Except Fault Value := do
  let a ← v.expectNumeric
  let b ← w.expectNumeric
  a.divide b

/-- The number with the opposite sign. -/
def negate (v : Value) : Except Fault Value := do
  let a ← v.expectNumeric
  return a.negate

/-- The binary64 number nearest to a number. -/
def toFloat (v : Value) : Except Fault Float := do
  let a ← v.expectNumeric
  a.toFloat

/-- The exponential of a number. -/
def exponential (v : Value) : Except Fault Float := do
  let x ← v.toFloat
  let y := x.exp
  if y.isInf && !x.isInf then .error .tooLarge else return y

end Value

/-- The natural logarithm of a positive binary64 number; infinity and NaN give
themselves. -/
def logOfFloat (x : Float) : Except Fault Float :=
  if x.isNaN then .ok x
  else if 0.0 < x then .ok (if x.isInf then x else x.log)
  else .error .wrongValue

/-- The natural logarithm of a positive integer of any size. -/
def logOfInt (i : Int) : Except Fault Float :=
  if i ≤ 0 then .error .wrongValue
  else
    match Number.ofInt? i with
    | some x => .ok x.log
    | none =>
      let (m, e) := Number.halfScaled i.natAbs
      .ok (m.log + (2.0 : Float).log * e.toFloat)

/-- The natural logarithm of a number. -/
def Value.logarithm (v : Value) : Except Fault Float := do
  match ← v.expectNumeric with
  | .int i => logOfInt i
  | .float x => logOfFloat x

end ProbTrace
