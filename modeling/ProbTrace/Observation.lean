import ProbTrace.Expression

/-!
# Observations in text

An observation is written `ADDRESS=VALUE`.  The keys of an address are divided by
slashes, and keys that read as integers are integers.  The value is one form, taken
as quoted data.
-/

namespace ProbTrace
namespace Observation

/-- Divide a text at every slash. -/
def splitSlashes : List Char → List (List Char)
  | [] => [[]]
  | c :: cs =>
    match splitSlashes cs with
    | [] => [[c]]
    | part :: parts => if c == '/' then [] :: part :: parts else (c :: part) :: parts

/-- The key that a part of an address is. -/
def readKey (part : List Char) : Key :=
  match Number.readInt? part with
  | some i => .index i
  | none => .name (String.ofList part)

/-- Read an address; empty parts are skipped. -/
def readAddress (text : String) : Address :=
  ((splitSlashes text.toList).filter fun part => !part.isEmpty).map readKey

/-- The text of an address given by its keys. -/
def addressText : List Value → String
  | [] => "<root>"
  | keys => "/".intercalate (keys.map Value.display)

/-- The text of an address given as a value: the keys of a sequence, and none if the value
counts as nothing. -/
def formatAddress (v : Value) : Except Fault String :=
  match v.elements? with
  | some keys => if allHaveText keys then .ok (addressText keys) else .error .wrongValue
  | none => if v.isNothing then .ok (addressText []) else .error .wrongType

/-- Why a text is no observation. -/
inductive Refusal where
  | noEquals (text : String)
  | badValue (text : String) (f : Fault)
  /-- A fault that is not the reader's complaint about the text. -/
  | failed (f : Fault)

/-- The complaint about an observation. -/
def Refusal.message? : Refusal → Option String
  | noEquals text => some ("observation must look like ADDR=VALUE, got '" ++ text ++ "'")
  | badValue text f =>
    some ("bad observed value '" ++ text ++ "': " ++ (f.message? id).getD "")
  | failed f => f.message? id

/-- Read an observation. -/
def read (text : String) : Except Refusal (Address × Value) :=
  match Number.splitAt? (· == '=') text.toList with
  | (_, none) => .error (.noEquals text)
  | (address, some value) =>
    let valueText := String.ofList value
    match Reader.readOne valueText with
    | .ok form => .ok (readAddress (String.ofList address), Expression.datum form)
    | .error f =>
      if f.kind = .reading then .error (.badValue valueText f) else .error (.failed f)

end Observation
end ProbTrace
