import ProbTrace.Fault
import ProbTrace.Reader.Token

/-!
# Forms

Tokens are put together to forms by a stack of what is still open: brackets, and
apostrophes, which reach up to the next closing bracket or the end of the text.
The first form after an apostrophe is quoted; the others follow it unchanged.
-/

namespace ProbTrace
namespace Reader

/-- Something open, with the forms read in it so far in reverse. -/
inductive Open where
  | bracket (b : Bracket) (done : List Value)
  | apostrophe (position : Nat) (done : List Value)

/-- The state of reading: what is open, innermost first, and the forms read
outside of everything, in reverse. -/
structure Progress where
  opened : List Open := []
  done : List Value := []

namespace Progress

/-- Add forms, given in reverse, to the innermost open thing. -/
def add (vs : List Value) (p : Progress) : Progress :=
  match p.opened with
  | [] => { p with done := vs ++ p.done }
  | .bracket b done :: rest => { p with opened := .bracket b (vs ++ done) :: rest }
  | .apostrophe i done :: rest => { p with opened := .apostrophe i (vs ++ done) :: rest }

/-- Quote the first of the forms read after an apostrophe.  The forms are given
in reverse. -/
def quoteFirst (position : Nat) (done : List Value) : Except Fault (List Value) :=
  match done.reverse with
  | [] => .error (.danglingQuote position)
  | v :: vs => .ok (vs.reverse ++ [.quoted v])

/-- Close the apostrophes that are open inside the innermost bracket, which have
left behind these forms. -/
def closeApostrophes (outside : List Value) :
    List Open → List Value → Except Fault Progress
  | .apostrophe i done :: rest, vs => do
    let quoted ← quoteFirst i (vs ++ done)
    closeApostrophes outside rest quoted
  | .bracket b done :: rest, vs =>
    .ok { opened := .bracket b (vs ++ done) :: rest, done := outside }
  | [], vs => .ok { opened := [], done := vs ++ outside }

/-- Close all apostrophes up to the innermost bracket. -/
def settle (p : Progress) : Except Fault Progress :=
  closeApostrophes p.done p.opened []

/-- The form that a closed bracket gives. -/
def bracketForm (b : Bracket) (items : List Value) : Value :=
  match b with
  | .round => .list items
  | .square => .brackets items

/-- Take in a token. -/
def step (input : String) (p : Progress) : Token → Except Fault Progress
  | .item v => .ok (p.add [v])
  | .opening b => .ok { p with opened := .bracket b [] :: p.opened }
  | .apostrophe i => .ok { p with opened := .apostrophe i [] :: p.opened }
  | .unterminatedText => .error .unterminatedText
  | .danglingEscape => .error .danglingEscape
  | .closing b rest => do
    let p ← p.settle
    match p.opened with
    | .bracket o done :: opened =>
      if o = b then .ok ({ p with opened := opened }.add [bracketForm o done.reverse])
      else .error (.unbalanced input (some b.closer) o.closer)
    | _ => .error (.strayCloser input (String.ofList rest))

/-- The forms read when the text is at its end. -/
def finish (input : String) (p : Progress) : Except Fault (List Value) := do
  let p ← p.settle
  match p.opened with
  | .bracket o _ :: _ => .error (.unbalanced input none o.closer)
  | _ => .ok p.done.reverse

end Progress

/-- The forms of program text, at least one. -/
def readAll (input : String) : Except Fault (List Value) := do
  let cs := Text.trim input.toList
  if cs.isEmpty then throw (.emptyInput input)
  let p ← (scan .between 0 cs).foldlM (Progress.step input) {}
  let forms ← p.finish input
  if forms.isEmpty then throw (.noForm input)
  return forms

/-- The only form of a text. -/
def readOne (input : String) : Except Fault Value := do
  match ← readAll input with
  | [v] => return v
  | _ :: vs => throw (.trailingForms input vs)
  | [] => throw (.noForm input)

end Reader
end ProbTrace
