import ProbTrace.Value.Text

/-!
# Faults

Everything that can stop reading, building, evaluation or inference, by cause.
A fault carries the values it is about.  Its message is composed from a
headline, the value at fault and further details; failures of plain operations
(a wrong operand, an index out of range, ...) have no message.

The message is composed when a fault is raised, and composing it needs the texts of
the values it shows.
-/

namespace ProbTrace

/-- The rules on the shape of a form. -/
inductive FormRule where
  | quoteTakesOne
  | genNeedsBody
  | defineTakesTwo
  | ifTakesTwoOrThree
  | thisTakesNone
  | withAddressTakesTwo
  | patternNotDefinable
  | patternShape
  /-- Values of this type stand for no expression. -/
  | noExpression (typeWord : String)

/-- What may not be used as a key, and where. -/
inductive KeyUse where
  | inAddress
  | inTrace
  | ofProcedure
  | inQuasiAddress

/-- The rules on procedure inputs and output traces. -/
inductive InputRule where
  | inputsAreSequence
  | outputIsWritable
  | pairTail
  | mapSequence

/-- The causes of failure: in reading and building, in patterns and scopes, in
evaluation, in traces, in inference, and in operations on values. -/
inductive Fault where
  | emptyInput (input : String)
  | noForm (input : String)
  | unbalanced (input : String) (got : Option Char) (expected : Char)
  | strayCloser (input : String) (rest : String)
  | trailingForms (input : String) (forms : List Value)
  | unterminatedText
  | danglingEscape
  | danglingQuote (position : Nat)
  | badForm (rule : FormRule) (form : Value)
  | tooFewInputs (inputs : List Value) (expected : Nat) (pattern : Value)
  | tooManyInputs (inputs : List Value) (expected : Nat) (pattern : Value)
  | unknownPattern (pattern : Value) (inputs : Value)
  | misplacedRest (pattern : Value) (inputs : Value)
  | notASequence (pattern : Value) (inputs : Value)
  | unbound (name : Value)
  | reservedName (keys : List Key)
  | topLevelDefinition (name : Value) (scope : String)
  | notAFrame (name : Value) (scope : Option String)
  | notAProcedure (v : Value)
  | notAnExpression (v : Value)
  | invalidInputs (rule : InputRule) (v : Value)
  | invalidKey (use : KeyUse) (key : Value) (expression : Value)
  | emptyQuasiAddress (v : Value)
  | noCapturedTag (v : Value)
  | readOnly (t : Trace)
  | noValue
  | noChild (key : Value)
  | noValueAt (address : List Value)
  | noneAccepted (attempts : Value) (logBound : Value)
  | weightless (particles : Value)
  | wrongType
  | wrongValue
  | outOfRange
  | divisionByZero
  | tooLarge
  | outOfMemory
  | noSuchOperation

namespace Fault

/-- The kinds of faults that a caller can tell apart. -/
inductive Kind where
  | reading | quoteReading | building
  | patternArity | pattern | scope | unbound
  | procedure | expression | key | inputs | tag | readOnly | budget | missing
  | wrongType | wrongValue | outOfRange | divisionByZero | tooLarge | outOfMemory
  | noSuchOperation
  deriving DecidableEq

/-- The kind of a fault. -/
def kind : Fault → Kind
  | emptyInput _ | noForm _ | unbalanced _ _ _ | strayCloser _ _ | trailingForms _ _ => .reading
  | unterminatedText => .noSuchOperation
  | danglingEscape => .outOfRange
  | danglingQuote _ => .quoteReading
  | badForm _ _ => .building
  | tooFewInputs _ _ _ | tooManyInputs _ _ _ => .patternArity
  | unknownPattern _ _ | misplacedRest _ _ | notASequence _ _ => .pattern
  | unbound _ => .unbound
  | reservedName _ | topLevelDefinition _ _ | notAFrame _ _ => .scope
  | notAProcedure _ => .procedure
  | notAnExpression _ => .expression
  | invalidInputs _ _ => .inputs
  | invalidKey _ _ _ => .key
  | emptyQuasiAddress _ | noCapturedTag _ => .tag
  | readOnly _ => .readOnly
  | noValue | noChild _ | noValueAt _ => .missing
  | noneAccepted _ _ | weightless _ => .budget
  | wrongType => .wrongType
  | wrongValue => .wrongValue
  | outOfRange => .outOfRange
  | divisionByZero => .divisionByZero
  | tooLarge => .tooLarge
  | outOfMemory => .outOfMemory
  | noSuchOperation => .noSuchOperation

/-- The kinds that a program's author is answerable for, as opposed to failures of
plain operations: reading, building and evaluation. -/
def Kind.isProgramFault : Kind → Bool
  | .quoteReading | .missing | .wrongType | .wrongValue | .outOfRange | .divisionByZero
  | .tooLarge | .outOfMemory | .noSuchOperation => false
  | _ => true

end Fault

/-- What a form must look like. -/
def FormRule.text : FormRule → String
  | quoteTakesOne => "'quote' requires exactly one argument: (quote datum)"
  | genNeedsBody => "'gen' requires parameters and a body: (gen params body...)"
  | defineTakesTwo => "'define' requires a pattern and a value: (define pattern rhs)"
  | ifTakesTwoOrThree => "'if' requires a predicate, a then branch and an optional else branch"
  | thisTakesNone => "'this' takes no arguments"
  | withAddressTakesTwo => "'with-address' requires a tag and an expression"
  | patternNotDefinable => "'pattern' cannot be used as a defined name"
  | patternShape => "Patterns must be symbols or lists of patterns"
  | noExpression typeWord => "Cannot build an expression from " ++ typeWord

/-- What inputs and outputs must look like. -/
def InputRule.text : InputRule → String
  | inputsAreSequence => "inputs neither list nor tuple"
  | outputIsWritable => "output must be absent or a mutable trie"
  | pairTail => "pair: second argument must be a list or tuple"
  | mapSequence => "map: second argument must be a list or tuple"

/-- The complaint about a key, given the key's text. -/
def KeyUse.text (key : String) : KeyUse → String
  | inAddress => "Invalid address key: " ++ key
  | inTrace => "Invalid trie key: " ++ key
  | ofProcedure => "Procedure key " ++ key ++ " is not a valid address key"
  | inQuasiAddress => "Invalid key " ++ key ++ " in quasi-address"

namespace Fault

/-- The part of a message that shows the value at fault.  The null value and the
empty text are not shown. -/
def expressionPart : Value → String
  | .null => ""
  | .text "" => ""
  | v => "\nExpression: '" ++ v.display ++ "'"

/-- The part of a message with further details. -/
def detailPart (details : String) : String :=
  if details.isEmpty then "" else "\nDetails: " ++ details

/-- The part of a message that shows the text being read. -/
def inputPart (input : String) : String :=
  "\nInput: '" ++ input ++ "'"

/-- Why brackets do not balance. -/
def unbalancedText (got : Option Char) (expected : Char) : String :=
  "Not enough closing brackets. Expected " ++ Text.quote (String.singleton expected) ++
    " to be the last letter in the sexp. Got: " ++
    (match got with
      | some c => Text.quote (String.singleton c)
      | none => "None")

/-- What follows the last form. -/
def strayText (rest : String) : String :=
  "Too many closing brackets. Expected no character left in the sexp. Got: " ++ Text.quote rest

/-- The inputs that did not fit a tuple pattern. -/
def arityDetails (inputs : List Value) (expected : Nat) : String :=
  "inputs=" ++ (Value.list inputs).render ++ " (length " ++ Number.intText inputs.length ++
    "), expected " ++ Number.intText expected ++ " sub-patterns"

/-- The input that a pattern was matched with; nothing is said of the null value. -/
def inputDetails : Value → String
  | .null => ""
  | v => "inputs=" ++ v.render

/-- The text of a frame: the names it has. -/
def frameText (keys : List Key) : String :=
  "<InferEnvironment id= parent= bindings=" ++ (Value.list (keys.map Key.toValue)).render ++ ">"

/-- The message of a fault, for the kinds that have one.  The values of the fault
are seen through `view`, which shows cells by their content. -/
def message? (view : Value → Value) : Fault → Option String
  | emptyInput input =>
    some ("Input string is empty or contains only whitespace." ++ inputPart input)
  | noForm input => some ("Input contains no S-expression." ++ inputPart input)
  | unbalanced input got expected =>
    some ("S-expression syntax error: Unbalanced parentheses or brackets." ++ inputPart input ++
      detailPart (unbalancedText got expected))
  | strayCloser input rest =>
    some ("S-expression syntax error: Unexpected closing bracket." ++ inputPart input ++
      detailPart (strayText rest))
  | trailingForms input forms =>
    some ("Unexpected content after the main expression." ++ inputPart input ++
      detailPart ("Trailing content: " ++ (view (.list forms)).render))
  | danglingQuote position =>
    some ("No s-exp is found after an apostrophe at position " ++ Number.intText position)
  | badForm rule form => some (rule.text ++ expressionPart (view form))
  | tooFewInputs inputs expected pattern =>
    some ("too few inputs" ++ expressionPart (view pattern) ++
      detailPart (arityDetails (inputs.map view) expected))
  | tooManyInputs inputs expected pattern =>
    some ("too many inputs" ++ expressionPart (view pattern) ++
      detailPart (arityDetails (inputs.map view) expected))
  | unknownPattern pattern inputs =>
    some ("bad pattern" ++ expressionPart (view pattern) ++
      detailPart (inputDetails (view inputs)))
  | misplacedRest pattern inputs =>
    some ("rest marker '&' is only supported as the second-to-last sub-pattern" ++
      expressionPart (view pattern) ++ detailPart (inputDetails (view inputs)))
  | notASequence pattern inputs =>
    some ("tuple pattern needs a list or tuple of inputs" ++ expressionPart (view pattern) ++
      detailPart (inputDetails (view inputs)))
  | unbound name => some ("Unbound variable: '" ++ (view name).display ++ "' is not defined.")
  | reservedName keys =>
    some ("'*parent*' is reserved and cannot be bound" ++ expressionPart (.text (frameText keys)))
  | topLevelDefinition name scope =>
    some ("Cannot bind '" ++ (view name).display ++ "' at top level" ++
      expressionPart (.text scope))
  | notAFrame name scope =>
    some ("bad env-bind: cannot bind '" ++ (view name).display ++ "' in " ++
      scope.getD "None" ++ expressionPart (.text (scope.getD "")))
  | notAProcedure v => some ("infer-apply: not a procedure" ++ expressionPart (view v))
  | notAnExpression v => some ("Not a code expression" ++ expressionPart (view v))
  | invalidInputs rule v => some (rule.text ++ expressionPart (view v))
  | invalidKey use key expression =>
    some (use.text (view key).render ++ expressionPart (view expression))
  | emptyQuasiAddress v =>
    some ("quasi-address must be a non-empty sequence" ++ expressionPart (view v))
  | noCapturedTag v =>
    some ("quasi-address must start with a tag captured by 'this'" ++ expressionPart (view v))
  | readOnly t => some ("Cannot modify an immutable trie" ++ expressionPart (view (.trace t)))
  | noValue => some "trie node has no value"
  | noChild key => some ("trie has no subtrie at key " ++ (view key).render)
  | noValueAt address =>
    some ("trie has no value at address " ++ (view (.tuple address)).render)
  | noneAccepted attempts logBound =>
    some ("rejection sampling accepted no sample in " ++ (view attempts).display ++ " attempts" ++
      detailPart ("log_bound=" ++ (view logBound).display))
  | weightless particles =>
    some ("all " ++ (view particles).display ++ " particles have zero weight")
  | unterminatedText | danglingEscape | wrongType | wrongValue | outOfRange | divisionByZero
  | tooLarge | outOfMemory | noSuchOperation => none

/-- The values that the message of a fault shows. -/
def shown : Fault → List Value
  | trailingForms _ forms => forms
  | badForm _ form => [form]
  | tooFewInputs inputs _ pattern | tooManyInputs inputs _ pattern => pattern :: inputs
  | unknownPattern pattern inputs | misplacedRest pattern inputs | notASequence pattern inputs =>
    [pattern, inputs]
  | unbound name | topLevelDefinition name _ | notAFrame name _ => [name]
  | reservedName keys => keys.map Key.toValue
  | notAProcedure v | notAnExpression v | invalidInputs _ v => [v]
  | invalidKey _ key expression => [key, expression]
  | emptyQuasiAddress v | noCapturedTag v => [v]
  | readOnly t => [.trace t]
  | noChild key => [key]
  | noValueAt address => address
  | noneAccepted attempts logBound => [attempts, logBound]
  | weightless particles => [particles]
  | emptyInput _ | noForm _ | unbalanced _ _ _ | strayCloser _ _ | danglingQuote _ | noValue
  | unterminatedText | danglingEscape | wrongType | wrongValue | outOfRange | divisionByZero
  | tooLarge | outOfMemory | noSuchOperation => []

end Fault

/-- Two steps that could have failed and did not. -/
theorem exists_of_bind_ok {α β : Type} {x : Except Fault α} {f : α → Except Fault β} {b : β}
    (h : x >>= f = .ok b) : ∃ a, x = .ok a ∧ f a = .ok b := by
  cases x with
  | error _ => cases h
  | ok a => exact ⟨a, rfl, h⟩

end ProbTrace
