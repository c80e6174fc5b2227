import ProbTrace.Pattern
import ProbTrace.Reader.Form

/-!
# Expressions

Expressions are trees.  The root of an expression holds its kind, and its
parts are the children under fixed keys or under their positions.  This module has
one constructor for each kind, and builds expressions from forms:

* a number, a text or a truth value is a literal, and so are `nil`, quoted data and
  the empty list;
* any other symbol is a variable;
* a list that starts with one of the words `quote`, `gen`, `define`, `if`, `block`,
  `this` and `with-address` is that form;
* any other list is an application.

Patterns are symbols, the rest marker and lists of patterns.
-/

namespace ProbTrace
namespace Expression

/-- The kinds of expressions. -/
inductive Kind where
  | application | reference | literal | gen | conditional | block | definition | this | withAddress
  deriving DecidableEq

/-- The word for a kind that the root of an expression holds. -/
def Kind.word : Kind → String
  | .application => "application"
  | .reference => Pattern.variableKind
  | .literal => "literal"
  | .gen => "gen"
  | .conditional => "if"
  | .block => "block"
  | .definition => "definition"
  | .this => "this"
  | .withAddress => "with-address"

/-- All kinds. -/
def Kind.all : List Kind :=
  [.application, .reference, .literal, .gen, .conditional, .block, .definition, .this, .withAddress]

/-- The kind that a word stands for. -/
def Kind.ofWord? (word : String) : Option Kind :=
  Kind.all.find? fun k => k.word == word

/-- Children under their positions, from a position on. -/
def numbered (i : Nat) : List Trace → List (Key × Trace)
  | [] => []
  | t :: ts => (.index i, t) :: numbered (i + 1) ts

def literal (v : Value) : Trace :=
  .node Kind.literal.word [(.name "value", .leaf v)]

/-- A variable; the same trace is the pattern that binds it. -/
def reference (name : String) : Trace :=
  .node Kind.reference.word [(Pattern.nameKey, .leaf (.text name))]

/-- An application of the first of its parts to the others. -/
def application (parts : List Trace) : Trace :=
  .node Kind.application.word (numbered 0 parts)

/-- A procedure with its pattern and its body, and a name for diagnostics. -/
def gen (pattern body : Trace) (name : Option String) : Trace :=
  .node Kind.gen.word ([(.name "pattern", pattern), (.name "body", body)] ++
    (name.map fun n => (Pattern.nameKey, Trace.leaf (.text n))).toList)

def conditional (predicate yes no : Trace) : Trace :=
  .node Kind.conditional.word
    [(.name "predicate", predicate), (.name "then", yes), (.name "else", no)]

def block (statements : List Trace) : Trace :=
  .node Kind.block.word (numbered 0 statements)

/-- A definition, with its right-hand side under the key it is evaluated at. -/
def definition (pattern rhs : Trace) : Except Fault Trace := do
  let key ← ({} : Store).definiens (.trace pattern)
  if key = .name "pattern" then throw (.badForm .patternNotDefinable (.trace pattern))
  return .node Kind.definition.word [(.name "pattern", pattern), (key, rhs)]

def this : Trace :=
  .node Kind.this.word []

def withAddress (tag expression : Trace) : Trace :=
  .node Kind.withAddress.word [(.name "tag", tag), (.name "expression", expression)]

def tuplePattern (parts : List Trace) : Trace :=
  .node Pattern.tupleKind (numbered 0 parts)

def restMarker : Trace :=
  .node Pattern.restKind []

mutual

/-- Quoted data: symbols become texts, and lists stay lists. -/
def datum : Value → Value
  | .symbol s => .text s
  | .quoted v => datum v
  | .list vs => .list (data vs)
  | v => v

/-- Quoted data, item by item. -/
def data : List Value → List Value
  | [] => []
  | v :: vs => datum v :: data vs

end

/-- The pattern of a symbol. -/
def symbolPattern (s : String) : Trace :=
  if s == Pattern.restKind then restMarker else reference s

mutual

/-- Build a pattern from a form. -/
def buildPattern : Value → Except Fault Trace
  | .symbol s => .ok (symbolPattern s)
  | .list vs => do
    let parts ← buildPatterns vs
    return tuplePattern parts
  | v => .error (.badForm .patternShape v)

/-- Build patterns from forms, from left to right. -/
def buildPatterns : List Value → Except Fault (List Trace)
  | [] => .ok []
  | v :: vs => do
    let t ← buildPattern v
    let ts ← buildPatterns vs
    return t :: ts

end

/-- The expression of a symbol. -/
def symbolExpression (s : String) : Trace :=
  if s == "nil" then literal .null else reference s

/-- The name that a definition gives to a procedure: the symbol it defines. -/
def definedName? : Value → Option String
  | .symbol s => some s
  | _ => none

/-- The body of a procedure: one expression, or a block of several. -/
def bodyOf : List Trace → Trace
  | [t] => t
  | ts => block ts

/-- The words that make a list a form of its own. -/
inductive Word where
  | quote | gen | define | conditional | block | this | withAddress
  deriving DecidableEq

/-- The spelling of a word. -/
def Word.text : Word → String
  | .quote => "quote"
  | .gen => "gen"
  | .define => "define"
  | .conditional => "if"
  | .block => "block"
  | .this => "this"
  | .withAddress => "with-address"

/-- All words. -/
def Word.all : List Word :=
  [.quote, .gen, .define, .conditional, .block, .this, .withAddress]

/-- The word that the head of a list is. -/
def Word.ofHead? : Value → Option Word
  | .symbol s => Word.all.find? fun w => w.text == s
  | _ => none

mutual

/-- Build an expression from a form.  A procedure gets the name of the definition
it is in. -/
def buildNamed (name : Option String) : Value → Except Fault Trace
  | .symbol s => .ok (symbolExpression s)
  | .quoted v => .ok (literal (datum v))
  | .list [] => .ok (literal (.list []))
  | .list (head :: args) =>
    match Word.ofHead? head with
    | some .quote =>
      match args with
      | [v] => .ok (literal (datum v))
      | _ => .error (.badForm .quoteTakesOne (.list (head :: args)))
    | some .gen =>
      match args with
      | params :: first :: others => do
        let pattern ← buildPattern params
        let body ← buildNamed none first
        let more ← buildAll others
        return gen pattern (bodyOf (body :: more)) name
      | _ => .error (.badForm .genNeedsBody (.list (head :: args)))
    | some .define =>
      match args with
      | [target, rhs] => do
        let pattern ← buildPattern target
        let value ← buildNamed (definedName? target) rhs
        definition pattern value
      | _ => .error (.badForm .defineTakesTwo (.list (head :: args)))
    | some .conditional =>
      match args with
      | [predicate, yes] => do
        let p ← buildNamed none predicate
        let y ← buildNamed none yes
        return conditional p y (literal .null)
      | [predicate, yes, no] => do
        let n ← buildNamed none no
        let p ← buildNamed none predicate
        let y ← buildNamed none yes
        return conditional p y n
      | _ => .error (.badForm .ifTakesTwoOrThree (.list (head :: args)))
    | some .block => do
      let statements ← buildAll args
      return block statements
    | some .this =>
      match args with
      | [] => .ok this
      | _ => .error (.badForm .thisTakesNone (.list (head :: args)))
    | some .withAddress =>
      match args with
      | [tag, expression] => do
        let t ← buildNamed none tag
        let e ← buildNamed none expression
        return withAddress t e
      | _ => .error (.badForm .withAddressTakesTwo (.list (head :: args)))
    | none => do
      let operator ← buildNamed none head
      let operands ← buildAll args
      return application (operator :: operands)
  | .bool b => .ok (literal (.bool b))
  | .int i => .ok (literal (.int i))
  | .float x => .ok (literal (.float x))
  | .undefined serial => .ok (literal (.undefined serial))
  | .text s => .ok (literal (.text s))
  | v => .error (.badForm (.noExpression v.typeWord) v)

/-- Build expressions from forms, from left to right. -/
def buildAll : List Value → Except Fault (List Trace)
  | [] => .ok []
  | v :: vs => do
    let t ← buildNamed none v
    let ts ← buildAll vs
    return t :: ts

end

/-- Build an expression from a form. -/
def build (v : Value) : Except Fault Trace :=
  buildNamed none v

/-- The expression that a text of one form denotes. -/
def parse (input : String) : Except Fault Trace := do
  build (← Reader.readOne input)

/-- The expression that a program denotes: its only form, or a block of its forms. -/
def parseProgram (input : String) : Except Fault Trace := do
  let forms ← Reader.readAll input
  return bodyOf (← buildAll forms)

end Expression
end ProbTrace
