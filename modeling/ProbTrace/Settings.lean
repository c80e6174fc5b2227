import ProbTrace.Value.Agreement
import ProbTrace.Number.Numeral
import ProbTrace.Text.Upper

/-!
# Settings

The settings of an evaluator, and how they are read from values and from environment
variables.  Reading is lenient: numbers may be given as texts and truth values as
words.  Every field that cannot be read is reported, in the order of the fields.
-/

namespace ProbTrace

/-- The settings of an evaluator.  The limits concern only how deep an evaluation may
go on a given machine, and never change a result. -/
structure Settings where
  warnOnMismatch : Bool := true
  deepRecursion : Bool := false
  recursionLimit : Int := 100000
  stackSize : Int := 512
  seed : Option Int := none

namespace Settings

/-- The fields of the settings. -/
inductive Field where
  | warnOnMismatch | deepRecursion | recursionLimit | stackSize | seed
  deriving DecidableEq

/-- The name of a field. -/
def Field.name : Field → String
  | .warnOnMismatch => "warn_on_mismatch"
  | .deepRecursion => "deep_recursion"
  | .recursionLimit => "recursion_limit"
  | .stackSize => "stack_size_mb"
  | .seed => "seed"

/-- Why a field cannot be read. -/
inductive Complaint where
  | intParsing | intParsingSize | intFromFloat | finiteNumber | intType | greaterThan
  | boolParsing | boolType
  deriving DecidableEq

/-- The word for a complaint. -/
def Complaint.word : Complaint → String
  | .intParsing => "int_parsing"
  | .intParsingSize => "int_parsing_size"
  | .intFromFloat => "int_from_float"
  | .finiteNumber => "finite_number"
  | .intType => "int_type"
  | .greaterThan => "greater_than"
  | .boolParsing => "bool_parsing"
  | .boolType => "bool_type"

/-- An ASCII digit. -/
def isPlainDigit (c : Char) : Bool :=
  '0' ≤ c && c ≤ '9'

/-- An integer in plain notation: a minus or none, and then zero alone or digits of which
the first is not zero. -/
def isPlain (cs : List Char) : Bool :=
  match if cs.head? == some '-' then cs.tail else cs with
  | [] => false
  | ['0'] => true
  | c :: rest => c != '0' && isPlainDigit c && rest.all isPlainDigit

/-- Where a numeral goes on after the zeros in front of it: at a digit or a minus; at the
character before a point; and at the last character if nothing follows. -/
def afterZeros? (last : Char) : List Char → Option (List Char)
  | [] => some [last]
  | c :: cs =>
    if c == '0' || c == '_' then afterZeros? c cs
    else if isPlainDigit c || c == '-' then some (c :: cs)
    else if c == '.' then some (last :: c :: cs)
    else none

/-- A numeral without the zeros in front of it.  It must start with a digit. -/
def dropZeros? : List Char → Option (List Char)
  | [] => none
  | c :: cs =>
    if c == '0' then afterZeros? c cs
    else if isPlainDigit c then some (c :: cs)
    else none

/-- A numeral without a fraction that is all zeros. -/
def dropZeroFraction (cs : List Char) : List Char :=
  match Number.splitAt? (· == '.') cs with
  | (whole, some fraction) =>
    if !fraction.isEmpty && fraction.all (· == '0') then whole else cs
  | (_, none) => cs

/-- Whether two underscores stand side by side. -/
def hasDoubleUnderscore : List Char → Bool
  | '_' :: '_' :: _ => true
  | _ :: cs => hasDoubleUnderscore cs
  | [] => false

/-- A numeral without the single underscores inside it. -/
def dropUnderscores (cs : List Char) : List Char :=
  if cs.head? == some '_' || cs.getLast? == some '_' || hasDoubleUnderscore cs then cs
  else cs.filter (· != '_')

/-- Bring a numeral into plain notation, as far as that can be done: what follows its sign
is freed of zeros in front, of a fraction of zeros and of underscores. -/
def simplify? (cs : List Char) : Option (List Char) :=
  let (negative, body) := Number.splitSign (Text.trimMargin cs)
  (dropZeros? body).map fun rest =>
    let digits := dropUnderscores (dropZeroFraction rest)
    if negative then '-' :: digits else digits

/-- Read an integer in plain notation. -/
def ofPlain (cs : List Char) : Except Complaint Int :=
  if isPlain cs then
    match Number.readInt? cs with
    | some i => .ok i
    | none => .error .intParsingSize
  else .error .intParsing

/-- Read an integer from a text. -/
def intOfText (s : String) : Except Complaint Int :=
  match simplify? s.toList with
  | some cs => ofPlain cs
  | none => .error .intParsing

/-- Whether an integer fits into 64 bits with a sign. -/
def isWord (i : Int) : Bool :=
  -9223372036854775808 ≤ i && i ≤ 9223372036854775807

/-- Whether the integer value of a binary64 number fits into 64 bits with a sign.  The
least such integer is left out. -/
def isFloatWord (i : Int) : Bool :=
  isWord i && isWord (i - 1)

/-- Read an integer from a value. -/
def readInt : Value → Except Complaint Int
  | .int i => .ok i
  | .bool b => .ok (if b then 1 else 0)
  | .float x =>
    match Number.decode x, Number.toInt? x with
    | .finite _ _ _, some i => if isFloatWord i then .ok i else .error .intParsingSize
    | .finite _ _ _, none => .error .intFromFloat
    | _, _ => .error .finiteNumber
  | .undefined _ => .error .finiteNumber
  | .text s | .symbol s => intOfText s
  | _ => .error .intType

/-- Read a positive integer from a value. -/
def readPositive (v : Value) : Except Complaint Int := do
  let i ← readInt v
  if 0 < i then return i else throw .greaterThan

/-- Read an integer that may be missing. -/
def readOptional : Value → Except Complaint (Option Int)
  | .null => .ok none
  | v => do return some (← readInt v)

/-- The words for true. -/
def trueWords : List String := ["1", "on", "t", "true", "y", "yes"]

/-- The words for false. -/
def falseWords : List String := ["0", "off", "f", "false", "n", "no"]

/-- Read a truth value from a word, in any case. -/
def boolOfText (s : String) : Except Complaint Bool :=
  if trueWords.contains s.toLower then .ok true
  else if falseWords.contains s.toLower then .ok false
  else .error .boolParsing

/-- Read a truth value from a number. -/
def boolOfInt (i : Int) : Except Complaint Bool :=
  if i = 0 then .ok false
  else if i = 1 then .ok true
  else .error .boolParsing

/-- Read a truth value from a value. -/
def readBool : Value → Except Complaint Bool
  | .bool b => .ok b
  | .text s | .symbol s => boolOfText s
  | .int i => if isWord i then boolOfInt i else .error .boolType
  | .float x =>
    match Number.toInt? x with
    | some i => if isFloatWord i then boolOfInt i else .error .boolType
    | none => .error .boolType
  | _ => .error .boolType

/-- Read a field if it is given, and else take its default. -/
def readField {α : Type}
    (given : String → Option Value) (field : Field) (read : Value → Except Complaint α)
    (default : α) : Except (Field × Complaint) α :=
  match given field.name with
  | none => .ok default
  | some v =>
    match read v with
    | .ok a => .ok a
    | .error c => .error (field, c)

/-- The complaint about a field, if there is one. -/
def complaint? {α : Type} : Except (Field × Complaint) α → List (Field × Complaint)
  | .ok _ => []
  | .error c => [c]

/-- Read settings from values under the names of the fields.  Other names are
ignored. -/
def ofValues (given : String → Option Value) : Except (List (Field × Complaint)) Settings :=
  let warn := readField given .warnOnMismatch readBool true
  let deep := readField given .deepRecursion readBool false
  let limit := readField given .recursionLimit readPositive 100000
  let stack := readField given .stackSize readPositive 512
  let seed := readField given .seed readOptional none
  match warn, deep, limit, stack, seed with
  | .ok warn, .ok deep, .ok limit, .ok stack, .ok seed =>
    .ok { warnOnMismatch := warn, deepRecursion := deep, recursionLimit := limit,
          stackSize := stack, seed := seed }
  | _, _, _, _, _ =>
    .error (complaint? warn ++ complaint? deep ++ complaint? limit ++ complaint? stack ++
      complaint? seed)

/-- The words that switch a setting on in the environment; all others switch it off. -/
def onWords : List String := ["1", "true", "yes", "on"]

/-- The value that an environment variable gives to a field. -/
def ofVariable (field : Field) (raw : String) : Value :=
  match field with
  | .warnOnMismatch | .deepRecursion =>
    .bool (onWords.contains (String.ofList (Text.trim raw.toList)).toLower)
  | _ => .text raw

/-- All fields, in order. -/
def Field.all : List Field :=
  [.warnOnMismatch, .deepRecursion, .recursionLimit, .stackSize, .seed]

/-- Read settings from environment variables, whose names are those of the fields in
upper case after a common start.  Empty variables count as missing. -/
def ofEnvironment (start : String) (environment : String → Option String) :
    Except (List (Field × Complaint)) Settings :=
  ofValues fun name => do
    let field ← Field.all.find? fun f => f.name == name
    let raw ← environment (start ++ Text.upper name)
    if raw.isEmpty then none else some (ofVariable field raw)

end Settings
end ProbTrace
