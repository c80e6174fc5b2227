import ProbTrace.Observation

/-!
# Command line arguments

One optional program text and a handful of options.  Long options may be shortened to
any unambiguous beginning and may have their value after an equals sign; short options
may have it attached.  Two dashes end the options.  An argument that starts with a dash
is an option, unless it is a negative number or holds a space; options that do not exist
are collected and reported last.
-/

namespace ProbTrace
namespace CommandLine

/-- The options. -/
inductive Flag where
  | help | file | observe | seed | deepRecursion | logLevel | logFile
  deriving DecidableEq

/-- All options, in order. -/
def Flag.all : List Flag :=
  [.help, .file, .observe, .seed, .deepRecursion, .logLevel, .logFile]

/-- The ways to write an option. -/
def Flag.spellings : Flag → List String
  | .help => ["-h", "--help"]
  | .file => ["-f", "--file"]
  | .observe => ["-o", "--observe"]
  | .seed => ["--seed"]
  | .deepRecursion => ["--deep-recursion"]
  | .logLevel => ["--log-level"]
  | .logFile => ["--log-file"]

/-- The name of an option in complaints. -/
def Flag.name (f : Flag) : String :=
  "/".intercalate f.spellings

/-- Whether an option has a value. -/
def Flag.takesValue : Flag → Bool
  | .help | .deepRecursion => false
  | _ => true

/-- Every spelling with its option. -/
def spellingTable : List (String × Flag) :=
  Flag.all.flatMap fun f => f.spellings.map fun s => (s, f)

/-- The levels of log records, from the least to the most severe. -/
inductive Level where
  | debug | info | warning | error | critical
  deriving DecidableEq

/-- All levels, in order. -/
def Level.all : List Level :=
  [.debug, .info, .warning, .error, .critical]

/-- The word for a level. -/
def Level.word : Level → String
  | .debug => "DEBUG"
  | .info => "INFO"
  | .warning => "WARNING"
  | .error => "ERROR"
  | .critical => "CRITICAL"

/-- The weight of a level. -/
def Level.weight : Level → Nat
  | .debug => 10
  | .info => 20
  | .warning => 30
  | .error => 40
  | .critical => 50

/-- What the arguments say. -/
structure Options where
  program : Option String := none
  file : Option String := none
  observations : List (Address × Value) := []
  seed : Option Int := none
  deepRecursion : Bool := false
  logLevel : Level := .warning
  logFile : Option String := none

/-- Why the arguments are not accepted. -/
inductive Refusal where
  | usage (complaint : String)
  | help
  /-- A fault other than a complaint while an observation was read. -/
  | fault (f : Fault)

/-- What one argument is. -/
inductive Shape where
  | plain
  | separator
  | option (f : Flag) (attached : Option String)
  | unknownOption

/-- A text without one line end at its end. -/
def dropLineEnd (cs : List Char) : List Char :=
  if cs.getLast? == some '\n' then cs.dropLast else cs

/-- A negative number in positional notation, perhaps at the end of a line. -/
def isNegativeNumber (arg : String) : Bool :=
  match arg.toList with
  | '-' :: body =>
    match Number.splitAt? (· == '.') (dropLineEnd body) with
    | (whole, none) => !whole.isEmpty && whole.all Text.isDigit
    | (whole, some fraction) =>
      whole.all Text.isDigit && !fraction.isEmpty && fraction.all Text.isDigit
  | _ => false

/-- The part of an argument before its first equals sign, and the part after it. -/
def splitEquals (arg : String) : String × Option String :=
  match Number.splitAt? (· == '=') arg.toList with
  | (before, after) => (String.ofList before, after.map String.ofList)

/-- The options that an argument may be short for, with the spelling and the attached
value. -/
def abbreviations (arg : String) : List (String × Flag × Option String) :=
  if arg.startsWith "--" then
    let (start, attached) := splitEquals arg
    spellingTable.filterMap fun (s, f) => if s.startsWith start then some (s, f, attached) else none
  else
    let short := String.ofList (arg.toList.take 2)
    spellingTable.filterMap fun (s, f) =>
      if s == short then some (s, f, some (String.ofList (arg.toList.drop 2)))
      else if s.startsWith arg then some (s, f, none)
      else none

/-- The complaint about an argument that may be short for several options. -/
def ambiguous (arg : String) (spellings : List String) : Refusal :=
  .usage ("ambiguous option: " ++ arg ++ " could match " ++ ", ".intercalate spellings)

/-- What an argument is by itself. -/
def classify (arg : String) : Except Refusal Shape :=
  if !arg.startsWith "-" then .ok .plain
  else
    match spellingTable.lookup arg with
    | some f => .ok (.option f none)
    | none =>
      if arg.length = 1 then .ok .plain
      else
        let (start, attached) := splitEquals arg
        match attached, spellingTable.lookup start with
        | some value, some f => .ok (.option f (some value))
        | _, _ =>
          match abbreviations arg with
          | [(_, f, attached)] => .ok (.option f attached)
          | [] =>
            if isNegativeNumber arg || arg.any (· == ' ') then .ok .plain else .ok .unknownOption
          | several => .error (ambiguous arg (several.map Prod.fst))

/-- What each argument is; after two dashes all are plain. -/
def classifyAll : List String → Except Refusal (List (String × Shape))
  | [] => .ok []
  | "--" :: args => .ok (("--", .separator) :: args.map fun arg => (arg, .plain))
  | arg :: args => do
    let shape ← classify arg
    let shapes ← classifyAll args
    return (arg, shape) :: shapes

/-- The complaint about the value of an option. -/
def complain {α : Type} (name complaint : String) : Except Refusal α :=
  .error (.usage ("argument " ++ name ++ ": " ++ complaint))

/-- The level of a word. -/
def readLevel (value : String) : Except Refusal Level :=
  match Level.all.find? fun l => l.word == value with
  | some l => .ok l
  | none =>
    complain Flag.logLevel.name ("invalid choice: " ++ Text.quote value ++ " (choose from " ++
      ", ".intercalate (Level.all.map fun l => Text.quote l.word) ++ ")")

/-- Take the value of an option. -/
def takeValue (o : Options) (f : Flag) (value : String) : Except Refusal Options :=
  match f with
  | .file =>
    if o.program.isSome then complain f.name "not allowed with argument program"
    else .ok { o with file := some value }
  | .observe =>
    match Observation.read value with
    | .ok observation => .ok { o with observations := o.observations ++ [observation] }
    | .error (.failed fault) => .error (.fault fault)
    | .error refusal => complain f.name (refusal.message?.getD "")
  | .seed =>
    match Number.readInt? value.toList with
    | some i => .ok { o with seed := some i }
    | none => complain f.name ("invalid int value: " ++ Text.quote value)
  | .logLevel => do return { o with logLevel := ← readLevel value }
  | .logFile => .ok { o with logFile := some value }
  | .deepRecursion | .help => .ok o

/-- Take the program text. -/
def takeProgram (o : Options) (value : String) : Except Refusal Options :=
  if o.file.isSome then complain "program" ("not allowed with argument " ++ Flag.file.name)
  else .ok { o with program := some value }

/-- Go through the arguments.  `vacant` tells that no plain argument was met yet: the
first one is the program, and the others are left over. -/
def collect (vacant : Bool) (o : Options) (extras : List String) :
    List (String × Shape) → Except Refusal (Options × List String)
  | [] => .ok (o, extras)
  | (_, .option f (some value)) :: rest =>
    if f.takesValue then do collect vacant (← takeValue o f value) extras rest
    else complain f.name ("ignored explicit argument " ++ Text.quote value)
  | (_, .option .help none) :: _ => .error .help
  | (_, .option .deepRecursion none) :: rest =>
    collect vacant { o with deepRecursion := true } extras rest
  | (_, .option f none) :: (value, .plain) :: rest => do
    collect vacant (← takeValue o f value) extras rest
  | (_, .option f none) :: _ => complain f.name "expected one argument"
  | (arg, .unknownOption) :: rest => collect vacant o (extras ++ [arg]) rest
  | (arg, .separator) :: rest =>
    collect vacant o (if vacant then extras else extras ++ [arg]) rest
  | (arg, .plain) :: (_, .separator) :: rest =>
    if vacant then do collect false (← takeProgram o arg) extras rest
    else collect false o (extras ++ [arg, "--"]) rest
  | (arg, .plain) :: rest =>
    if vacant then do collect false (← takeProgram o arg) extras rest
    else collect false o (extras ++ [arg]) rest

/-- Read the arguments. -/
def readArguments (argv : List String) : Except Refusal Options := do
  let shapes ← classifyAll argv
  let (o, extras) ← collect true {} [] shapes
  if o.program.isNone && o.file.isNone then
    throw (.usage ("one of the arguments program " ++ Flag.file.name ++ " is required"))
  if !extras.isEmpty then
    throw (.usage ("unrecognized arguments: " ++ " ".intercalate extras))
  return o

end CommandLine
end ProbTrace
