import ProbTrace.CommandLine.Arguments
import ProbTrace.Program

/-!
# One use of the command line

Read the arguments, run the program, and print its value, its score and its trace, line by
line until one cannot be composed.  What goes wrong in a program is logged and printed; the
failure of an operation on values is let through, and so is that of opening the log.  Log
records below the chosen level are dropped, and the others go to a file if one is named.
-/

namespace ProbTrace
namespace CommandLine

/-- The parts of the program that write log records. -/
inductive Source where
  | main | reader | evaluator | logging

/-- The name of a part in its log records. -/
def Source.name : Source → String
  | .main => "metaprob.main"
  | .reader => "metaprob.sexp_parser.sexp_parser"
  | .evaluator => "metaprob.infer_evaluator.infer_evaluator"
  | .logging => "metaprob.config.logging_config"

/-- A log record. -/
structure Record where
  source : Source
  level : Level
  text : String

/-- A log record as a line. -/
def Record.line (r : Record) : String :=
  r.source.name ++ " - " ++ r.level.word ++ " - " ++ r.text ++ "\n"

/-- The record of a report. -/
def Record.ofNotice (n : Notice) : Record where
  source := .evaluator
  level := match n with
    | .mismatch _ _ _ => .warning
    | _ => .error
  text := n.text

/-- The record that the reader writes about a fault of its own. -/
def Record.ofReading? : Fault → Option Record
  | .emptyInput _ => some ⟨.reader, .error,
      "S-expression parsing failed: Input string is empty or contains only whitespace."⟩
  | .unbalanced _ got expected => some ⟨.reader, .error,
      "S-expression syntax error (Unbalanced Parentheses): " ++ Fault.unbalancedText got expected⟩
  | .strayCloser _ rest => some ⟨.reader, .error,
      "S-expression syntax error (Unexpected closing bracket): " ++ Fault.strayText rest⟩
  | _ => none

/-- Why a file cannot be opened. -/
inductive FileFailure where
  | missing | denied | occupied | notADirectory | directory | nameTooLong
  deriving DecidableEq

/-- The number of a failure. -/
def FileFailure.code : FileFailure → Nat
  | missing => 2
  | denied => 13
  | occupied => 17
  | notADirectory => 20
  | directory => 21
  | nameTooLong => 36

/-- What a failure means. -/
def FileFailure.meaning : FileFailure → String
  | missing => "No such file or directory"
  | denied => "Permission denied"
  | occupied => "File exists"
  | notADirectory => "Not a directory"
  | directory => "Is a directory"
  | nameTooLong => "File name too long"

/-- The complaint about a file. -/
def FileFailure.text (path : String) (f : FileFailure) : String :=
  "[Errno " ++ Number.intText f.code ++ "] " ++ f.meaning ++ ": " ++ Text.quote path

/-- How files are reached. -/
structure Files where
  /-- The content of a file. -/
  read : String → Except FileFailure String
  /-- Why a file cannot be added to, if it cannot. -/
  appendFailure? : String → Option FileFailure

/-- Whether a text can name a file: it has no NUL in it. -/
def isPath (path : String) : Bool :=
  !path.any (· == '\x00')

/-- How a use of the command line ends. -/
inductive Ending where
  | finished (status : Nat)
  | usage
  | fault (f : Fault) (message : Option String)
  /-- The log file cannot be opened. -/
  | noLog (f : FileFailure)
  | invalidSettings (complaints : List (Settings.Field × Settings.Complaint))
  | tooDeep

/-- What a use of the command line leaves behind. -/
structure Report where
  stdout : String := ""
  stderr : String := ""
  /-- The log file, and what was added to it. -/
  log : Option (String × String) := none
  ending : Ending

/-- Make all line ends the same. -/
def unifyLines : List Char → List Char
  | [] => []
  | '\r' :: '\n' :: cs => '\n' :: unifyLines cs
  | '\r' :: cs => '\n' :: unifyLines cs
  | c :: cs => c :: unifyLines cs

/-- A line that shows values; none if one of them has no text. -/
def line? (s : Store) (shown : List Value) (text : String) : Option String :=
  if shown.all s.hasText then some (text ++ "\n") else none

/-- The lines of the printed result of a run. -/
def resultLines (s : Store) (e : Evaluator.Execution) : List (Option String) :=
  line? s [e.value] ("value: " ++ (s.view e.value).render) ::
    line? s [e.score] ("score: " ++ (s.view e.score).display) ::
    line? s [] "trace:" ::
    (s.entries e.trace).map fun (a, v) =>
      line? s [a.toValue, v]
        ("  " ++ Observation.addressText (a.map Key.toValue) ++ " => " ++ (s.view v).render)

/-- The lines up to the first one that cannot be composed, and whether these are all. -/
def printLines : List (Option String) → String × Bool
  | [] => ("", true)
  | none :: _ => ("", false)
  | some line :: rest =>
    let (text, complete) := printLines rest
    (line ++ text, complete)

/-- The path that an option gives; an empty one counts as none. -/
def givenPath? (option : Option String) : Option String :=
  option.bind fun path => if path.isEmpty then none else some path

/-- Put together what a use of the command line leaves behind. -/
def report
    (o : Options) (records : List Record) (stdout errorText : String) (ending : Ending) :
    Report :=
  let kept := records.filter fun r => o.logLevel.weight ≤ r.level.weight
  let log := String.join (kept.map Record.line)
  match givenPath? o.logFile with
  | none => { stdout, stderr := log ++ errorText, ending }
  | some path => { stdout, stderr := errorText, log := some (path, log), ending }

/-- Fail with a complaint, which is logged and printed. -/
def failWith (o : Options) (records : List Record) (logged printed : String) : Report :=
  report o (records ++ [⟨.main, .error, logged⟩]) "" ("Error: " ++ printed ++ "\n") (.finished 1)

/-- Report the end of a run. -/
def reportRun
    (o : Options) (records : List Record) :
    EStateM.Result Halt Machine Evaluator.Execution → Report
  | .ok e m =>
    let (text, complete) := printLines (resultLines m.store e)
    report o (records ++ m.notices.toList.map Record.ofNotice) text ""
      (if complete then .finished 0 else .fault .wrongValue none)
  | .error .tooDeep m => report o (records ++ m.notices.toList.map Record.ofNotice) "" "" .tooDeep
  | .error (.fault f) m =>
    let records := records ++ (Record.ofReading? f).toList ++ m.notices.toList.map Record.ofNotice
    let message := f.message? m.store.view
    if f.kind.isProgramFault then
      failWith o records ("Evaluation failed: " ++ message.getD "") (message.getD "")
    else report o records "" "" (.fault f message)

/-- The settings of the environment, changed by the options. -/
def overrideSettings (o : Options) (settings : Settings) : Settings :=
  { settings with
    seed := o.seed.orElse fun _ => settings.seed
    deepRecursion := o.deepRecursion || settings.deepRecursion }

/-- The start of the names of the environment variables. -/
def variableStart : String := "METAPROB_"

/-- Run the program with a text. -/
def runText
    (environment : String → Option String) (o : Options) (records : List Record)
    (text : Option String) : Report :=
  match Settings.ofEnvironment variableStart environment with
  | .error complaints => report o records "" "" (.invalidSettings complaints)
  | .ok settings =>
    match text with
    | none => report o records "" "" (.fault .wrongType none)
    | some text =>
      let ctx := Program.context (overrideSettings o settings)
      let observations := o.observations.map fun (a, v) => (a.toValue, v)
      reportRun o records (Program.run ctx text observations {})

/-- Why the log cannot be opened, if it cannot. -/
def logProblem? (files : Files) (o : Options) : Option Ending :=
  match givenPath? o.logFile with
  | none => none
  | some path =>
    if isPath path then (files.appendFailure? path).map .noLog
    else some (.fault .wrongValue none)

/-- Run the program that the options give, in a file or as a text. -/
def runGiven
    (files : Files) (environment : String → Option String)
    (o : Options) (records : List Record) : Report :=
  match givenPath? o.file with
  | none => runText environment o records o.program
  | some path =>
    if isPath path then
      match files.read path with
      | .error failure =>
        failWith o records ("Cannot read program file " ++ path ++ ": " ++ failure.text path)
          ("cannot read " ++ path ++ ": " ++ failure.text path)
      | .ok content =>
        runText environment o records (some (String.ofList (unifyLines content.toList)))
    else report o records "" "" (.fault .wrongValue none)

/-- What to do with accepted arguments: open the log, then run the program. -/
def perform
    (files : Files) (environment : String → Option String) (o : Options) : Report :=
  match logProblem? files o with
  | some ending => { ending }
  | none =>
    runGiven files environment o
      [⟨.logging, .info, "Logging initialized at " ++ o.logLevel.word ++ " level"⟩]

/-- The usage of the command. -/
def usageText : String :=
  "usage: metaprob [-h] [-f FILE] [-o ADDR=VALUE] [--seed SEED] [--deep-recursion]\n" ++
    "                [--log-level LEVEL] [--log-file LOG_FILE]\n                [program]\n"

/-- Use the command line. -/
def execute
    (files : Files) (environment : String → Option String) (argv : List String) : Report :=
  match readArguments argv with
  | .ok o => perform files environment o
  | .error (.usage complaint) =>
    { stderr := "metaprob: error: " ++ complaint ++ "\n", ending := .usage }
  | .error .help => { stdout := usageText, ending := .finished 0 }
  | .error (.fault f) => { ending := .fault f (f.message? id) }

end CommandLine
end ProbTrace
