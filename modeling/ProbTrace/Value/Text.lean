import ProbTrace.Value
import ProbTrace.Text.Quoted
import ProbTrace.Number.Shortest

/-!
# The text of values

How values are written in results and messages.  The text of a trace shows its
content, so cells are replaced by what they hold before a value is written.
Identities are not shown: nothing has its serial number in its text.

Not every value can be written.  An integer with too many digits has no text, and
neither has a value that would show one; composing a text with such a value in it
fails.
-/

namespace ProbTrace

/-- The name a builtin procedure goes by in its text. -/
def Builtin.label : Builtin → String
  | .add => "add"
  | .subtract => "subtract"
  | .multiply => "multiply"
  | .divide => "divide"
  | .equal => "equal"
  | .notEqual => "not_equal"
  | .less => "lt"
  | .greater => "gt"
  | .lessEqual => "le"
  | .greaterEqual => "ge"
  | .logicalNot => "logical_not"
  | .makeList => "make_list"
  | .makeTuple => "make_tuple"
  | .pair => "pair"
  | .address => "addr"
  | .first => "first"
  | .rest => "rest"
  | .nth => "nth"
  | .length => "length"
  | .range => "int_range"
  | .exp => "exp"
  | .log => "log"
  | .note => "note"

/-- The builtins that are operations of the machine rather than definitions. -/
def Builtin.isMachineOperation : Builtin → Bool
  | .less | .greater | .lessEqual | .greaterEqual | .exp | .log => true
  | _ => false

/-- The text of a builtin procedure. -/
def Builtin.text (b : Builtin) : String :=
  if b.isMachineOperation then "<built-in function " ++ b.label ++ ">"
  else "<function " ++ b.label ++ " at 0x>"

/-- The name of a distribution. -/
def Distribution.name : Distribution → String
  | .flip => "flip"
  | .uniform => "uniform"
  | .gaussian => "gaussian"

/-- The bare name of a special procedure. -/
def Special.baseName : Special → String
  | .apply => "apply"
  | .map => "map"
  | .random d => d.name
  | .scored => "scored"

/-- The name a special procedure goes by. -/
def Special.label (s : Special) : String :=
  "inf-" ++ s.baseName

/-- The text of a key. -/
def Key.text : Key → String
  | .name s => Text.quote s
  | .index i => Number.intText i
  | .symbol s => "Symbol(" ++ Text.quote s ++ ")"

/-- The text of a truth value. -/
def boolText (b : Bool) : String :=
  if b then "True" else "False"

/-- Texts divided by commas. -/
def commaSeparated (texts : List String) : String :=
  ", ".intercalate texts

/-- The text of a list, given those of its items. -/
def listText (texts : List String) : String :=
  "[" ++ commaSeparated texts ++ "]"

/-- The text of a tuple, given those of its items; a single item keeps a comma. -/
def tupleText : List String → String
  | [one] => "(" ++ one ++ ",)"
  | texts => "(" ++ commaSeparated texts ++ ")"

/-- The text of a trace, given those of its value and of its children. -/
def traceText (value : Option String) (children : List String) : String :=
  let below := if children.isEmpty then [] else ["\x7b" ++ commaSeparated children ++ "\x7d"]
  "Trie(" ++ commaSeparated (value.toList ++ below) ++ ")"

/-- The text of a child, given that of its trace. -/
def childText (key : Key) (below : String) : String :=
  key.text ++ ": " ++ below

/-- The text of a closure, given that of its name. -/
def closureText (name : String) : String :=
  "<NativeProcedure name=" ++ name ++ " env_id=>"

/-- The text of a symbol. -/
def symbolText (name : String) : String :=
  "Symbol(" ++ Text.quote name ++ ")"

/-- The text of a quoted datum, given that of the datum. -/
def quotedText (datum : String) : String :=
  "Quoted(" ++ datum ++ ")"

/-- The text of bracketed items, given those of the items. -/
def bracketsText (texts : List String) : String :=
  "Brackets(I=" ++ listText texts ++ ")"

/-- The text of a special procedure. -/
def Special.text (s : Special) : String :=
  "<InferProcedure " ++ s.label ++ ">"

mutual

/-- The text of a value. -/
def Value.render : Value → String
  | .null => "None"
  | .bool b => boolText b
  | .int i => Number.intText i
  | .float x => Number.floatText x
  | .undefined _ => Number.floatText Number.notANumber
  | .text s => Text.quote s
  | .symbol s => symbolText s
  | .list items => listText (renderItems items)
  | .tuple items => tupleText (renderItems items)
  | .quoted datum => quotedText datum.render
  | .brackets items => bracketsText (renderItems items)
  | .trace t => t.render
  | .tag _ _ => "<captured tag address>"
  | .closure _ _ _ name => closureText name.render
  | .builtin b => b.text
  | .special s => s.text

/-- The texts of the items of a sequence. -/
def renderItems : List Value → List String
  | [] => []
  | v :: vs => v.render :: renderItems vs

/-- The text of a trace: its value, if it has one, and its children. -/
def Trace.render : Trace → String
  | .tree (some v) children => traceText (some v.render) (renderChildren children)
  | .tree none children => traceText none (renderChildren children)
  | .cell _ => traceText none []

/-- The texts of the children of a node. -/
def renderChildren : List (Key × Trace) → List String
  | [] => []
  | (k, t) :: rest => childText k t.render :: renderChildren rest

end

/-- Whether a key has a text. -/
def Key.hasText : Key → Bool
  | .index i => Number.hasText i
  | _ => true

mutual

/-- Whether a value has a text. -/
def Value.hasText : Value → Bool
  | .int i => Number.hasText i
  | .list items => allHaveText items
  | .tuple items => allHaveText items
  | .quoted datum => datum.hasText
  | .brackets items => allHaveText items
  | .trace t => t.hasText
  | .closure _ _ _ name => name.hasText
  | _ => true

/-- Whether all items of a sequence have a text. -/
def allHaveText : List Value → Bool
  | [] => true
  | v :: vs => v.hasText && allHaveText vs

/-- Whether a trace has a text. -/
def Trace.hasText : Trace → Bool
  | .tree (some v) children => v.hasText && childrenHaveText children
  | .tree none children => childrenHaveText children
  | .cell _ => true

/-- Whether all children of a node have a text. -/
def childrenHaveText : List (Key × Trace) → Bool
  | [] => true
  | (k, t) :: rest => k.hasText && t.hasText && childrenHaveText rest

end

/-- Whether an address has a text. -/
def Address.hasText (a : Address) : Bool :=
  a.all Key.hasText

theorem Address.hasText_append (a b : Address) : hasText (a ++ b) = (a.hasText && b.hasText) :=
  List.all_append

/-- The text of a value on its own: a text or a symbol as it is, anything else
as inside a sequence. -/
def Value.display : Value → String
  | .text s => s
  | .symbol s => s
  | v => v.render

/-- The word for the type of a value. -/
def Value.typeWord : Value → String
  | .null => "NoneType"
  | .bool _ => "bool"
  | .int _ => "int"
  | .float _ => "float"
  | .undefined _ => "float"
  | .text _ => "str"
  | .symbol _ => "Symbol"
  | .list _ => "list"
  | .tuple _ => "tuple"
  | .quoted _ => "Quoted"
  | .brackets _ => "Brackets"
  | .trace _ => "Trie"
  | .tag _ _ => "TraceContext"
  | .closure _ _ _ _ => "NativeProcedure"
  | .builtin b => if b.isMachineOperation then "builtin_function_or_method" else "function"
  | .special _ => "InferProcedure"

/-- The name of a procedure in diagnostics: the name it was given, unless that
is missing or empty, and otherwise its text. -/
def Value.procedureName : Value → String
  | .builtin b => b.label
  | .special s => s.label
  | v@(.closure _ _ _ name) =>
    match name with
    | .null | .bool false | .int 0 | .text "" | .symbol "" | .list [] | .tuple [] => v.render
    | .float x => if x == 0.0 then v.render else name.display
    | _ => name.display
  | v => v.render

end ProbTrace
