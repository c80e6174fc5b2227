import ProbTrace.Value
import ProbTrace.Text.Blank
import ProbTrace.Number.Numeral

/-!
# Tokens

Program text is divided into brackets, apostrophes and items.  An item is a text
between double quotes or an atom, which runs up to the next space, bracket, quote
or comment.  An atom is a truth value, an integer, a binary64 number or a symbol,
in this order of preference; backslashes are resolved before that.

A text without an end and a backslash at the very end are tokens too: they become
faults only when everything before them is in order.
-/

namespace ProbTrace
namespace Reader

/-- The two kinds of brackets. -/
inductive Bracket where
  | round | square
  deriving DecidableEq

/-- The character that closes a bracket. -/
def Bracket.closer : Bracket → Char
  | .round => ')'
  | .square => ']'

/-- The pieces of program text. -/
inductive Token where
  | opening (b : Bracket)
  /-- A closing bracket and the text from it on. -/
  | closing (b : Bracket) (rest : List Char)
  | apostrophe (position : Nat)
  | item (v : Value)
  | unterminatedText
  | danglingEscape

/-- The bracket that a character opens. -/
def opens? (c : Char) : Option Bracket :=
  if c == '(' then some .round else if c == '[' then some .square else none

/-- The bracket that a character closes. -/
def closes? (c : Char) : Option Bracket :=
  if c == ')' then some .round else if c == ']' then some .square else none

/-- The characters that end an atom. -/
def endsAtom (c : Char) : Bool :=
  Text.isSpace c || (opens? c).isSome || (closes? c).isSome || c == '"' || c == ';'

/-- A backslash pair inside a text. -/
def textEscape (c : Char) : List Char :=
  match c with
  | '\\' => ['\\']
  | '"' => ['"']
  | 'b' => ['\x08']
  | 'f' => ['\x0c']
  | 'n' => ['\n']
  | 'r' => ['\r']
  | 't' => ['\t']
  | _ => ['\\', c]

/-- The characters that a backslash makes part of an atom. -/
def atomEscapable : List Char :=
  ['\\', '\'', '`', '"', '(', ')', '[', ']', ' ', ',', '?', ';', '#']

/-- A backslash pair inside an atom. -/
def atomEscape (c : Char) : List Char :=
  if atomEscapable.contains c then [c] else ['\\', c]

/-- The value of an atom. -/
def atomValue (cs : List Char) : Value :=
  let word := String.ofList cs
  if word == "true" then .bool true
  else if word == "false" then .bool false
  else
    match Number.readInt? cs with
    | some i => .int i
    | none =>
      match Number.readFloat? cs with
      | some x => .float x
      | none => .symbol word

/-- Where in the text the scanner is.  The characters of an unfinished item are
kept in reverse. -/
inductive State where
  | between
  | comment
  | inText (done : List Char)
  | escapedText (done : List Char)
  | inAtom (done : List Char)
  | escapedAtom (done : List Char)

/-- The token of a finished atom. -/
def atomToken (done : List Char) : Token :=
  .item (atomValue done.reverse)

/-- Divide program text into tokens, starting at a position in a state. -/
def scan : State → Nat → List Char → List Token
  | .between, _, [] => []
  | .comment, _, [] => []
  | .inText _, _, [] => [.unterminatedText]
  | .escapedText _, _, [] => [.danglingEscape]
  | .inAtom done, _, [] => [atomToken done]
  | .escapedAtom _, _, [] => [.danglingEscape]
  | .comment, i, c :: cs => scan (if c == '\n' then .between else .comment) (i + 1) cs
  | .inText done, i, c :: cs =>
    if c == '"' then .item (.text (String.ofList done.reverse)) :: scan .between (i + 1) cs
    else if c == '\\' then scan (.escapedText done) (i + 1) cs
    else scan (.inText (c :: done)) (i + 1) cs
  | .escapedText done, i, c :: cs => scan (.inText ((textEscape c).reverse ++ done)) (i + 1) cs
  | .escapedAtom done, i, c :: cs => scan (.inAtom ((atomEscape c).reverse ++ done)) (i + 1) cs
  | .inAtom done, i, c :: cs =>
    if c == '\\' then scan (.escapedAtom done) (i + 1) cs
    else if endsAtom c then
      atomToken done ::
        (if c == '"' then scan (.inText []) (i + 1) cs
        else if c == ';' then scan .comment (i + 1) cs
        else
          match opens? c, closes? c with
          | some b, _ => .opening b :: scan .between (i + 1) cs
          | none, some b => .closing b (c :: cs) :: scan .between (i + 1) cs
          | none, none => scan .between (i + 1) cs)
    else scan (.inAtom (c :: done)) (i + 1) cs
  | .between, i, c :: cs =>
    if c == '"' then scan (.inText []) (i + 1) cs
    else if c == ';' then scan .comment (i + 1) cs
    else if c == '\'' then .apostrophe i :: scan .between (i + 1) cs
    else if c == '\\' then scan (.escapedAtom []) (i + 1) cs
    else if Text.isSpace c then scan .between (i + 1) cs
    else
      match opens? c, closes? c with
      | some b, _ => .opening b :: scan .between (i + 1) cs
      | none, some b => .closing b (c :: cs) :: scan .between (i + 1) cs
      | none, none => scan (.inAtom [c]) (i + 1) cs

end Reader
end ProbTrace
