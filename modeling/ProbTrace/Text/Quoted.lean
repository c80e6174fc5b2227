import ProbTrace.Text.Printable

/-!
# Quoted text

The written form of a text inside messages and results.  A text stands in
single quotes, or in double quotes when it holds a single quote and no double
one, so that the enclosing quote is escaped only when both kinds occur.
Characters that have no shape are written by their code point.
-/

namespace ProbTrace
namespace Text

/-- The lower-case hexadecimal digits of a number, filled with zeros to a width. -/
def hexDigits (width n : Nat) : String :=
  let ds := Nat.toDigits 16 n
  String.ofList (List.replicate (width - ds.length) '0' ++ ds)

/-- The quote that encloses a text. -/
def quoteFor (s : String) : Char :=
  if s.any (· == '\'') && !s.any (· == '"') then '"' else '\''

/-- The written form of one character between quotes. -/
def escapeChar (quote c : Char) : String :=
  if c == quote || c == '\\' then String.ofList ['\\', c]
  else if c == '\n' then "\\n"
  else if c == '\r' then "\\r"
  else if c == '\t' then "\\t"
  else if isPrintable c then String.singleton c
  else if c.toNat < 0x100 then "\\x" ++ hexDigits 2 c.toNat
  else if c.toNat < 0x10000 then "\\u" ++ hexDigits 4 c.toNat
  else "\\U" ++ hexDigits 8 c.toNat

/-- A text with its quotes and escapes. -/
def quote (s : String) : String :=
  let q := quoteFor s
  s.foldl (fun out c => out ++ escapeChar q c) (String.singleton q) ++ String.singleton q

end Text
end ProbTrace
