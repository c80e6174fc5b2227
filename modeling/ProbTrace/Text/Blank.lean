/-!
# Blank characters

The characters that count as white space in program text and in numerals.
They are the Unicode separators together with the ASCII and Latin-1 controls
that move the print position or divide records.  Trimming removes them from
both ends of a text and leaves the inside as it is.  The controls that divide
records are blanks around a program, and no blanks around a numeral.
-/

namespace ProbTrace
namespace Text

/-- White space in the wide sense: the characters that trimming removes. -/
def isBlank (c : Char) : Bool :=
  let n := c.toNat
  (9 ≤ n && n ≤ 13) || (28 ≤ n && n ≤ 32) || n == 0x85 || n == 0xA0 || n == 0x1680 ||
    (0x2000 ≤ n && n ≤ 0x200A) || n == 0x2028 || n == 0x2029 || n == 0x202F || n == 0x205F ||
    n == 0x3000

/-- White space in the narrow sense: the six characters that divide the items
of a program. -/
def isSpace (c : Char) : Bool :=
  let n := c.toNat
  (9 ≤ n && n ≤ 13) || n == 32

/-- White space around a numeral: every blank that does not divide records. -/
def isMargin (c : Char) : Bool :=
  isBlank c && !(28 ≤ c.toNat && c.toNat ≤ 31)

/-- Remove the characters of a class from both ends. -/
def trimBoth (p : Char → Bool) (cs : List Char) : List Char :=
  ((cs.dropWhile p).reverse.dropWhile p).reverse

/-- Remove the blanks at both ends. -/
def trim (cs : List Char) : List Char :=
  trimBoth isBlank cs

/-- Remove the white space around a numeral. -/
def trimMargin (cs : List Char) : List Char :=
  trimBoth isMargin cs

theorem mem_of_mem_trim {c : Char} {cs : List Char} (h : c ∈ trim cs) : c ∈ cs := by
  have hmem : c ∈ (cs.dropWhile isBlank).reverse :=
    (List.dropWhile_sublist isBlank).mem (List.mem_reverse.mp h)
  exact (List.dropWhile_sublist isBlank).mem (List.mem_reverse.mp hmem)

end Text
end ProbTrace
