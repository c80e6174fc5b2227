/-!
# Keys and addresses

A key names one step from a node of a trace to a child: a name, an integer, or
a symbol.  A symbol is a key of its own and never the name it is spelled with.
An address is the sequence of keys from the root of a trace to a node.
-/

namespace ProbTrace

/-- One step of an address. -/
inductive Key where
  | name (text : String)
  | index (position : Int)
  | symbol (text : String)
  deriving DecidableEq, Inhabited

/-- The path from the root of a trace to a node. -/
abbrev Address := List Key

end ProbTrace
