import MiniJam.Listing

/-!
# Objects

What a compilation makes and a machine runs.
-/

namespace MiniJam

/-- A program with the symbols that describe it. -/
structure Object where
  program : Program
  symbols : Option Symbols
  deriving DecidableEq, Repr

end MiniJam
