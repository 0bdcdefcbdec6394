/-!
# Symbols

The symbols of a program say which source line each instruction came from, where each method
starts in the code, and where each class has its descriptor on the stack.  A table may be missing
altogether, which is not the same as an empty table.
-/

namespace MiniJam

/-- A named address: the first instruction of a method, or the descriptor of a class. -/
structure Entry where
  addr : Int
  name : String
  /-- The source line of the declaration, counted from zero. -/
  line : Int
  deriving DecidableEq, Repr, Inhabited

/-- What is known about the source of a program. -/
structure Symbols where
  source : String
  /-- The source line of each instruction, counted from zero. -/
  lines : Option (Array Int)
  /-- The methods, in the order of their code. -/
  methods : Option (Array Entry)
  /-- The classes, in the order of their descriptors. -/
  classes : Option (Array Entry)
  deriving DecidableEq, Repr

namespace Symbols

/-- The first of the positions `lo, …, hi` whose entry lies above `addr`, found by halving: the
answer is `hi` if there is none.  In a table that is not sorted it is the position the halving
ends at. -/
def firstAbove (table : Array Entry) (addr : Int) (lo hi : Nat) : Nat :=
  if lo < hi then
    let mid := (lo + hi) / 2
    match table[mid]? with
    | some e => if e.addr > addr then firstAbove table addr lo mid
                else firstAbove table addr (mid + 1) hi
    | none => hi
  else lo
termination_by hi - lo
decreasing_by all_goals omega

def entryAt? (table : Option (Array Entry)) (addr : Int) : Option Entry :=
  (table.getD #[]).find? (·.addr == addr)

def methodAt? (s : Symbols) (addr : Int) : Option Entry :=
  entryAt? s.methods addr

/-- The method whose code includes `addr`: the last one that does not start after it. -/
def methodContaining? (s : Symbols) (addr : Int) : Option Entry :=
  let table := s.methods.getD #[]
  match firstAbove table addr 0 table.size with
  | 0 => none
  | i + 1 => table[i]?

/-- The class whose descriptor lies at `addr`. -/
def classAt? (s : Symbols) (addr : Int) : Option Entry :=
  entryAt? s.classes addr

/-- The source line of the instruction at `addr`, counted from zero. -/
def line? (s : Symbols) (addr : Int) : Option Int :=
  if addr < 0 then none else (s.lines.getD #[])[addr.toNat]?

/-- The entries of a table by address; entries of one address keep their order. -/
def sortEntries (table : Array Entry) : Array Entry :=
  (table.toList.mergeSort (fun a b => decide (a.addr ≤ b.addr))).toArray

def sorted (s : Symbols) : Symbols :=
  { s with methods := s.methods.map sortEntries, classes := s.classes.map sortEntries }

end Symbols

end MiniJam
