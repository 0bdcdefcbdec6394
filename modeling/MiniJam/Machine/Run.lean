import MiniJam.Machine.Step
import MiniJam.Object

/-!
# Loading and running

A machine is loaded with a program under a few options, and then stepped or run.  A run ends when
the program stops or the code pointer reaches a breakpoint; it always makes at least one step.
-/

namespace MiniJam

/-- Why a machine cannot be loaded or a breakpoint cannot be set. -/
inductive LoadError where
  | dataStoreTooSmall (size : Int)
  | invalidCapacity (capacity : Int)
  | breakpointOutside (addr top : Int)
  | programTooLong (length : Nat) (capacity : Int)
  deriving DecidableEq, Repr

def LoadError.message : LoadError → String
  | dataStoreTooSmall size => s!"data store size {size} too small"
  | invalidCapacity capacity => s!"invalid code capacity {capacity}"
  | breakpointOutside addr top => s!"breakpoint address {addr} outside code [0, {top})"
  | programTooLong length capacity =>
    s!"program of {length} instructions exceeds the code capacity {capacity}"

namespace Machine

/-- The options of a machine. -/
structure Options where
  dataStore : Option Int
  capacity : Option Int
  /-- Whether the symbols of the program are left out. -/
  noSymbols : Bool
  hardCrash : Bool
  breakpoints : List Int

def Options.default : Options := ⟨none, none, false, false, []⟩

/-- Stops runs before the instruction at `addr`. -/
def setBreakpoint (m : Machine) (addr : Int) : Except LoadError Machine :=
  if 0 ≤ addr ∧ addr < m.ct then
    .ok { m with breakpoints := Listing.insertAddr addr m.breakpoints }
  else .error (.breakpointOutside addr m.ct)

/-- Whether runs stop before the instruction at `addr`. -/
def isBreakpoint (m : Machine) (addr : Int) : Bool :=
  m.breakpoints.contains addr

def clearBreakpoint (m : Machine) (addr : Int) : Machine :=
  { m with breakpoints := m.breakpoints.filter (· != addr) }

def load (name : String) (object : Object) (o : Options) (input : Input) (output : Output) :
    Except LoadError Machine := do
  let dataStore := o.dataStore.getD defaultDataStore
  if dataStore ≤ linkWords then throw (.dataStoreTooSmall dataStore)
  let capacity := o.capacity.getD defaultCapacity
  if capacity ≤ 0 then throw (.invalidCapacity capacity)
  let blank : Machine :=
    { name, program := object.program
      symbols := if o.noSymbols then none else object.symbols
      capacity, data := Array.replicate dataStore.toNat 0
      cp := 0, st := 0, lb := 0, ht := 0, ob := 0, state := .running
      input, lastChar := 0, output, breakpoints := [], paused := false
      hardCrash := o.hardCrash, report := "", failures := 0 }
  let m ← o.breakpoints.foldlM setBreakpoint blank
  if capacity < m.ct then throw (.programTooLong m.program.size capacity)
  return m.reset

/-- What a run did. -/
structure Run where
  machine : Machine
  executed : Nat
  crash : Option Fault

/-- Makes steps until the machine stops or reaches a breakpoint; `executed` steps were made before.
There is no answer if it never does. -/
def runFrom (executed : Nat) (m : Machine) : Option Run :=
  match m.advance with
  | (m, some f) => some ⟨m, executed, some f⟩
  | (m, none) =>
    if m.state ≠ .running then some ⟨m, executed + 1, none⟩
    else if m.isBreakpoint m.cp then some ⟨{ m with paused := true }, executed + 1, none⟩
    -- A plain call would leave its position in the file in the body of the fixpoint.
    else by apply runFrom; exact executed + 1; exact m
partial_fixpoint

/-- Runs a machine until it stops or reaches a breakpoint.  There is no answer if it never does. -/
def run (m : Machine) : Option Run :=
  let m := { m with paused := false }
  match m.state with
  | .running => m.runFrom 0
  | _ => some ⟨m, 0, none⟩

def listing (m : Machine) : String :=
  s!"Prog: {m.name}\n" ++ Listing.ofProgram m.program m.symbols

end Machine

end MiniJam
