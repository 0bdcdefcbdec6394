import MiniJam.Listing
import MiniJam.Machine.Console
import MiniJam.Machine.Convention
import MiniJam.Machine.Failure
import MiniJam.Word

/-!
# The machine

The code segment holds the program from address zero upward; the primitive routines follow the
capacity of the code segment.  The data store holds the stack, which grows up from address zero,
and the heap, which grows down from its end.
-/

namespace MiniJam

/-- Whether a machine can go on, and why not. -/
inductive MachineState where
  | running
  | halted
  | failed (why : Failure)
  deriving DecidableEq, Repr

namespace MachineState

def condition : MachineState → Condition
  | running => .running
  | halted => .halted
  | failed why => why.condition

def detail : MachineState → String
  | failed why => why.detail
  | _ => ""

end MachineState

/-- A machine loaded with one program. -/
structure Machine where
  name : String
  program : Program
  symbols : Option Symbols
  capacity : Int
  data : Array Int32
  /-- Code pointer: the address of the next instruction. -/
  cp : Int
  /-- Stack top: the address after the last stack word. -/
  st : Int
  lb : Int
  ht : Int
  ob : Int
  state : MachineState
  input : Input
  /-- The last character read; `-1` at the end of the input. -/
  lastChar : Int
  output : Output
  /-- The addresses before which a run stops, in increasing order. -/
  breakpoints : List Int
  /-- Whether the last run stopped at a breakpoint. -/
  paused : Bool
  /-- Whether a fault leaves the machine instead of failing the program. -/
  hardCrash : Bool
  /-- The report of the last failure. -/
  report : String
  failures : Nat

namespace Machine

/-- Code top: the address after the last instruction. -/
def ct (m : Machine) : Int := m.program.size

def pb (m : Machine) : Int := m.capacity

def pt (m : Machine) : Int := wrap64 (m.capacity + Prim.count)

/-- Heap base: the end of the data store. -/
def hb (m : Machine) : Int := m.data.size

def reg (m : Machine) : Reg → Int
  | .zr => 0
  | .cb => 0
  | .ct => m.ct
  | .cp => m.cp
  | .pb => m.pb
  | .pt => m.pt
  | .sb => 0
  | .st => m.st
  | .lb => m.lb
  | .hb => m.hb
  | .ht => m.ht
  | .ob => m.ob

def instrAt? (m : Machine) (addr : Int) : Option Instr :=
  if addr < 0 then none else m.program[addr.toNat]?

def reportOf (m : Machine) (why : Failure) : String :=
  let instr := match m.instrAt? m.cp with
    | some i => " " ++ i.text
    | none => ""
  let method := match m.symbols.bind (·.methodContaining? m.cp) with
    | some e => ", in " ++ e.name
    | none => ""
  let line := match m.symbols.bind (·.line? m.cp) with
    | some l => s!" at line {wrap64 (l + 1)}"
    | none => ""
  s!"{why.detail}\nError occurred at instruction {m.cp}" ++ instr ++ method ++ line

def fail (m : Machine) (why : Failure) : Machine :=
  { m with state := .failed why, report := m.reportOf why, failures := m.failures + 1 }

/-- The machine with its data store cleared, at its first instruction.  Breakpoints, input and
output stay.  A program without instructions fails at once. -/
def reset (m : Machine) : Machine :=
  let m := { m with
    data := Array.replicate m.data.size 0
    cp := 0
    st := 0
    lb := 0
    ht := m.data.size
    ob := 0
    state := .running
    lastChar := 0
    paused := false }
  if m.program.isEmpty then m.fail .emptyProgram else m

end Machine

end MiniJam
