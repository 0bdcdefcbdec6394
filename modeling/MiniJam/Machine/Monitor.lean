import MiniJam.Machine.Run

/-!
# Machines in use

Whoever uses a machine steps or runs it, writes to its output and keeps count of what it does.
-/

namespace MiniJam

/-- What was counted while a machine was used. -/
structure Tally where
  /-- The number of instructions, if any were asked for. -/
  executed : Option Nat
  runs : Nat
  /-- The conditions in which the machine stopped, the last one first. -/
  stops : List Condition

def Tally.zero : Tally := ⟨none, 0, []⟩

def Tally.add (t : Tally) (n : Nat) : Tally := { t with executed := some (t.executed.getD 0 + n) }

def Tally.stop (t : Tally) (m : Machine) : Tally :=
  if m.state = .running then t else { t with stops := m.state.condition :: t.stops }

/-- A machine in use. -/
structure Monitor where
  machine : Machine
  tally : Tally
  crash : Option Fault

namespace Monitor

def start (m : Machine) : Monitor := ⟨m, .zero, none⟩

def say (s : Monitor) (text : String) : Monitor :=
  { s with machine := { s.machine with output := s.machine.output.write text } }

def sayAll (s : Monitor) (texts : List String) : Monitor := texts.foldl say s

def present (s : Monitor) (w : Machine.Writer Unit) : Monitor :=
  let (pieces, crash) := w.pieces
  { s.sayAll pieces with crash }

def step (s : Monitor) : Monitor :=
  if s.machine.state ≠ .running then s
  else
    match s.machine.step with
    | (m, some f) => ⟨m, s.tally, some f⟩
    | (m, none) => ⟨m, (s.tally.add 1).stop m, none⟩

/-- Runs the machine, if the run ends. -/
def run (s : Monitor) : Option Monitor := do
  let r ← s.machine.run
  let tally := (s.tally.add r.executed).stop r.machine
  return ⟨r.machine, { tally with runs := tally.runs + 1 }, r.crash⟩

end Monitor

end MiniJam
