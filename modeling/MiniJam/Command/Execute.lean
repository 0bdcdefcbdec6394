import MiniJam.Command.Basic
import MiniJam.Debugger

/-!
# The command `mjam`

It runs an object file, or lets it be debugged.
-/

namespace MiniJam.Command

def executeFlags : List (String × Flags.Kind) :=
  [("debug", .switch), ("break", Flags.integerList)] ++ serviceFlags

/-- The options of the machine: breakpoints that are given win over those of the configuration. -/
def executeOptions (set : Flags.Settings) (c : Config) : Session.Options :=
  let given := set.integers "break"
  { Session.Options.default with
    machine := { Machine.Options.default with
      dataStore := some c.dataStoreSize
      capacity := some c.codeCapacity
      breakpoints := if given.isEmpty then c.breakpoints.getD [] else given } }

/-- Runs a machine until it stops and dumps it at every breakpoint.  There is no answer if it never
stops. -/
def runThrough (s : Monitor) : Option Monitor :=
  match s.run with
  | none => none
  | some s =>
    if s.crash.isSome || s.machine.state ≠ .running then some s
    else
      let s := s.present s.machine.dump
      -- A plain call would leave its position in the file in the body of the fixpoint.
      if s.crash.isSome then some s else by apply runThrough; exact s
partial_fixpoint

/-- Lets a machine be debugged with the commands on its input, all of which are read. -/
def debugThrough (s : Monitor) : Option Monitor :=
  let input := s.machine.input
  let script := Debugger.Script.ofBytes input.bytes input.error
  let s := { s with machine := { s.machine with input := { input with bytes := [] } } }
  (Debugger.debug s script).map (·.1)

def useMachine (debugging : Bool) (s : Monitor) : Option Monitor := do
  let s ← if debugging then debugThrough s else runThrough s
  return if s.crash.isSome then s else s.present s.machine.showStatus

def sayLine (s : Session) (text : String) : Session :=
  { s with output := s.output.write (text ++ "\n") }

def programName (path : String) : String :=
  let base := Path.base path
  let ext := Path.ext path
  if base.endsWith ext then String.ofList (base.toList.take (base.length - ext.length)) else base

/-- Opens an object file and uses a machine that is loaded with it.  There is no status if the
machine crashes, and no answer if it never stops. -/
def execute (debugging : Bool) (s : Session) (path : String) : Option (Option Nat × Session) :=
  match s.openObject path with
  | (.error e, s) =>
    some (some failure, sayLine s s!"Unable to load object file {path}: {e.message}")
  | (.ok b, s) =>
    match s.load (programName path) b.object with
    | .error e => some (some failure, sayLine s e.message)
    | .ok loaded => do
      let used ← useMachine debugging loaded
      let s := s.finish used
      return if used.crash.isSome then (none, s)
        else if used.machine.state = .halted then (some success, s)
        else (some failure, s)

/-- Runs `mjam`.  There is no outcome if the program never stops. -/
def mjam (i : Invocation) : Option Outcome :=
  match argument executeFlags i with
  | .error o => some o
  | .ok (set, path) =>
    let stop : Outcome := ⟨failure, i.output, i.files⟩
    match Config.load i.files (set.get "config") with
    | .error _ => some stop
    | .ok config =>
      match Session.start (executeOptions set config) i.files i.input i.output with
      | .error _ => some stop
      | .ok s =>
        (execute (set.isOn "debug") s path).map fun
          | (none, s) => ⟨misused, s.output, s.files⟩
          | (some status, s) => ⟨status, s.output, withMetrics set s⟩

end MiniJam.Command
