import MiniJam.Command.Compile
import MiniJam.Command.Disassemble
import MiniJam.Command.Execute

/-!
# The tools

The commands by their names, with the paths that they look at.
-/

namespace MiniJam

/-- A command. -/
inductive Tool where
  | mjc
  | mjam
  | mjdis
  deriving DecidableEq, Repr

namespace Tool

def ofName? : String → Option Tool
  | "mjc" => some mjc
  | "mjam" => some mjam
  | "mjdis" => some mjdis
  | _ => none

/-- Runs a tool.  There is no outcome if it runs a program that never stops. -/
def run : Tool → Invocation → Option Outcome
  | mjc, i => some (Command.mjc i)
  | mjam, i => Command.mjam i
  | mjdis, i => some (Command.mjdis i)

def flags : Tool → List (String × Flags.Kind)
  | mjc => Command.compileFlags ++ Command.sharedFlags
  | mjam => Command.executeFlags ++ Command.sharedFlags
  | mjdis => Command.disassembleFlags ++ Command.sharedFlags

def pathsFor (arg : String) : Tool → List String
  | mjc =>
    let object := Path.object arg
    [arg, object, Object.draft object, Path.symbols object]
  | mjam => [arg, Path.symbols arg]
  | mjdis => [arg, Path.symbols arg, Command.listingPath arg]

def paths (t : Tool) (args : List String) : List String :=
  match Flags.parse t.flags args with
  | .ok (set, [arg]) =>
    let named := [set.get "config", set.get "metrics_textfile"].filter (· ≠ "")
    named ++ t.pathsFor arg
  | _ => []

def watches (t : Tool) (args : List String) : Bool :=
  match Flags.parse t.flags args with
  | .ok (set, [_]) => set.isOn "watch" && !set.isOn "version"
  | _ => false

end Tool

end MiniJam
