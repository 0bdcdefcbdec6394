import MiniJam.Config.Load
import MiniJam.Flags
import MiniJam.Session

/-!
# Commands

A command is given arguments, an input, an output and files; it leaves an exit status, what it wrote
and the files.
-/

namespace MiniJam

/-- What a command is started with. -/
structure Invocation where
  args : List String
  input : Input
  output : Output
  files : Files
  /-- What is done to the files while the command watches them. -/
  edits : List Edit

/-- What a command leaves. -/
structure Outcome where
  status : Nat
  output : Output
  files : Files

namespace Command

def success : Nat := 0

def failure : Nat := 1

def misused : Nat := 2

def notCompiled : Nat := 4

def versionLine : String :=
  "minijava version invalid:-use-make-to-build git revision invalid:-use-make-to-build "
    ++ "go version X go arch X go os X\n"

def sharedFlags : List (String × Flags.Kind) := ("version", .switch) :: Flags.logging

def serviceFlags : List (String × Flags.Kind) :=
  [("config", Flags.text), ("dump_bytecode", .switch), ("metrics_textfile", Flags.text),
   ("jaeger_endpoint", Flags.text), ("trace_sample_period", Flags.integer)]

/-- The settings of the flags and the one argument that is left, or the outcome if there is nothing
more to do. -/
def argument (kinds : List (String × Flags.Kind)) (i : Invocation) :
    Except Outcome (Flags.Settings × String) :=
  match Flags.parse (kinds ++ sharedFlags) i.args with
  | .error .help => .error ⟨success, i.output, i.files⟩
  | .error .misuse => .error ⟨misused, i.output, i.files⟩
  | .ok (set, rest) =>
    if set.isOn "version" then .error ⟨success, i.output.write versionLine, i.files⟩
    else
      match rest with
      | [arg] => .ok (set, arg)
      | _ => .error ⟨misused, i.output, i.files⟩

/-- Takes the flags from the arguments and goes on with the settings and the one argument that is
left, unless there is nothing more to do. -/
def withArgument (kinds : List (String × Flags.Kind)) (i : Invocation)
    (go : Flags.Settings → String → Outcome) : Outcome :=
  match argument kinds i with
  | .error o => o
  | .ok (set, arg) => go set arg

/-- The files with the metrics of a session, if a file for them is named.  Metrics that cannot be
written are left out. -/
def withMetrics (set : Flags.Settings) (s : Session) : Files :=
  let path := set.get "metrics_textfile"
  if path = "" then s.files
  else (s.files.write path s.metrics.text.toUTF8.toList).toOption.getD s.files

end Command

end MiniJam
