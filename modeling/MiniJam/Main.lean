import MiniJam.Command.Tool

/-!
# The command line

The first argument names a tool, the others are its arguments.  The files that the tool looks at are
read before it runs, and those that it changed are written afterwards.
-/

namespace MiniJam.Main

def steps (place : String) : List String :=
  let parts := Path.parts place
  (List.range parts.length).map fun n => "/".intercalate (parts.take (n + 1))

/-- What is at a place of the system: what can be opened but not read is a directory. -/
def probe (place : String) : IO (Option FileNode) := do
  try
    return some (.file (← IO.FS.readBinFile place).toList 0)
  catch _ =>
    try
      let _ ← IO.FS.Handle.mk place .read
      return some (.directory 0)
    catch _ => return none

def readFiles (places : List String) : IO Files := do
  let mut fs := Files.empty 0
  for place in places do
    match ← probe place with
    | some n => fs := { fs with nodes := fs.nodes.insert place n }
    | none => pure ()
  return fs

def writePlace (before after : Option FileNode) (place : String) : IO Unit := do
  if before = after then return
  match after, before with
  | some (.file content _), _ => IO.FS.writeBinFile place ⟨content.toArray⟩
  | none, some (.directory _) => IO.FS.removeDir place
  | none, some (.file ..) => IO.FS.removeFile place
  | _, _ => return

def readInput (t : Tool) : IO Input := do
  if t ≠ .mjam then return .empty
  try
    return ⟨(← (← IO.getStdin).readBinToEnd).toList, none⟩
  catch _ => return ⟨[], some FileCause.isDirectory.text⟩

def runTool (t : Tool) (args : List String) : IO Outcome := do
  let places := ((t.paths args).flatMap fun p => steps (Path.clean p)).eraseDups
  let files ← readFiles places
  let invocation : Invocation := ⟨args, ← readInput t, .empty, files, []⟩
  let outcome := (t.run invocation).getD ⟨Command.failure, invocation.output, files⟩
  for place in places do
    writePlace (files.nodes.get? place) (outcome.files.nodes.get? place) place
  return outcome

def watchedContent (t : Tool) (args : List String) : IO (Option FileNode) :=
  match (t.paths args).find? fun p => Path.object p ∈ t.paths args with
  | some p => probe (Path.clean p)
  | none => return none

/-- Runs a tool again whenever the source that it watches has changed. -/
partial def watch (t : Tool) (args : List String) (last : Option FileNode) : IO Unit := do
  IO.sleep 250
  let now ← watchedContent t args
  if now ≠ last ∧ now.isSome then
    let _ ← runTool t args
  watch t args now

end MiniJam.Main

def main (args : List String) : IO UInt32 := do
  match args with
  | [] => return 2
  | name :: args =>
    match MiniJam.Tool.ofName? name with
    | none => return 2
    | some t =>
      let outcome ← MiniJam.Main.runTool t args
      let stdout ← IO.getStdout
      stdout.putStr outcome.output.text
      stdout.flush
      if outcome.status = 0 ∧ t.watches args then
        MiniJam.Main.watch t args (← MiniJam.Main.watchedContent t args)
      return outcome.status.toUInt32
