import MiniJam.Command.Basic

/-!
# The command `mjdis`

It lists the program of an object file.
-/

namespace MiniJam.Command

def disassembleFlags : List (String × Flags.Kind) := [("stdout", .switch)]

def listingAt (fs : Files) (path : String) : Except Object.OpenError String :=
  (Object.openAt fs path).map fun o => Listing.ofProgram o.program o.symbols

def listingPath (path : String) : String := Path.dropExt path ++ ".asm"

def listToOutput (i : Invocation) (path : String) : Outcome :=
  match listingAt i.files path with
  | .error _ => ⟨failure, i.output, i.files⟩
  | .ok text =>
    if (i.output.refuses text).isSome then ⟨failure, i.output, i.files⟩
    else ⟨success, i.output.write text, i.files⟩

/-- Writes the listing of an object file to a file next to it, which is created first and removed if
there is no listing. -/
def listToFile (i : Invocation) (path : String) : Outcome :=
  let target := listingPath path
  match i.files.write (Path.clean target) [] with
  | .error _ => ⟨failure, i.output, i.files⟩
  | .ok created =>
    match listingAt created path with
    | .error _ => ⟨failure, i.output, created.remove target⟩
    | .ok text =>
      match created.write (Path.clean target) text.toUTF8.toList with
      | .error _ => ⟨failure, i.output, created⟩
      | .ok written => ⟨success, i.output, written⟩

def mjdis (i : Invocation) : Outcome :=
  withArgument disassembleFlags i fun set path =>
    if set.isOn "stdout" then listToOutput i path else listToFile i path

end MiniJam.Command
