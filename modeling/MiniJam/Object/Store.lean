import MiniJam.Files
import MiniJam.Object.File
import MiniJam.Symbols.File
import MiniJam.Text.Quoted

/-!
# Objects in files

An object is saved as a file with its program and, if it has symbols, a second one next to it.  The
program is written under another name first, so that no half of it is ever found under its own.
-/

namespace MiniJam.Object

/-- Why an object was not saved. -/
inductive SaveError where
  | create (path : String) (e : FileError)
  | encode (path : String) (e : Program.EncodeError)
  | install (path : String) (e : FileError)
  | symbols (path : String) (e : FileError)
  deriving DecidableEq, Repr

def SaveError.message : SaveError → String
  | create path e => s!"failed to create object file {Text.quote path}: {e.message}"
  | encode path e => s!"failed to write object file {Text.quote path}: {e.message}"
  | install path e => s!"failed to install object file {Text.quote path}: {e.message}"
  | symbols path e => s!"failed to write symbols {Text.quote path}: {e.message}"

/-- Why an object was not opened. -/
inductive OpenError where
  | file (path : String) (e : FileError)
  | malformed (path : String) (e : Program.DecodeError)
  deriving DecidableEq, Repr

def OpenError.message : OpenError → String
  | file path e => s!"failed to open object file {Text.quote path}: {e.message}"
  | malformed path e => s!"malformed object file {Text.quote path}: {e.message}"

def draft (path : String) : String := path ++ ".tmp"

def saveSymbols (fs : Files) (path : String) (symbols : Option Symbols) : Files × Option SaveError :=
  match symbols with
  | none => (fs, none)
  | some s =>
    match fs.write (Path.clean (Path.symbols path)) (Symbols.encode (some s)) with
    | .error e => (fs, some (.symbols (Path.symbols path) e))
    | .ok fs => (fs, none)

def save (o : Object) (fs : Files) (path : String) : Files × Option SaveError :=
  match fs.write (Path.clean (draft path)) (o.program.encode.toOption.getD []) with
  | .error e => (fs, some (.create path e))
  | .ok written =>
    match o.program.encode with
    | .error e => (written.remove (draft path), some (.encode path e))
    | .ok _ =>
      match written.rename (draft path) path with
      | .error e => (written, some (.install path e))
      | .ok installed => saveSymbols installed path o.symbols

/-- The symbols next to an object file, if they can be read. -/
def openSymbols? (fs : Files) (path : String) : Option Symbols :=
  match fs.openFile (Path.clean (Path.symbols path)) with
  | .ok ⟨bytes, none⟩ => Symbols.decode bytes
  | _ => none

def openAt (fs : Files) (path : String) : Except OpenError Object :=
  match fs.openFile (Path.clean path) with
  | .error e => .error (.file path e)
  | .ok input =>
    match Program.decode input.bytes input.error with
    | .error e => .error (.malformed path e)
    | .ok program => .ok ⟨program, openSymbols? fs path⟩

end MiniJam.Object
