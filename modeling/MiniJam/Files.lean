import MiniJam.Dict
import MiniJam.Machine.Console
import MiniJam.Path

/-!
# Files

The files that the tools work on.  A place is a path without parts that stand for nothing; paths
lead from the working directory, whose place is `.`, to places.
-/

namespace MiniJam

/-- Why a path cannot be used. -/
inductive FileCause where
  | missing
  /-- A part of the path that should be a directory is a file. -/
  | notDirectory
  | isDirectory
  | occupied
  | invalid
  /-- The working directory or the root cannot be moved. -/
  | busy
  deriving DecidableEq, Repr

def FileCause.text : FileCause → String
  | missing => "no such file or directory"
  | notDirectory => "not a directory"
  | isDirectory => "is a directory"
  | occupied => "file exists"
  | invalid => "invalid argument"
  | busy => "device or resource busy"

/-- An operation that failed. -/
inductive FileError where
  | opening (path : String) (cause : FileCause)
  | reading (path : String) (cause : FileCause)
  | making (path : String) (cause : FileCause)
  | moving (source target : String) (cause : FileCause)
  deriving DecidableEq, Repr

def FileError.message : FileError → String
  | opening path cause => s!"open {path}: " ++ cause.text
  | reading path cause => s!"read {path}: " ++ cause.text
  | making path cause => s!"mkdir {path}: " ++ cause.text
  | moving source target cause => s!"rename {source} {target}: " ++ cause.text

/-- What can be at a place. -/
inductive FileNode where
  /-- A file, with the time of its last change in nanoseconds. -/
  | file (content : List UInt8) (modified : Int)
  /-- A directory, with the time at which something in it was last made, moved or removed. -/
  | directory (modified : Int)
  deriving DecidableEq, Repr

/-- What is known about a file without reading it. -/
structure Stat where
  /-- The time of the last change. -/
  modified : Int
  size : Nat
  deriving DecidableEq, Repr

def directorySize : Nat := 4096

def FileNode.stat : FileNode → Stat
  | file content modified => ⟨modified, content.length⟩
  | directory modified => ⟨modified, directorySize⟩

def FileNode.isDirectory : FileNode → Bool
  | file .. => false
  | directory _ => true

/-- Files in their directories. -/
structure Files where
  /-- The nodes by their places. -/
  nodes : Dict String FileNode
  /-- The time of the last change in the working directory. -/
  modified : Int
  /-- The time of the next change. -/
  clock : Int
  deriving DecidableEq, Repr

namespace Files

def empty (clock : Int) : Files := ⟨.empty, clock, clock + 1⟩

/-- What is at a place; the working directory and the root are always there. -/
def node? (fs : Files) (place : String) : Option FileNode :=
  if place = "." ∨ place = "/" then some (.directory fs.modified) else fs.nodes.get? place

def isDirectory (fs : Files) (place : String) : Bool := (fs.node? place).any (·.isDirectory)

/-- The place that parts of a path lead to from a place.  They lead on from directories only. -/
def walk (fs : Files) (place : String) : List String → Except FileCause String
  | [] => .ok place
  | part :: rest =>
    match fs.node? place with
    | some (.directory _) => fs.walk (Path.within place part) rest
    | some (.file ..) => .error .notDirectory
    | none => .error .missing

def resolve (fs : Files) (path : String) : Except FileCause String :=
  if path = "" then .error .missing
  else fs.walk (if Path.isAbsolute path then "/" else ".") (Path.parts path)

def find (fs : Files) (path : String) : Except FileCause FileNode := do
  match fs.node? (← fs.resolve path) with
  | some n => return n
  | none => throw .missing

def stat (fs : Files) (path : String) : Except FileCause Stat :=
  (fs.find path).map FileNode.stat

/-- Opens the file at a path for reading.  A directory can be opened but not read. -/
def openFile (fs : Files) (path : String) : Except FileError Input :=
  match fs.find path with
  | .error cause => .error (.opening path cause)
  | .ok (.directory _) => .ok ⟨[], some (FileError.reading path .isDirectory).message⟩
  | .ok (.file content _) => .ok ⟨content, none⟩

/-- The files after something has been made, moved or removed at a place, which changes the directory
that holds it. -/
def touch (fs : Files) (place : String) : Files :=
  let directory := Path.dir place
  let later := { fs with clock := fs.clock + 1 }
  if directory = "." ∨ directory = "/" then { later with modified := fs.clock }
  else { later with nodes := fs.nodes.insert directory (.directory fs.clock) }

def putFile (fs : Files) (place : String) (content : List UInt8) : Files :=
  let put : Files :=
    { fs with nodes := fs.nodes.insert place (.file content fs.clock), clock := fs.clock + 1 }
  if (fs.node? place).isSome then put else put.touch place

def write (fs : Files) (path : String) (content : List UInt8) : Except FileError Files :=
  match fs.resolve path with
  | .error cause => .error (.opening path cause)
  | .ok place =>
    if fs.isDirectory place then .error (.opening path .isDirectory)
    else .ok (fs.putFile place content)

def isBare (fs : Files) (place : String) : Bool :=
  fs.nodes.entries.all fun e => Path.dir e.1 ≠ place

/-- Whether something can be removed from a place: a file, or a directory with nothing in it. -/
def isRemovable (fs : Files) (place : String) : Bool :=
  (fs.nodes.get? place).any fun n => !n.isDirectory || fs.isBare place

/-- Removes a file or a directory with nothing in it; what cannot be removed stays. -/
def remove (fs : Files) (path : String) : Files :=
  match fs.resolve path with
  | .error _ => fs
  | .ok place =>
    if fs.isRemovable place then { fs with nodes := fs.nodes.erase place }.touch place else fs

/-- The place of what was at `place`, after the node at `origin` has moved to `goal` with all that
is in it. -/
def relocated (origin goal place : String) : String :=
  if place = origin then goal
  else if (origin ++ "/").toList.isPrefixOf place.toList then
    goal ++ String.ofList (place.toList.drop origin.length)
  else place

def move (fs : Files) (origin goal : String) : Files :=
  let moved := fs.nodes.entries.map fun e => (relocated origin goal e.1, e.2)
  ({ fs with nodes := ⟨moved⟩ }.touch origin).touch goal

/-- Gives a file or directory another path.  A file takes the place of one that is there. -/
def rename (fs : Files) (source target : String) : Except FileError Files := do
  let refuse (cause : FileCause) : FileError := .moving source target cause
  let origin ← (fs.resolve source).mapError refuse
  let goal ← (fs.resolve target).mapError refuse
  match fs.node? origin with
  | none => throw (refuse .missing)
  | some n =>
    if fs.isDirectory goal && (source == target || origin != goal) then throw (refuse .occupied)
    if origin = "." ∨ origin = "/" then throw (refuse .busy)
    if origin = goal then return fs
    if relocated origin goal goal ≠ goal then throw (refuse .invalid)
    if n.isDirectory && (fs.node? goal).isSome then throw (refuse .notDirectory)
    return { fs with nodes := fs.nodes.erase goal }.move origin goal

/-- Makes the directories that lead to a place, one after another, and gives the places of the new
ones. -/
def makeDirectories (fs : Files) (place : String) :
    List String → Except FileError (Files × List String)
  | [] | [_] => .ok (fs, [])
  | part :: rest =>
    let place := Path.within place part
    match fs.node? place with
    | some (.file ..) => .error (.making place .notDirectory)
    | some (.directory _) => fs.makeDirectories place rest
    | none =>
      let made := { fs with nodes := fs.nodes.insert place (.directory fs.clock) }.touch place
      (made.makeDirectories place rest).map fun (fs, places) => (fs, place :: places)

/-- Makes the directories that lead to a path, and gives the places of the new ones. -/
def prepare (fs : Files) (path : String) : Except FileError (Files × List String) :=
  fs.makeDirectories (if Path.isAbsolute path then "/" else ".") (Path.parts (Path.clean path))

/-- The files with another time for the file at a place, if one is given. -/
def setTime (fs : Files) (place : String) (modified : Option Int) : Files :=
  match modified, fs.nodes.get? place with
  | some time, some (.file content _) => { fs with nodes := fs.nodes.insert place (.file content time) }
  | _, _ => fs

/-- Writes a file after making the directories that lead to it, with a time of its own or the
present one. -/
def writeDeep (fs : Files) (path : String) (content : List UInt8) (modified : Option Int) :
    Files × Option FileError :=
  match fs.prepare path with
  | .error e => (fs, some e)
  | .ok (fs, _) =>
    match fs.write (Path.clean path) content with
    | .error e => (fs, some e)
    | .ok fs => (fs.setTime (Path.clean path) modified, none)

def contents (fs : Files) : List (String × List UInt8) :=
  fs.nodes.entries.filterMap fun (place, n) =>
    match n with
    | .file content _ => some (place, content)
    | .directory _ => none

end Files

end MiniJam
