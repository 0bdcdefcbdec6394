import MiniJam.Notifier
import MiniJam.Text.Duration
import MiniJam.Text.Quoted

/-!
# Watching files

Processors observe files and are told about their changes.  An `Announcer` passes on the changes
that are announced to it.  A `Watcher` finds changes itself: it compares what is known about a file
with what was known before, and where the system tells about changes it passes these on too.
-/

namespace MiniJam

variable {P : Type} [DecidableEq P]

def Event.tell (e : Event) (processors : List P) : List (P × Event) := processors.map (·, e)

/-- The processors with one more at the end, unless it is there. -/
def addProcessor (processors : List P) (p : P) : List P :=
  if p ∈ processors then processors else processors ++ [p]

/-! ### Announced changes -/

/-- Passes on the changes that are announced to it. -/
structure Announcer (P : Type) where
  observers : Dict String (List P)
  closed : Bool
  deriving Repr

namespace Announcer

/-- An announcer without observers. -/
def start : Announcer P := ⟨.empty, false⟩

def processors (a : Announcer P) (path : String) : List P := (a.observers.get? path).getD []

def observe (a : Announcer P) (path : String) (p : P) : Announcer P :=
  { a with observers := a.observers.insert path (addProcessor (a.processors path) p) }

def unobserve (a : Announcer P) (path : String) (p : P) : Announcer P :=
  let left := (a.processors path).erase p
  { a with observers :=
      if left.isEmpty then a.observers.erase path else a.observers.insert path left }

def close (a : Announcer P) : Announcer P := { a with closed := true }

end Announcer

/-! ### Found changes -/

/-- An observed file. -/
structure Watch (P : Type) where
  processors : List P
  /-- What was last known about the file, if it was there. -/
  seen : Option Stat
  deriving Repr

/-- Finds changes of files. -/
structure Watcher (P : Type) where
  /-- The observed files by their places. -/
  watched : Dict String (Watch P)
  /-- Whether the watcher looks at the files by itself from time to time. -/
  polling : Bool
  /-- What the system tells about directories, if it does. -/
  notifier : Option Notifier
  /-- The number of observed files in each directory that the system tells about. -/
  directories : Dict String Nat
  closed : Bool
  deriving Repr

/-- Why a watcher cannot be used. -/
inductive WatchError where
  /-- The time between two looks at the files is negative. -/
  | interval (nanoseconds : Int)
  | directory (path cause : String)
  /-- The system does not stop telling about a directory. -/
  | subscription (e : SubscriptionError)
  deriving DecidableEq, Repr

def WatchError.message : WatchError → String
  | interval n => s!"invalid poll interval {Text.Duration.text n}"
  | directory path cause => s!"failed to create a new watch on {Text.quote path}: {cause}"
  | subscription e => e.message

namespace Watcher

/-- A watcher that looks at the files after every interval, unless that is zero, and that is or is
not told about changes by the system. -/
def start (interval : Int) (notified : Bool) : Except WatchError (Watcher P) :=
  if interval < 0 then .error (.interval interval)
  else .ok ⟨.empty, 0 < interval, if notified then some .start else none, .empty, false⟩

def isWatching (w : Watcher P) (path : String) : Bool :=
  (w.watched.get? (Path.clean path)).isSome

def inDirectory (w : Watcher P) (directory : String) : Nat :=
  (w.directories.get? directory).getD 0

/-- Counts one more observed file in a directory.  The first one makes the watcher subscribe to the
directory. -/
def enter (w : Watcher P) (fs : Files) (directory : String) : Except WatchError (Watcher P) :=
  let n := w.inDirectory directory
  let counted := { w with directories := w.directories.insert directory (n + 1) }
  match w.notifier with
  | none => .ok w
  | some s =>
    if 0 < n then .ok counted
    else if w.closed then .error (.directory directory "inotify instance already closed")
    else
      match s.subscribe fs directory with
      | .error cause => .error (.directory directory cause.text)
      | .ok s => .ok { counted with notifier := some s }

/-- Counts one observed file less in a directory.  The last one makes the watcher end its
subscription to the directory. -/
def leave (w : Watcher P) (directory : String) : Watcher P × Option WatchError :=
  let n := w.inDirectory directory - 1
  match w.notifier with
  | none => (w, none)
  | some s =>
    if 0 < n then ({ w with directories := w.directories.insert directory n }, none)
    else
      let (s, failed) := s.unsubscribe w.closed directory
      ({ w with notifier := some s, directories := w.directories.erase directory },
        failed.map .subscription)

def observe (w : Watcher P) (fs : Files) (path : String) (p : P) :
    Except WatchError (Watcher P) :=
  let place := Path.clean path
  match w.watched.get? place with
  | some x =>
    .ok { w with
      watched := w.watched.insert place { x with processors := addProcessor x.processors p } }
  | none =>
    match w.enter fs (Path.dir place) with
    | .error e => .error e
    | .ok w => .ok { w with watched := w.watched.insert place ⟨[p], (fs.stat place).toOption⟩ }

/-- Lets a processor no longer observe a file; a file without processors is no longer watched. -/
def unobserve (w : Watcher P) (path : String) (p : P) : Watcher P × Option WatchError :=
  let place := Path.clean path
  match w.watched.get? place with
  | none => (w, none)
  | some x =>
    let left := x.processors.erase p
    if left.isEmpty then
      { w with watched := w.watched.erase place }.leave (Path.dir place)
    else ({ w with watched := w.watched.insert place { x with processors := left } }, none)

/-- Closes a watcher: it no longer looks at files by itself, nor is it told about them. -/
def close (w : Watcher P) : Watcher P := { w with closed := true }

/-- What one look at a file finds, after what was seen before: what is seen now, and the change.
A file has changed if its time is later or its size another. -/
def compare (before : Option Stat) (now : Except FileCause Stat) : Option Stat × Option Change :=
  match now, before with
  | .error .missing, none => (none, none)
  | .error .missing, some _ => (none, some .delete)
  | .error _, _ => (before, none)
  | .ok s, none => (some s, some .create)
  | .ok s, some old =>
    (some s, if old.modified < s.modified ∨ s.size ≠ old.size then some .update else none)

def look (fs : Files) (place : String) (x : Watch P) : Watch P × List (P × Event) :=
  let (seen, change) := compare x.seen (fs.stat place)
  ({ x with seen }, match change with
    | some c => Event.tell ⟨c, place⟩ x.processors
    | none => [])

def poll (w : Watcher P) (fs : Files) : Watcher P × List (P × Event) :=
  let looked := w.watched.entries.map fun (place, x) => (place, look fs place x)
  let ordered := looked.mergeSort fun a b => decide (a.1 ≤ b.1)
  ({ w with watched := ⟨looked.map fun (place, x, _) => (place, x)⟩ },
    ordered.flatMap fun (_, _, events) => events)

/-- Looks at the files if the watcher does so by itself. -/
def settle (w : Watcher P) (fs : Files) : Watcher P × List (P × Event) :=
  if w.polling && !w.closed then w.poll fs else (w, [])

/-- Passes on an event that the system tells about; what is known about the file is renewed. -/
def notify (w : Watcher P) (fs : Files) (e : Event) : Watcher P × List (P × Event) :=
  match w.watched.get? e.path with
  | none => (w, [])
  | some x =>
    let seen := if e.change = .delete then none
      else match fs.stat e.path with
        | .ok s => some s
        | .error _ => x.seen
    ({ w with watched := w.watched.insert e.path { x with seen } }, e.tell x.processors)

def notifyAll (w : Watcher P) (fs : Files) : List Event → Watcher P × List (P × Event)
  | [] => (w, [])
  | e :: es =>
    let (w, told) := w.notify fs e
    let (w, more) := w.notifyAll fs es
    (w, told ++ more)

/-- Passes on what the system tells about happenings that led to the files `fs`. -/
def hear (w : Watcher P) (fs : Files) (hs : List Happening) : Watcher P × List (P × Event) :=
  match w.notifier with
  | none => (w, [])
  | some s =>
    if w.closed then (w, [])
    else
      let (s, events) := s.tellAll fs hs
      { w with notifier := some s }.notifyAll fs events

end Watcher

/-! ### Edits -/

/-- Something that somebody does to a file. -/
inductive Edit where
  /-- Writes a file, with a time of its own or the present one. -/
  | write (path : String) (content : List UInt8) (modified : Option Int)
  /-- Writes a file elsewhere and moves it into its place. -/
  | install (path : String) (content : List UInt8)
  | remove (path : String)
  | rename (source target : String)
  deriving DecidableEq, Repr

namespace Edit

/-- The files after an edit, and why it failed if it did.  What cannot be removed stays. -/
def perform (fs : Files) : Edit → Files × Option FileError
  | write path content modified => fs.writeDeep path content modified
  | install path content => fs.writeDeep path content none
  | remove path => (fs.remove path, none)
  | rename source target =>
    match fs.rename source target with
    | .ok renamed => (renamed, none)
    | .error e => (fs, some e)

def apply (fs : Files) (edit : Edit) : Files := (edit.perform fs).1

/-- What happens when a file is written where there was a node or none.  A file that is empty and
keeps its time is only made. -/
def writing (before : Option FileNode) (place : String) (content : List UInt8)
    (modified : Option Int) : List Happening :=
  match before with
  | some (.directory _) => []
  | some (.file ..) => [.changed .update place, .touched place]
  | none =>
    if content.isEmpty && modified.isNone then [.changed .create place]
    else [.changed .create place, .changed .update place]

/-- What happens in front of a file that is written: directories are made. -/
def preparing (fs : Files) (path : String) (happenings : List Happening) : List Happening :=
  match fs.prepare path with
  | .error _ => []
  | .ok (_, places) => places.map (.changed .create) ++ happenings

def unlinking (fs : Files) (place : String) : List Happening :=
  match fs.node? place with
  | some (.file ..) => [.touched place]
  | _ => []

def happenings (fs : Files) : Edit → List Happening
  | write path content modified =>
    let place := Path.clean path
    preparing fs path (writing (fs.node? place) place content modified)
  | install path _ => preparing fs path [.changed .create (Path.clean path)]
  | remove path =>
    match fs.resolve path with
    | .error _ => []
    | .ok place =>
      if !fs.isRemovable place then []
      else unlinking fs place ++ [.changed .delete place, .removed place]
  | rename source target =>
    match fs.resolve source, fs.resolve target, fs.rename source target with
    | .ok origin, .ok goal, .ok _ =>
      if origin = goal then []
      else
        [.changed .delete origin, .changed .create goal] ++ unlinking fs goal
          ++ [.moved origin goal]
    | _, _, _ => []

end Edit

def Watcher.after (w : Watcher P) (fs : Files) (edit : Edit) :
    Files × Watcher P × List (P × Event) :=
  let edited := edit.apply fs
  let (w, told) := w.hear edited (edit.happenings fs)
  (edited, w, told)

/-- What was told, without what repeats the last event of the same processor and path. -/
def withoutRepeats (told : List (P × Event)) : List (P × Event) :=
  told.foldl (fun kept x =>
    let last := kept.reverse.find? fun y => y.1 = x.1 ∧ y.2.path = x.2.path
    if last = some x then kept else kept ++ [x]) []

end MiniJam
