import MiniJam.Files

/-!
# Notices about directories

The system tells about what happens in directories that somebody subscribed to.  A subscription
belongs to a directory, or to a file that stands where one was expected: it goes along when that is
moved and ends when it is removed.  What happens there is told under the path of the last
subscription, even if nothing is at that path any more.  `Notifier.tell` gives the events of a
happening and the subscriptions after it.
-/

namespace MiniJam

/-- What can happen to a file. -/
inductive Change where
  | create
  | update
  | delete
  deriving DecidableEq, Repr

namespace Change

def name : Change → String
  | create => "Create"
  | update => "Update"
  | delete => "Delete"

def ofCode? (n : Int) : Option Change :=
  if n = 1 then some create else if n = 2 then some update else if n = 3 then some delete else none

def nameOf (n : Int) : String := ((ofCode? n).map name).getD "Unknown"

end Change

/-- A change of the file at a path. -/
structure Event where
  change : Change
  path : String
  deriving DecidableEq, Repr

/-- Something that happens to files. -/
inductive Happening where
  /-- Something changes in the directory that holds a place. -/
  | changed (change : Change) (place : String)
  | touched (place : String)
  | removed (place : String)
  /-- What was at one place is now at another; what was there before is gone. -/
  | moved (origin goal : String)
  deriving DecidableEq, Repr

/-- A subscription to a directory. -/
structure Subscription where
  place : String
  /-- The path under which the system tells about it. -/
  name : String
  deriving DecidableEq, Repr

/-- Why a subscription cannot be ended. -/
inductive SubscriptionError where
  | unknown (path : String)
  | ended
  | closed
  deriving DecidableEq, Repr

def SubscriptionError.message : SubscriptionError → String
  | unknown path => s!"can't remove non-existent inotify watch for: {path}"
  | ended => "invalid argument"
  | closed => "bad file descriptor"

/-- Tells about directories. -/
structure Notifier where
  subscriptions : Dict Nat Subscription
  numbers : Dict String Nat
  /-- The number of the next subscription. -/
  next : Nat
  deriving Repr

namespace Notifier

/-- A notifier without subscriptions. -/
def start : Notifier := ⟨.empty, .empty, 0⟩

def at? (s : Notifier) (place : String) : Option (Nat × Subscription) :=
  s.subscriptions.entries.find? fun e => e.2.place = place

/-- Subscribes to the directory at a path.  A directory has one subscription, which takes its last
name. -/
def subscribe (s : Notifier) (fs : Files) (path : String) : Except FileCause Notifier := do
  let place ← fs.resolve path
  if (fs.node? place).isNone then throw .missing
  let (number, next) := match s.at? place with
    | some (number, _) => (number, s.next)
    | none => (s.next, s.next + 1)
  return ⟨s.subscriptions.insert number ⟨place, path⟩, s.numbers.insert path number, next⟩

def unsubscribe (s : Notifier) (closed : Bool) (path : String) :
    Notifier × Option SubscriptionError :=
  match s.numbers.get? path with
  | none => (s, some (.unknown path))
  | some number =>
    ({ s with subscriptions := s.subscriptions.erase number, numbers := s.numbers.erase path },
      if closed then some .closed
      else if (s.subscriptions.get? number).isNone then some .ended
      else none)

/-- An event, unless it is of something that is not found at its path and is not a deletion. -/
def eventOf (fs : Files) (change : Change) (path : String) : List Event :=
  let isLost : Bool := match fs.find path with
    | .error .missing => true
    | _ => false
  if change ≠ .delete && isLost then [] else [⟨change, path⟩]

/-- The events of a change at a place, which the subscription to its directory tells about. -/
def changeEvents (s : Notifier) (fs : Files) (change : Change) (place : String) : List Event :=
  match s.at? (Path.dir place) with
  | none => []
  | some (_, subscription) =>
    eventOf fs change (Path.within subscription.name (Path.base place))

/-- The events of a change of what is at a place, which the subscription to it tells about. -/
def touchEvents (s : Notifier) (fs : Files) (place : String) : List Event :=
  match s.at? place with
  | none => []
  | some (_, subscription) => eventOf fs .update subscription.name

def lossEvents (s : Notifier) (place : String) : List Event :=
  match s.at? place with
  | none => []
  | some (_, subscription) => [⟨.delete, subscription.name⟩]

def afterRemoval (s : Notifier) (place : String) : Notifier :=
  match s.at? place with
  | none => s
  | some (number, subscription) =>
    { s with
      subscriptions := s.subscriptions.erase number
      numbers := s.numbers.erase subscription.name }

def afterMove (s : Notifier) (origin goal : String) : Notifier :=
  let left := s.afterRemoval goal
  { left with subscriptions := ⟨left.subscriptions.entries.map fun e =>
      (e.1, { e.2 with place := Files.relocated origin goal e.2.place })⟩ }

def tell (s : Notifier) (fs : Files) : Happening → Notifier × List Event
  | .changed change place => (s, s.changeEvents fs change place)
  | .touched place => (s, s.touchEvents fs place)
  | .removed place => (s.afterRemoval place, s.lossEvents place)
  | .moved origin goal => (s.afterMove origin goal, s.lossEvents origin ++ s.lossEvents goal)

def tellAll (s : Notifier) (fs : Files) : List Happening → Notifier × List Event
  | [] => (s, [])
  | h :: hs =>
    let (s, told) := s.tell fs h
    let (s, more) := s.tellAll fs hs
    (s, told ++ more)

end Notifier

end MiniJam
