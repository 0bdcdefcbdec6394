import MiniJam.Compile
import MiniJam.Metrics
import MiniJam.Object.Store
import MiniJam.Session.Cache
import MiniJam.Text.Sha256
import MiniJam.Watch

/-!
# Sessions

A session compiles sources to object files, opens these and runs them.  It remembers the objects
that it made last, counts what it does, and compiles watched sources again when they change.
-/

namespace MiniJam

/-- An object with its number in the session that made it. -/
structure Build where
  serial : Nat
  object : Object
  deriving DecidableEq, Repr

/-- Why a session has no object. -/
inductive BuildError where
  | source (path : String) (e : FileError)
  | read (name cause : String)
  | compile (e : CompileError)
  | save (e : Object.SaveError)
  deriving DecidableEq, Repr

def BuildError.message : BuildError → String
  | source path e => s!"failed to read program {Text.quote path}: {e.message}"
  | read name cause => s!"reading {Text.quote name} failed: {cause}"
  | compile e => e.message
  | save e => e.message

/-- Why there is no session. -/
inductive SessionError where
  | cacheSize (size : Int)
  | noEndpoint
  | compiler (e : CompileError)
  deriving DecidableEq, Repr

def SessionError.message : SessionError → String
  | cacheSize size => s!"invalid cache size {size}"
  | noEndpoint => "failed to create jaeger exporter for \"\": missing endpoint for Jaeger exporter"
  | compiler e => e.message

/-- A session. -/
structure Session where
  compiler : Compiler
  symbols : Bool
  options : Machine.Options
  input : Input
  output : Output
  /-- The objects made last, by the names of their sources and the digests of their contents. -/
  cache : Cache (String × List UInt8) Build
  made : Nat
  files : Files
  metrics : Metrics
  /-- The outcome of the last compilation of each watched source. -/
  outcomes : Dict String (Option BuildError)

namespace Session

/-- The number of objects that a session remembers unless it is told otherwise. -/
def defaultCacheSize : Nat := 64

/-- The options of a session. -/
structure Options where
  /-- Whether instance methods are called through the descriptor of the instance's class. -/
  dynamic : Bool
  /-- The number of instructions that a program may have. -/
  maxCodeSize : Option Int
  symbols : Bool
  cacheSize : Option Int
  endpoint : Option String
  machine : Machine.Options

def Options.default : Options := ⟨false, none, false, none, none, .default⟩

def start (o : Options) (files : Files) (input : Input) (output : Output) :
    Except SessionError Session := do
  let capacity ← match o.cacheSize with
    | none => pure defaultCacheSize
    | some n => if n ≤ 0 then throw (.cacheSize n) else pure n.toNat
  if o.endpoint = some "" then throw .noEndpoint
  let compiler ← (Compiler.make o.dynamic o.maxCodeSize).mapError .compiler
  return ⟨compiler, o.symbols, o.machine, input, output, .empty capacity, 0, files, .zero, .empty⟩

def count (s : Session) (x : Measure) (program : String) : Session :=
  { s with metrics := s.metrics.add x program 1 }

/-- Compiles a source.  A source with the name and the digest of one that is remembered is not
compiled again. -/
def compile (s : Session) (name : String) (source : Input) : Except BuildError Build × Session :=
  match source.error with
  | some cause => (.error (.read name cause), s.count .compileErrors name)
  | none =>
    let key := (name, Text.Sha256.digest source.bytes)
    match s.cache.get? key with
    | some b => (.ok b, { s with cache := s.cache.use key b }.count .cacheHits name)
    | none =>
      let s := s.count .timed name
      match s.compiler.compile name source.bytes with
      | .error e => (.error (.compile e), s.count .compileErrors name)
      | .ok object =>
        let b : Build := ⟨s.made, object⟩
        (.ok b, { s with cache := s.cache.use key b, made := s.made + 1 }.count .compiles name)

/-- The files without an object file and its symbols. -/
def discard (fs : Files) (target : String) : Files :=
  (fs.remove target).remove (Path.symbols target)

/-- Saves an object, with its symbols if these are wanted. -/
def save (s : Session) (target : String) (object : Object) : Session × Option Object.SaveError :=
  if s.symbols then
    let (files, failed) := object.save s.files target
    ({ s with files }, failed)
  else
    let bare : Object := { object with symbols := none }
    let (files, failed) := bare.save (s.files.remove (Path.symbols target)) target
    ({ s with files }, failed)

/-- Compiles a source file and saves the object next to it; the answer has the path of the object
file.  If the source is wrong, an object file that is there is removed. -/
def compileFile (s : Session) (path : String) : Except BuildError (String × Build) × Session :=
  let name := Path.base path
  let target := Path.object path
  match s.files.openFile (Path.clean path) with
  | .error e => (.error (.source path e), s.count .compileErrors name)
  | .ok source =>
    match s.compile name source with
    | (.error e, s) => (.error e, { s with files := discard s.files target })
    | (.ok b, s) =>
      match s.save target b.object with
      | (s, some e) => (.error (.save e), s)
      | (s, none) => (.ok (target, b), s)

def openObject (s : Session) (path : String) : Except Object.OpenError Build × Session :=
  match Object.openAt s.files path with
  | .error e => (.error e, s)
  | .ok object => (.ok ⟨s.made, object⟩, { s with made := s.made + 1 })

/-! ### Running -/

def load (s : Session) (name : String) (object : Object) : Except LoadError Monitor :=
  (Machine.load name object s.options s.input s.output).map Monitor.start

def finish (s : Session) (used : Monitor) : Session :=
  let m := used.machine
  { s with
    input := m.input
    output := m.output
    metrics := s.metrics.addTally m.name m.failures used.tally }

/-- Runs an object until it stops or reaches a breakpoint, if it ever does. -/
def run (s : Session) (name : String) (object : Object) :
    Option (Except LoadError Monitor × Session) :=
  match s.load name object with
  | .error e => some (.error e, s)
  | .ok loaded => do
    let used ← loaded.run
    return (.ok used, s.finish used)

/-! ### Watched sources -/

def compileWatched (s : Session) (place : String) : Session :=
  match s.compileFile place with
  | (.ok _, s) => { s with outcomes := s.outcomes.insert place none }
  | (.error e, s) => { s with outcomes := s.outcomes.insert place (some e) }

/-- What a session does when a watched source changes: the last object of a source that was deleted
stays. -/
def process (s : Session) (e : Event) : Session :=
  match e.change with
  | .create | .update => s.compileWatched e.path
  | .delete => s

def unwatch (s : Session) (path : String) : Session :=
  { s with outcomes := s.outcomes.erase (Path.clean path) }

/-- The outcome of the last compilation of a watched source, if there was one. -/
def outcome? (s : Session) (path : String) : Option (Option BuildError) :=
  s.outcomes.get? (Path.clean path)

end Session

end MiniJam
