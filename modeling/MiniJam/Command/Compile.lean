import MiniJam.Command.Basic

/-!
# The command `mjc`

It compiles a source file, once or every time that the file changes.
-/

namespace MiniJam.Command

def compileFlags : List (String × Flags.Kind) :=
  [("dump_ast", .switch), ("dump_ast_types", .switch), ("dynamic_dispatch", .switch),
   ("symbols", .switch), ("watch", .switch), ("poll_interval", Flags.duration)]
    ++ serviceFlags

def defaultInterval : Int := 250000000

def compileOptions (set : Flags.Settings) (c : Config) : Session.Options :=
  { Session.Options.default with
    dynamic := (set.switch? "dynamic_dispatch").getD c.dynamicDispatch
    symbols := (set.switch? "symbols").getD c.symbols
    maxCodeSize := some c.maxCodeSize }

def sayError (s : Session) (e : BuildError) : Session :=
  { s with output := s.output.write (e.message ++ "\n") }

def compileOnce (s : Session) (source : String) : Nat × Session :=
  match s.compileFile source with
  | (.ok _, s) => (success, s)
  | (.error e, s) => (notCompiled, sayError s e)

def compileEdits (s : Session) (w : Watcher Unit) : List Edit → Session
  | [] => s
  | edit :: edits =>
    let (files, w, told) := w.after s.files edit
    let (w, found) := w.settle files
    let s := (told ++ found).foldl (fun s (_, e) => s.process e) { s with files }
    compileEdits s w edits

/-- Compiles a source now and after every edit.  Only the first outcome is shown. -/
def compileWatching (s : Session) (interval : Int) (source : String) (edits : List Edit) :
    Nat × Session :=
  let started : Except WatchError (Watcher Unit) := Watcher.start interval true
  match started with
  | .error _ => (failure, s)
  | .ok w =>
    match w.observe s.files source () with
    | .error _ => (failure, s)
    | .ok w =>
      let s := s.compileWatched (Path.clean source)
      let s := match s.outcome? source with
        | some (some e) => sayError s e
        | _ => s
      (success, compileEdits s w edits)

def mjc (i : Invocation) : Outcome :=
  withArgument compileFlags i fun set source =>
    let stop : Outcome := ⟨failure, i.output, i.files⟩
    match Config.load i.files (set.get "config") with
    | .error _ => stop
    | .ok config =>
      match Session.start (compileOptions set config) i.files i.input i.output with
      | .error _ => stop
      | .ok s =>
        let interval := ((set.value? "poll_interval").bind Text.Duration.parse?).getD defaultInterval
        let (status, s) :=
          if set.isOn "watch" then compileWatching s interval source i.edits
          else compileOnce s source
        ⟨status, s.output, withMetrics set s⟩

end MiniJam.Command
