import MiniJam.Machine.Monitor
import MiniJam.Text.Fields
import MiniJam.Text.Number
import MiniJam.Text.Quoted
import MiniJam.Text.Rune

/-!
# The debugger

The debugger reads commands, one a line, and carries them out on a machine.  Its answers go to the
output of the machine.
-/

namespace MiniJam

namespace Debugger

/-- The commands that a debugger reads. -/
structure Script where
  lines : List String
  /-- The error met after them, in place of the end. -/
  error : Option String

def lineLimit : Nat := 65536

def lineTooLong : String := "bufio.Scanner: token too long"

/-- A line without the carriage return at its end. -/
def dropReturn (line : List UInt8) : List UInt8 :=
  if line.getLast? = some 13 then line.dropLast else line

def Script.ofBytes (bytes : List UInt8) (error : Option String) : Script :=
  let all := Text.lines bytes
  let short := all.takeWhile (·.length < lineLimit)
  ⟨short.map fun line => Text.Rune.text (dropReturn line),
    if short.length < all.length then some lineTooLong else error⟩

def help : List String :=
  ["p or print:",
   "     print entire machine state",
   "l or list [offset] [size]:",
   "     print the instructions around CP + offset, with size lines on either side",
   "     offset = 0 and size = 2 by default",
   "b or break [address]:",
   "     set a breakpoint at address",
   "     address = CP by default",
   "del address...:",
   "     delete one or more breakpoints",
   "n or next:",
   "     execute one instruction",
   "c or continue:",
   "     continue running the program from current position, until next breakpoint or completion",
   "r or run:",
   "     run the program from start, until next breakpoint or completion",
   "i or info:",
   "     list the current breakpoints",
   "q, quit or <EOF>:",
   "     quit the debugger",
   "Simply press enter to repeat the last command",
   "? or help:",
   "     print this help"]

/-- The command words. -/
inductive Command where
  | help | print | list | setBreak | delete | next | continue | run | info | quit
  deriving DecidableEq, Repr

/-- A letter in lower case, if that is one of the letters `a` to `z`; other characters stay.  Two
letters beyond ASCII have such a form. -/
def lower (c : Char) : Char :=
  if c.toNat = 0x130 then 'i' else if c.toNat = 0x212A then 'k' else c.toLower

def Command.ofWord? (word : String) : Option Command :=
  match String.ofList (word.toList.map lower) with
  | "?" | "help" => some help
  | "p" | "print" => some print
  | "l" | "list" => some list
  | "b" | "break" => some setBreak
  | "del" => some delete
  | "n" | "next" => some next
  | "c" | "continue" => some .continue
  | "r" | "run" => some run
  | "i" | "info" => some info
  | "q" | "quit" => some quit
  | _ => none

variable (lines : Array String)

def lineAt (addr : Int) : String :=
  if addr < 0 then toString addr else (lines[addr.toNat]?).getD (toString addr)

def report (s : Monitor) (ran : Bool) : Monitor :=
  let m := s.machine
  if s.crash.isSome then s
  else if m.state ≠ .running then s.present m.showStatus
  else if ran && m.paused then s.say s!"Breakpoint hit: {lineAt lines m.cp}\n"
  else s

/-- Shows the instructions from the address `a` up to `last`.  Addresses are 64-bit integers that wrap
around, so there is no answer if `last` is the greatest one. -/
def listFrom (last : Int) (s : Monitor) (a : Int) : Option Monitor :=
  if a ≤ last then
    let marker := if a = s.machine.cp then " >" else "  "
    let s := if 0 ≤ a ∧ a < lines.size then s.say (marker ++ lineAt lines a ++ "\n") else s
    -- A plain call would leave its position in the file in the body of the fixpoint.
    by apply listFrom; exact last; exact s; exact wrap64 (a + 1)
  else some s
partial_fixpoint

def listWindow (s : Monitor) (offset size : Int) : Option Monitor :=
  let cp := s.machine.cp
  listFrom lines (wrap64 (cp + offset + size)) s (wrap64 (cp + offset - size))

def listCommand (s : Monitor) (args : List String) : Option Monitor :=
  match args with
  | [] => listWindow lines s 0 2
  | a :: rest =>
    match Text.int64? a with
    | none => some (s.say s!"Invalid offset {Text.quote a}\n")
    | some offset =>
      match rest with
      | [] => listWindow lines s offset 2
      | b :: _ =>
        match Text.int64? b with
        | none => some (s.say s!"Invalid size {Text.quote b}\n")
        | some size => listWindow lines s offset size

def breakAt (s : Monitor) (addr : Int) : Monitor :=
  match s.machine.setBreakpoint addr with
  | .ok m => { s with machine := m }.say s!"Added breakpoint at {lineAt lines addr}\n"
  | .error e => s.say (e.message ++ "\n")

def breakCommand (s : Monitor) (args : List String) : Monitor :=
  match args with
  | [] => breakAt lines s s.machine.cp
  | a :: _ =>
    match Text.int64? a with
    | none => s.say s!"Invalid address {Text.quote a}\n"
    | some addr => breakAt lines s addr

def deleteCommand (s : Monitor) (arg : String) : Monitor :=
  match (Text.int64? arg).filter s.machine.isBreakpoint with
  | some addr => { s with machine := s.machine.clearBreakpoint addr }
  | none => s.say s!"No breakpoint at {arg}\n"

def notRunning : String := "Program is not running\n"

/-- Runs the program from its start; a breakpoint there stops it at once. -/
def runCommand (s : Monitor) : Option Monitor :=
  let s := { s with machine := s.machine.reset }
  let m := s.machine
  if m.state = .running ∧ m.isBreakpoint m.cp then
    some (s.say s!"Breakpoint hit: {lineAt lines m.cp}\n")
  else s.run.map (report lines · true)

def sayHelp (s : Monitor) : Monitor := s.sayAll (help.map fun l => "  " ++ l ++ "\n")

/-- Carries out a command other than `quit`.  There is no answer if it never ends. -/
def execute (s : Monitor) (args : List String) : Command → Option Monitor
  | .help => some (sayHelp s)
  | .print => some (s.present s.machine.dump)
  | .list => listCommand lines s args
  | .setBreak => some (breakCommand lines s args)
  | .delete => some (args.foldl deleteCommand s)
  | .next =>
    some (if s.machine.state ≠ .running then s.say notRunning else report lines s.step false)
  | .continue =>
    if s.machine.state ≠ .running then some (s.say notRunning)
    else s.run.map (report lines · true)
  | .run => runCommand lines s
  | .info => some <|
    (s.say "Breakpoints:\n").sayAll (s.machine.breakpoints.map fun b => s!"\t{lineAt lines b}\n")
  | .quit => some s

/-- Carries out the commands of lines; an empty line repeats the words `last` of the one before.
The answer tells whether the lines ended before a command to quit. -/
def commands (s : Monitor) (last : List String) : List String → Option (Monitor × Bool)
  | [] => some ((s.say "\n: ").say "\n", true)
  | line :: rest =>
    let s := s.say "\n: "
    let words := Text.fields line
    let words := if words.isEmpty then last else words
    match words with
    | [] => commands s [] rest
    | word :: args =>
      match Command.ofWord? word with
      | some .quit => some (s, false)
      | some c =>
        match execute lines s args c with
        | none => none
        | some s => if s.crash.isSome then some (s, false) else commands s words rest
      | none => commands (sayHelp (s.say s!"Unknown command '{word}'.\n")) words rest

def listingLines (p : Program) : Array String :=
  let labels := Listing.Labels.ofProgram p
  p.mapIdx fun addr i =>
    let label := match labels.get? addr with
      | some l => l ++ ":"
      | none => ""
    Text.padLeft 3 (toString addr) ++ "  " ++ Text.padRight 7 label ++ Listing.instr i labels

/-- Debugs a machine with the commands of a script; the answer includes what ended the script if that
was an error. -/
def debug (s : Monitor) (script : Script) : Option (Monitor × Option String) := do
  let (s, ended) ← commands (listingLines s.machine.program) s [] script.lines
  return (s, if ended then script.error.map ("reading debugger command: " ++ ·) else none)

end Debugger

end MiniJam
