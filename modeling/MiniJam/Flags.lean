import MiniJam.Text.Duration
import MiniJam.Text.Fields
import MiniJam.Text.Literal

/-!
# Command-line flags

A flag starts with one or two dashes.  A switch stands alone or has a truth value behind an equals
sign; other flags have a value, behind an equals sign or as the next argument.  The flags end at the
first argument that is none, or at two dashes.
-/

namespace MiniJam

namespace Flags

/-- What the value of a flag can be. -/
inductive Kind where
  /-- A truth value, true if it is left out. -/
  | switch
  | value (accepts : String → Bool)

def truth? (s : String) : Option Bool :=
  if s ∈ ["1", "t", "T", "TRUE", "true", "True"] then some true
  else if s ∈ ["0", "f", "F", "FALSE", "false", "False"] then some false
  else none

def text : Kind := .value fun _ => true

def integer : Kind := .value fun s => (Text.intLiteral? s).isSome

def duration : Kind := .value fun s => (Text.Duration.parse? s).isSome

def integers? (s : String) : Option (List Int) :=
  (s.splitOn ",").mapM fun part => Text.int64? (Text.trim part)

def integerList : Kind := .value fun s => (integers? s).isSome

/-- Why arguments are not taken. -/
inductive Stop where
  | help
  | misuse
  deriving DecidableEq, Repr

/-- Flags with their values, in the order in which they were given. -/
abbrev Settings := List (String × String)

/-- A flag without its dashes: its name, and the value behind the equals sign.  The first character
is part of the name. -/
def split (flag : List Char) : String × Option String :=
  match flag with
  | [] => ("", none)
  | c :: rest =>
    let name := String.ofList (c :: rest.takeWhile (· ≠ '='))
    match rest.dropWhile (· ≠ '=') with
    | [] => (name, none)
    | _ :: value => (name, some (String.ofList value))

/-- What an argument is. -/
inductive Argument where
  | flag (body : List Char)
  | dashes
  | plain
  deriving DecidableEq, Repr

def classify (arg : String) : Argument :=
  match arg.toList with
  | ['-', '-'] => .dashes
  | '-' :: '-' :: body => .flag body
  | '-' :: c :: body => .flag (c :: body)
  | _ => .plain

def isNamed (body : List Char) : Bool :=
  match body with
  | [] => false
  | c :: _ => c ≠ '-' && c ≠ '='

/-- Takes the flags from arguments; the answer has the arguments after them. -/
def parse (kinds : List (String × Kind)) : List String → Except Stop (Settings × List String)
  | [] => .ok ([], [])
  | arg :: args =>
    match classify arg with
    | .plain => .ok ([], arg :: args)
    | .dashes => .ok ([], args)
    | .flag body =>
      if !isNamed body then .error .misuse
      else
        let (name, value) := split body
        match kinds.lookup name, value, args with
        | none, _, _ => .error (if name = "help" ∨ name = "h" then .help else .misuse)
        | some .switch, none, args =>
          (parse kinds args).map fun (set, rest) => ((name, "true") :: set, rest)
        | some .switch, some v, args =>
          if (truth? v).isSome then
            (parse kinds args).map fun (set, rest) => ((name, v) :: set, rest)
          else .error .misuse
        | some (.value accepts), some v, args =>
          if accepts v then (parse kinds args).map fun (set, rest) => ((name, v) :: set, rest)
          else .error .misuse
        | some (.value accepts), none, v :: args =>
          if accepts v then (parse kinds args).map fun (set, rest) => ((name, v) :: set, rest)
          else .error .misuse
        | some (.value _), none, [] => .error .misuse

namespace Settings

variable (s : Settings)

def values (name : String) : List String :=
  (s.filter fun e => e.1 = name).map (·.2)

def value? (name : String) : Option String := (s.values name).getLast?

/-- The text of a flag, empty if it was not given. -/
def get (name : String) : String := (s.value? name).getD ""

def switch? (name : String) : Option Bool := (s.value? name).bind truth?

def isOn (name : String) : Bool := (s.switch? name).getD false

def integers (name : String) : List Int :=
  (s.values name).flatMap fun v => (integers? v).getD []

end Settings

/-! ### Flags of the log -/

/-- A letter in upper case, if that is one of the letters `A` to `Z`; other characters stay.  Two
letters beyond ASCII, the dotless i and the long s, have such a form. -/
def upper (c : Char) : Char :=
  if c.toNat = 0x131 then 'I' else if c.toNat = 0x17F then 'S' else c.toUpper

def isSeverity (s : String) : Bool :=
  (String.ofList (s.toList.map upper)) ∈ ["INFO", "WARNING", "ERROR", "FATAL"]
    || (Text.int64? s).isSome

def isModuleList (s : String) : Bool :=
  (s.splitOn ",").all fun part =>
    part = "" || match part.splitOn "=" with
      | [name, level] => name ≠ "" && (Text.int64? level).any (0 ≤ ·)
      | _ => false

def isPlace (s : String) : Bool :=
  match s.splitOn ":" with
  | [file, line] => file.toList.contains '.' && (Text.int64? line).any (0 < ·)
  | _ => false

def logging : List (String × Kind) :=
  [("logtostderr", .switch), ("alsologtostderr", .switch),
   ("v", .value fun s => (Text.int64? s).isSome), ("stderrthreshold", .value isSeverity),
   ("vmodule", .value isModuleList), ("log_backtrace_at", .value isPlace), ("log_dir", text)]

end Flags

end MiniJam
