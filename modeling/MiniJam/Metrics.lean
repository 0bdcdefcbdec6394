import MiniJam.Dict
import MiniJam.Machine.Monitor

/-!
# Metrics

What the compiler and the machine do is counted for each program.  The counts are written one a
line: the name of the measure, its labels and the count.
-/

namespace MiniJam

/-- What is counted for a program. -/
inductive Measure where
  | timed
  | cacheHits
  | compileErrors
  | compiles
  | runtimeErrors
  | executed
  | runs
  | terminations (condition : Condition)
  deriving DecidableEq, Repr

namespace Measure

def name : Measure → String
  | timed => "minijava_compile_duration_seconds_count"
  | cacheHits => "minijava_prog_cache_hits_total"
  | compileErrors => "minijava_prog_compile_errors_total"
  | compiles => "minijava_prog_compiles_total"
  | runtimeErrors => "minijava_prog_runtime_errors_total"
  | executed => "mjam_instructions_executed_total"
  | runs => "mjam_run_duration_seconds_count"
  | terminations _ => "mjam_terminations_total"

def labels : Measure → List (String × String)
  | terminations condition => [("status", condition.name)]
  | _ => []

end Measure

/-- Counts for measures and programs. -/
structure Metrics where
  counts : Dict (Measure × String) Nat
  deriving Repr

namespace Metrics

def zero : Metrics := ⟨.empty⟩

def get (m : Metrics) (x : Measure) (program : String) : Nat :=
  (m.counts.get? (x, program)).getD 0

/-- Counts `n` more. -/
def add (m : Metrics) (x : Measure) (program : String) (n : Nat) : Metrics :=
  ⟨m.counts.insert (x, program) (m.get x program + n)⟩

theorem get_add (m : Metrics) (x y : Measure) (p q : String) (n : Nat) :
    (m.add x p n).get y q = m.get y q + if (y, q) = (x, p) then n else 0 := by
  by_cases h : (y, q) = (x, p)
  · obtain ⟨rfl, rfl⟩ := Prod.mk.inj h
    simp [add, get, Dict.get?_insert]
  · simp only [add, get, Dict.get?_insert, h, if_false, Nat.add_zero]

def addTally (m : Metrics) (program : String) (failures : Nat) (t : Tally) : Metrics :=
  let m := if failures = 0 then m else m.add .runtimeErrors program failures
  let m := match t.executed with
    | some n => m.add .executed program n
    | none => m
  let m := if t.runs = 0 then m else m.add .runs program t.runs
  t.stops.foldl (fun m condition => m.add (.terminations condition) program 1) m

/-- A count in decimal; from a million on with an exponent, without zeros at the end. -/
def countText (n : Nat) : String :=
  let digits := (Nat.repr n).toList
  if n < 1000000 then String.ofList digits
  else
    let exponent := Nat.repr (digits.length - 1)
    let exponent := if exponent.length < 2 then "0" ++ exponent else exponent
    let fraction := ((digits.drop 1).reverse.dropWhile (· = '0')).reverse
    let fraction := if fraction.isEmpty then [] else '.' :: fraction
    String.ofList (digits.take 1 ++ fraction) ++ "e+" ++ exponent

def labelText (value : String) : String :=
  String.ofList <| value.toList.flatMap fun c =>
    if c = '\\' then ['\\', '\\']
    else if c = '"' then ['\\', '"']
    else if c = '\n' then ['\\', 'n']
    else [c]

def line (e : (Measure × String) × Nat) : String :=
  let labels := ("prog", e.1.2) :: e.1.1.labels
  let texts := labels.map fun (name, value) => name ++ "=\"" ++ labelText value ++ "\""
  e.1.1.name ++ "\x7b" ++ ",".intercalate texts ++ "\x7d " ++ countText e.2 ++ "\n"

/-- Whether texts come before others, or are the same, when they are compared one after another. -/
def inOrder : List String → List String → Bool
  | [], _ => true
  | _ :: _, [] => false
  | a :: as, b :: bs => if a = b then inOrder as bs else decide (a ≤ b)

/-- Counts come in the order of their measures' names, their programs and their other labels. -/
def precedes (a b : (Measure × String) × Nat) : Bool :=
  let key (e : (Measure × String) × Nat) : List String :=
    e.1.1.name :: e.1.2 :: e.1.1.labels.map (·.2)
  inOrder (key a) (key b)

def text (m : Metrics) : String := String.join ((m.counts.entries.mergeSort precedes).map line)

end Metrics

end MiniJam
