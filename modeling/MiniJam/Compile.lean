import MiniJam.Code.Package
import MiniJam.Path
import MiniJam.Tree.Parse
import MiniJam.Typing.Package

/-!
# Compilation

A source is parsed, checked and turned into code.  Each step runs only if the one before it
reported nothing.
-/

namespace MiniJam

/-- Why a source cannot be compiled. -/
inductive CompileError where
  | invalidCodeSize (limit : Int)
  | diagnostics (ds : List Diagnostic)
  deriving DecidableEq, Repr

def CompileError.message : CompileError → String
  | invalidCodeSize limit => s!"invalid code size {limit}"
  | diagnostics ds => Diagnostic.textOf ds

/-- The options of a compiler. -/
structure Compiler where
  /-- Whether instance methods are called through the descriptor of the instance's class. -/
  dynamic : Bool
  /-- The number of instructions that a program may have. -/
  maxCodeSize : Int
  deriving DecidableEq, Repr

namespace Compiler

def default : Compiler := ⟨false, Machine.defaultCapacity⟩

def make (dynamic : Bool) (maxCodeSize : Option Int) : Except CompileError Compiler :=
  match maxCodeSize with
  | none => .ok { default with dynamic }
  | some n => if 0 < n then .ok ⟨dynamic, n⟩ else .error (.invalidCodeSize n)

def object (c : Compiler) (p : Package) : Except CompileError Object :=
  match p.assemble c.dynamic with
  | .error ds => .error (.diagnostics ds)
  | .ok a => (a.object c.maxCodeSize).mapError .diagnostics

/-- Compiles a source; places in it are given with the last part of its name. -/
def compile (c : Compiler) (name : String) (source : List UInt8) : Except CompileError Object :=
  match Package.parse (Path.base name) source with
  | .error d => .error (.diagnostics [d])
  | .ok p =>
    let checked := p.check
    match checked.diagnostics with
    | [] => c.object checked.package
    | ds => .error (.diagnostics ds)

end Compiler

end MiniJam
