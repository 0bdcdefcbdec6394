import MiniJam.Diagnostic
import MiniJam.Scope
import MiniJam.Tree

/-!
# Checking: names and types

The state of a check is the scope tables made so far and the diagnostics reported so far.  The
first table holds the classes of the package; the tables of the members of the classes follow it
in the order of the classes.
-/

namespace MiniJam.Typing

/-- The state of a check. -/
structure State where
  scopes : Scopes Binding
  /-- The diagnostics, in the order in which they were reported. -/
  diagnostics : Array Diagnostic

abbrev Check := StateM State

def report (span : Option Span) (message : String) : Check Unit :=
  modify fun s => { s with diagnostics := s.diagnostics.push ⟨span, message⟩ }

def modifyScopes (f : Scopes Binding → Scopes Binding) : Check Unit :=
  modify fun s => { s with scopes := f s.scopes }

def globalTable : Nat := 0

def memberTable (cls : Nat) : Nat := cls + 1

def newTable (name : String) (parent : Option Nat) : Check Nat :=
  modifyGet fun s =>
    let (id, scopes) := s.scopes.new name parent
    (id, { s with scopes })

/-- Binds a name in a table; a name that the table holds already is reported. -/
def bind (table : Nat) (name : String) (kind : SymbolKind) (type : Ty) (span : Span)
    (decl : Binding) : Check Unit := do
  let sym : Symbol Binding := ⟨name, kind, type, some span, decl, false⟩
  let (other, scopes) := (← get).scopes.bind table sym
  modifyScopes fun _ => scopes
  match other with
  | none => pure ()
  | some other =>
    let place := match other.span with
      | some s => s.text
      | none => ""
    report span s!"Redeclaration of {other.kind.text} `{name}' previously declared at {place}"

def findClass (name : String) : Check (Option Nat) := do
  match (← get).scopes.findKind? globalTable name .cls with
  | some ⟨_, _, _, _, .cls index, _⟩ => return some index
  | _ => return none

/-- Checks that the classes that a type names are there; the answer is the type, or `Ty.error`. -/
def resolve (span : Span) : Ty → Check Ty
  | .cls name => do
    match ← findClass name with
    | some _ => return .cls name
    | none =>
      report span s!"Undeclared type `{name}'"
      return .error
  | .array elem => do
    match ← resolve span elem with
    | .error => return .error
    | _ => return .array elem
  | t => return t

/-- Checks the type of a variable, which is not `void`. -/
def resolveVar (what name : String) (span : Span) (t : Ty) : Check Ty := do
  if t = .void then
    report span s!"{what} `{name}' cannot have type void"
    return .error
  resolve span t

/-- Reports a mismatch of the type that is required and the one that is there; what could not be
resolved matches everything. -/
def expectType (want got : Ty) (span : Span) : Check Unit := do
  if want ≠ .error ∧ got ≠ .error ∧ want ≠ got then
    report span s!"Type mismatch: expected {want.text}, received {got.text}"

/-- The method that is checked, and where. -/
structure Context where
  /-- The package, with the types of its members checked. -/
  package : Package
  cls : Nat
  className : String
  methodName : String
  isStatic : Bool
  /-- The table of the parameters and local variables. -/
  table : Nat
  /-- The local variable whose first value is checked. -/
  declaring : Option String

end MiniJam.Typing
