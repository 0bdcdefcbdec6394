import MiniJam.Span
import MiniJam.Text.Quoted
import MiniJam.Ty

/-!
# Scopes

A scope table holds the names declared by one part of a program: the program itself, a class, or a
method.  A table has an outermost mapping and, while the blocks of a method are open, further
mappings inside it.  A lookup that finds nothing in a table goes on in its parent, which was made
before it.
-/

namespace MiniJam

/-- What a name stands for. -/
inductive SymbolKind where
  | cls | field | method | param | var
  deriving DecidableEq, Repr

namespace SymbolKind

def all : Array SymbolKind := #[cls, field, method, param, var]

def ofCode? (code : Int) : Option SymbolKind :=
  if code < 0 then none else all[code.toNat]?

def text : SymbolKind → String
  | cls => "class"
  | field => "field"
  | method => "method"
  | param => "parameter"
  | var => "local variable"

end SymbolKind

/-- A declared name, with the declaration of type `α` that it stands for. -/
structure Symbol (α : Type) where
  name : String
  kind : SymbolKind
  type : Ty
  span : Option Span
  decl : α
  used : Bool

/-- The names declared in one block. -/
abbrev Mapping (α : Type) := List (Symbol α)

/-- The names declared by one part of a program. -/
structure ScopeTable (α : Type) where
  name : String
  /-- The table in which lookups go on. -/
  parent : Option Nat
  /-- The open mappings inside the outermost one, innermost first. -/
  inner : List (Mapping α)
  outer : Mapping α

namespace Mapping

variable {α : Type}

def find? (m : Mapping α) (name : String) : Option (Symbol α) :=
  List.find? (·.name == name) m

def update (m : Mapping α) (name : String) (f : Symbol α → Symbol α) : Mapping α :=
  m.map fun s => if s.name = name then f s else s

end Mapping

namespace ScopeTable

variable {α : Type}

def mappings (t : ScopeTable α) : List (Mapping α) := t.inner ++ [t.outer]

def depth (t : ScopeTable α) : Nat := t.inner.length + 1

def push (t : ScopeTable α) : ScopeTable α := { t with inner := [] :: t.inner }

/-- Closes the innermost mapping; the outermost one stays open. -/
def pop? (t : ScopeTable α) : Option (ScopeTable α) :=
  match t.inner with
  | [] => none
  | _ :: rest => some { t with inner := rest }

def popMessage (t : ScopeTable α) : String :=
  s!"symbol table {t.name}: pop of outermost scope"

def findLocal? (t : ScopeTable α) (name : String) : Option (Symbol α) :=
  t.mappings.findSome? (·.find? name)

def findKind? (t : ScopeTable α) (name : String) (kind : SymbolKind) : Option (Symbol α) :=
  t.mappings.findSome? fun m => List.find? (fun s => s.name == name && s.kind == kind) m

def insert (t : ScopeTable α) (s : Symbol α) : ScopeTable α :=
  match t.inner with
  | [] => { t with outer := t.outer ++ [s] }
  | m :: rest => { t with inner := (m ++ [s]) :: rest }

def update (t : ScopeTable α) (name : String) (f : Symbol α → Symbol α) : ScopeTable α :=
  { t with inner := t.inner.map (·.update name f), outer := t.outer.update name f }

/-- The lines of the symbols of a table, outermost mapping first and by name within a mapping. -/
def lines (t : ScopeTable α) : List String :=
  t.mappings.reverse.zipIdx.flatMap fun (m, depth) =>
    (m.mergeSort fun a b => decide (a.name ≤ b.name)).map fun s =>
      s!"\t{depth} {Text.quote s.name}: {s.kind.text} {s.type.text} {s.used}\n"

end ScopeTable

/-- The tables of a program; each is known by its position. -/
structure Scopes (α : Type) where
  /-- The tables in the order in which they were made. -/
  tables : Array (ScopeTable α)

namespace Scopes

variable {α : Type}

def empty : Scopes α := ⟨#[]⟩

def table? (s : Scopes α) (id : Nat) : Option (ScopeTable α) := s.tables[id]?

def new (s : Scopes α) (name : String) (parent : Option Nat) : Nat × Scopes α :=
  (s.tables.size, ⟨s.tables.push ⟨name, parent, [], []⟩⟩)

def modify (s : Scopes α) (id : Nat) (f : ScopeTable α → ScopeTable α) : Scopes α :=
  ⟨s.tables.modify id f⟩

/-- The positions of a table and the tables around it, innermost first.  The parent of a table
comes before it; a later one is not followed. -/
def chain (s : Scopes α) (id : Nat) : List Nat :=
  match s.table? id with
  | none => []
  | some t =>
    match t.parent with
    | none => [id]
    | some p => if _h : p < id then id :: s.chain p else [id]
termination_by id

def owner? (s : Scopes α) (id : Nat) (name : String) : Option Nat :=
  (s.chain id).find? fun i => ((s.table? i).bind (·.findLocal? name)).isSome

def find? (s : Scopes α) (id : Nat) (name : String) : Option (Symbol α) :=
  (s.chain id).findSome? fun i => (s.table? i).bind (·.findLocal? name)

/-- The symbol that a lookup of a name and kind finds; symbols of other kinds are passed over. -/
def findKind? (s : Scopes α) (id : Nat) (name : String) (kind : SymbolKind) :
    Option (Symbol α) :=
  (s.chain id).findSome? fun i => (s.table? i).bind (·.findKind? name kind)

/-- Binds a name in the innermost mapping of a table, unless the table holds it already: then that
symbol is given, and nothing changes. -/
def bind (s : Scopes α) (id : Nat) (sym : Symbol α) : Option (Symbol α) × Scopes α :=
  match (s.table? id).bind (·.findLocal? sym.name) with
  | some other => (some other, s)
  | none => (none, s.modify id (·.insert sym))

def use (s : Scopes α) (id : Nat) (name : String) : Scopes α :=
  match s.owner? id name with
  | some i => s.modify i (·.update name fun sym => { sym with used := true })
  | none => s

def text (s : Scopes α) (id : Option Nat) : String :=
  match id with
  | none => "table <nil> \x7b\x7d\n"
  | some id =>
  let tables := (s.chain id).filterMap s.table?
  String.join (tables.map fun t => s!"table {t.name} \x7b\n" ++ String.join t.lines)
    ++ String.join (tables.map fun _ => "\x7d\n")

end Scopes

end MiniJam
