import MiniJam.Diagnostic
import MiniJam.Layout

/-!
# Code

Code is made in pieces that are put one behind the other.  A piece knows the address it will have,
so its jumps are final; a call names its method and gets its address when all code is there.
-/

namespace MiniJam

/-- One instruction of a piece of code. -/
structure Item where
  instr : Instr
  /-- The source line it was made for, counted from zero. -/
  line : Int
  callee : Option MemberId
  deriving DecidableEq, Repr

/-- A piece of code, and what could not be turned into code. -/
structure Code where
  items : List Item
  faults : List Diagnostic
  deriving DecidableEq, Repr

namespace Code

def empty : Code := ⟨[], []⟩

def append (a b : Code) : Code := ⟨a.items ++ b.items, a.faults ++ b.faults⟩

instance : Append Code := ⟨append⟩

def size (c : Code) : Nat := c.items.length

def one (line : Int) (op : Opcode) (n : Int) (r : Reg) (d : Int) : Code :=
  ⟨[⟨.make op n r d, line, none⟩], []⟩

def literal (line : Int) (word : Int) : Code := one line .loadl 0 .zr word

def prim (line : Int) (p : Prim) : Code := ⟨[⟨.ofPrim p, line, none⟩], []⟩

def callOf (line : Int) (op : Opcode) (id : MemberId) : Code :=
  ⟨[⟨.make op 0 .cb 0, line, some id⟩], []⟩

def faultText (message : String) : String :=
  "Internal compiler error, aborting compilation: " ++ message

def fault (span : Option Span) (message : String) : Code :=
  ⟨[], [⟨span, faultText message⟩]⟩

def join (cs : List Code) : Code := cs.foldr (· ++ ·) empty

/-- The local variables of a method: each gets its place when its declaration is reached. -/
structure Frame where
  /-- The place of the next variable. -/
  offset : Nat
  /-- The places given so far, the last one first. -/
  slots : List (LocalDecl × Nat)
  deriving DecidableEq, Repr

namespace Frame

def start : Frame := ⟨Machine.linkWords.toNat, []⟩

def declare (f : Frame) (d : LocalDecl) : Frame :=
  ⟨f.offset + d.type.size, (d, f.offset) :: f.slots⟩

def find? (f : Frame) (d : LocalDecl) : Option Nat := f.slots.lookup d

end Frame

/-- What the code of a method depends on. -/
structure Env where
  package : Package
  /-- Whether instance methods are called through the descriptor of the instance's class. -/
  dynamic : Bool
  params : List ParamDecl

def Env.entity? (env : Env) (frame : Frame) : Binding → Option Entity
  | .cls index => Layout.classEntity? env.package index
  | .field id => Layout.fieldEntity? env.package id
  | .method id =>
    (env.package.method? id).map fun m => Layout.methodEntity m id.cls env.package (-1)
  | .param index => env.params[index]?.map fun d => Layout.paramEntity d index
  | .var d => (frame.find? d).map fun offset => Layout.localEntity d offset

def Env.nameOf (env : Env) : Binding → String
  | .cls index => ((env.package.class? index).map (·.name)).getD ""
  | .field id => ((env.package.field? id).map (·.name)).getD ""
  | .method id => ((env.package.method? id).map (·.name)).getD ""
  | .param index => (env.params[index]?.map (·.name)).getD ""
  | .var d => d.name

def Env.withEntity (env : Env) (frame : Frame) (span : Span) (b : Option Binding)
    (use : Entity → Code) : Code :=
  match b with
  | none => fault span "no runtime entity for `<nil>'"
  | some b =>
    match env.entity? frame b with
    | some e => use e
    | none => fault span s!"no runtime entity for `{env.nameOf b}'"

def Env.isStatic (env : Env) : Option Binding → Bool
  | some (.field id) => ((env.package.field? id).map (·.isStatic)).getD false
  | some (.method id) => ((env.package.method? id).map (·.isStatic)).getD false
  | _ => false

end Code

end MiniJam
