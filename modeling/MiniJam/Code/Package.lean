import MiniJam.Code.Stmt
import MiniJam.Object

/-!
# The code of packages

The code of a program makes room for the static fields, pushes the descriptors of the classes and
calls the method where the program starts.  The methods of a class stand in front of the code that
pushes its descriptor, behind a jump over them.
-/

namespace MiniJam

namespace Code

/-- The code of a method in its place. -/
structure Body where
  decl : MethodDecl
  /-- The address of its first instruction. -/
  addr : Nat
  code : Code
  frame : Frame

/-- The code of a class in its place. -/
structure Part where
  cls : Nat
  decl : ClassDecl
  start : Nat
  bodies : List Body

variable (p : Package) (dynamic : Bool)

def bodies (pc : Nat) : List MethodDecl → List Body
  | [] => []
  | m :: ms =>
    let (code, frame) := ofMethod ⟨p, dynamic, m.params⟩ .start pc m
    ⟨m, pc, code, frame⟩ :: bodies (pc + code.size) ms

namespace Part

def methodCode (c : Part) : Code := join (c.bodies.map (·.code))

def descriptorStart (c : Part) : Nat := c.start + 1 + c.methodCode.size

def descriptorCode (c : Part) : Code :=
  let line := c.decl.span.line
  let methods := c.bodies.filter (!·.decl.isStatic)
  literal line Machine.noParent ++ literal line (Layout.instanceWords c.decl)
    ++ literal line methods.length ++ join (methods.map fun b => literal line b.addr)

def code (c : Part) : Code :=
  one c.decl.span.line .jump 0 .cb c.descriptorStart ++ c.methodCode ++ c.descriptorCode

end Part

def parts (cls pc : Nat) : List ClassDecl → List Part
  | [] => []
  | c :: cs =>
    let part : Part := ⟨cls, c, pc, bodies p dynamic (pc + 1) c.methods⟩
    part :: parts (cls + 1) (pc + part.code.size) cs

end Code

/-- A program before its calls have addresses. -/
structure Assembly where
  package : Package
  parts : List Code.Part
  code : Code

namespace Assembly

/-- The code of a package that starts at the method `entry`. -/
def ofPackage (p : Package) (dynamic : Bool) (entry : MemberId) : Assembly :=
  let statics := Code.one 0 .push 0 .zr (Layout.staticSize p)
  let parts := Code.parts p dynamic 0 statics.size p.classes
  let line := ((p.method? entry).map (·.span.line)).getD 0
  let start := Code.literal line Machine.nullWord ++ Code.callOf line .call entry
    ++ Code.one line .halt 0 .zr 0
  ⟨p, parts, statics ++ Code.join (parts.map (·.code)) ++ start⟩

def body? (a : Assembly) (id : MemberId) : Option Code.Body :=
  a.parts[id.cls]?.bind (·.bodies[id.index]?)

def link (a : Assembly) (item : Item) : Instr :=
  match item.callee.bind a.body? with
  | some b => { item.instr with d := b.addr }
  | none => item.instr

def program (a : Assembly) : Program := (a.code.items.map a.link).toArray

/-- The calls of methods without code. -/
def unresolved (a : Assembly) : List Diagnostic :=
  a.code.items.zipIdx.filterMap fun (item, addr) =>
    match item.callee with
    | none => none
    | some id =>
      if (a.body? id).isSome then none
      else some ⟨(a.package.method? id).map (·.span),
        Code.faultText s!"unresolved call of `{a.package.qualifiedName id}' at {addr}"⟩

def symbols (a : Assembly) : Symbols :=
  let methods := a.parts.flatMap fun c => c.bodies.map fun b =>
    (⟨b.addr, c.decl.name ++ "." ++ b.decl.name, b.decl.span.line⟩ : Entry)
  let classes := a.parts.map fun c =>
    (⟨Layout.descriptorAddr a.package c.cls, c.decl.name, c.decl.span.line⟩ : Entry)
  Symbols.sorted
    { source := a.package.file
      lines := some (a.code.items.map (·.line)).toArray
      methods := some methods.toArray
      classes := some classes.toArray }

/-- Everything that is wrong with the code of a program that has to fit into `limit`
instructions. -/
def diagnostics (a : Assembly) (limit : Int) : List Diagnostic :=
  let size := a.code.size
  a.code.faults ++ a.unresolved ++
    if limit < size then
      [⟨none, Code.faultText
        s!"program of {size} instructions exceeds the code segment size {limit}"⟩]
    else []

/-- The object of a program that has to fit into `limit` instructions. -/
def object (a : Assembly) (limit : Int) : Except (List Diagnostic) Object :=
  match a.diagnostics limit with
  | [] => .ok ⟨a.program, some a.symbols⟩
  | ds => .error ds

end Assembly

namespace Package

/-- The code of a checked package; there is none without a method to start at. -/
def assemble (p : Package) (dynamic : Bool) : Except (List Diagnostic) Assembly :=
  match p.entry with
  | some entry => .ok (.ofPackage p dynamic entry)
  | none => .error [⟨none, Code.faultText "no entry point"⟩]

end Package

end MiniJam
