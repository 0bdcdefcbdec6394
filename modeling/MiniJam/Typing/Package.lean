import MiniJam.Predefined
import MiniJam.Total
import MiniJam.Typing.Stmt

/-!
# Checking packages

A check adds the predefined classes, enters every class and member into its table, checks the types
of the members, finds the method where the program starts, and checks every method.
-/

namespace MiniJam

namespace Typing

def declareClasses (classes : List ClassDecl) : Check Unit := do
  for (c, i) in classes.zipIdx do
    bind globalTable c.name .cls (.cls c.name) c.span (.cls i)

def declareMembers (c : ClassDecl) (cls : Nat) : Check Unit := do
  let table ← newTable c.name (some globalTable)
  for (f, i) in c.fields.zipIdx do
    bind table f.name .field f.type f.span (.field ⟨cls, i⟩)
  for (m, i) in c.methods.zipIdx do
    bind table m.name .method m.type m.span (.method ⟨cls, i⟩)

def findPrintln (p : Package) : Option MemberId :=
  (p.classes.zipIdx.flatMap fun (c, i) =>
    c.methods.zipIdx.filterMap fun (m, k) =>
      if c.predefined && c.name == Predefined.printStreamClass
          && m.name == Predefined.printlnMethod then some ⟨i, k⟩
      else none).getLast?.or p.println

/-- Gives the symbol of a member its type, if the member is the one that the name stands for. -/
def updateSymbol (table : Nat) (name : String) (decl : Binding) (t : Ty) : Check Unit :=
  modifyScopes (·.modify table (·.update name fun sym =>
    if sym.decl = decl then { sym with type := t } else sym))

def fieldType (cls index : Nat) (f : FieldDecl) : Check FieldDecl := do
  let t ← resolveVar "Field" f.name f.span f.type
  updateSymbol (memberTable cls) f.name (.field ⟨cls, index⟩) t
  return { f with type := t }

def paramType (p : ParamDecl) : Check ParamDecl := do
  return { p with type := ← resolveVar "Parameter" p.name p.span p.type }

def methodType (cls index : Nat) (m : MethodDecl) : Check MethodDecl := do
  let t ← resolve m.span m.type
  updateSymbol (memberTable cls) m.name (.method ⟨cls, index⟩) t
  let params ← m.params.mapM paramType
  return { m with type := t, params := params }

def memberTypes (c : ClassDecl) (cls : Nat) : Check ClassDecl := do
  let fields ← c.fields.zipIdx.mapM fun (f, i) => fieldType cls i f
  let methods ← c.methods.zipIdx.mapM fun (m, i) => methodType cls i m
  return { c with fields := fields, methods := methods }

def isEntry (m : MethodDecl) : Bool :=
  m.name == Predefined.entryMethod && !m.isPrivate && m.isStatic && m.type == .void
    && m.params.map (·.type) == [.array (.cls Predefined.stringClass)]

def entries (p : Package) : List MemberId :=
  p.classes.zipIdx.flatMap fun (c, i) =>
    if c.predefined then []
    else c.methods.zipIdx.filterMap fun (m, k) => if isEntry m then some ⟨i, k⟩ else none

def methodSpan (p : Package) (id : MemberId) : Option Span :=
  (p.method? id).map (·.span)

/-- Finds the method where the program starts: the one known before, or else the first. -/
def findEntry (p : Package) : Check (Option MemberId) := do
  let found ← (entries p).foldlM (fun entry id => do
    match entry with
    | none => return some id
    | some first =>
      let place := match methodSpan p first with
        | some s => s.text
        | none => ""
      report (methodSpan p id)
        s!"Duplicate entry point `{p.qualifiedName id}' previously declared at {place}"
      return some first) p.entry
  if found.isNone then
    report none "No entry point: a class must declare `public static void main(String[] args)'"
  return found

def methodResult (ctx : Context) (m : MethodDecl) : Check (Option Expr) := do
  match m.result with
  | some e =>
    if m.type = .void then
      report e.span s!"Method `{m.name}' is void and cannot return a value"
      let (_, e) ← expr ctx e
      return some e
    let (t, e) ← expr ctx e
    expectType m.type t e.span
    return some e
  | none =>
    if m.type ≠ .void then
      report m.span s!"Method `{m.name}' must return a value of type {m.type.text}"
    return none

def method (p : Package) (c : ClassDecl) (cls : Nat) (m : MethodDecl) : Check MethodDecl := do
  let table ← newTable (c.name ++ "." ++ m.name) (some (memberTable cls))
  let ctx : Context := ⟨p, cls, c.name, m.name, m.isStatic, table, none⟩
  for (d, i) in m.params.zipIdx do
    bind table d.name .param d.type d.span (.param i)
  openScope ctx
  let body ← stmts ctx m.body
  let result ← methodResult ctx m
  closeScope ctx
  return { m with body := body, result := result }

def methods (p : Package) (c : ClassDecl) (cls : Nat) : Check ClassDecl := do
  let methods ← c.methods.mapM (method p c cls)
  return { c with methods := methods }

def package (p : Package) : Check Package := do
  let _ ← newTable "global" none
  declareClasses p.classes
  for (c, i) in p.classes.zipIdx do
    declareMembers c i
  let classes ← p.classes.zipIdx.mapM fun (c, i) => memberTypes c i
  let p := { p with classes := classes, println := findPrintln p }
  let p := { p with entry := ← findEntry p }
  let classes ← p.classes.zipIdx.mapM fun (c, i) => methods p c i
  return { p with classes := classes }

end Typing

/-- What a check found. -/
structure Checked where
  /-- The package, with its names bound and its types filled in. -/
  package : Package
  scopes : Scopes Binding
  /-- The diagnostics, in the order in which they were reported. -/
  diagnostics : List Diagnostic

namespace Checked

def memberTables (c : Checked) : List Nat :=
  (List.range c.package.classes.length).map Typing.memberTable

def methodTables (c : Checked) : List Nat :=
  let first := c.package.classes.length + 1
  (List.range (total (c.package.classes.map (·.methods.length)))).map (first + ·)

end Checked

def Package.check (p : Package) : Checked :=
  let (package, s) := (Typing.package (Predefined.addTo p)).run ⟨.empty, #[]⟩
  ⟨package, s.scopes, s.diagnostics.toList⟩

end MiniJam
