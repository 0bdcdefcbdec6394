import MiniJam.Tree.Print

/-!
# Walks

A walk visits the nodes of a tree from the top down, fields before methods within a class and else
in the order of the source.  What lies below a skipped node is not visited.  On the way up, names
of bare identifiers can be replaced.
-/

namespace MiniJam

namespace Tree

/-- A node of a tree, with all that lies below it. -/
inductive Node where
  | package (p : Package)
  | cls (c : ClassDecl)
  | field (f : FieldDecl)
  | method (m : MethodDecl)
  | param (p : ParamDecl)
  | local (d : LocalDecl)
  | stmt (s : Stmt)
  /-- An expression that is neither a reference nor a call. -/
  | expr (e : Expr)
  | call (c : Call)
  | ref (r : Ref)

def Node.kind : Node → NodeKind
  | package _ => .package
  | cls _ => .classDecl
  | field _ => .fieldDecl
  | method _ => .methodDecl
  | param _ => .paramDecl
  | «local» _ => .localDecl
  | stmt s => match s with
    | .block .. => .blockStmt
    | .decl .. => .varDeclStmt
    | .assign .. => .assignStmt
    | .call .. => .callStmt
    | .ifThen .. | .ifElse .. => .ifStmt
    | .loop .. => .whileStmt
  | expr e => match e with
    | .ref r => Ref.kind r
    | .int .. => .intLit
    | .bool .. => .boolLit
    | .unary .. => .unaryExpr
    | .binary .. => .binaryExpr
    | .newObject .. => .newObjectExpr
    | .newArray .. => .newArrayExpr
    | .call _ => .callExpr
  | call _ => .callExpr
  | ref r => Ref.kind r

/-- What a walk does at the nodes it visits. -/
structure Visitor where
  /-- The kinds of nodes below which nothing is visited. -/
  skips : NodeKind → Bool
  /-- The name that takes the place of an identifier, if another does. -/
  rename : String → Option String

/-- What happens to a node on a walk. -/
inductive Visit where
  /-- The node is visited and what lies below it is not. -/
  | skip (node : Node)
  /-- The node is visited, before what lies below it. -/
  | enter (node : Node)
  /-- The visit of the node ends, after what lies below it. -/
  | leave (node : Node)

def Visit.text : Visit → String
  | skip n => "!" ++ n.kind.name
  | enter n => "+" ++ n.kind.name
  | leave n => "-" ++ n.kind.name

def Visit.arrival? : Visit → Option Node
  | skip n => some n
  | enter n => some n
  | leave _ => none

/-- The visits of a walk over a part of a tree, and that part after the walk. -/
abbrev Walked (α : Type) := List Visit × α

namespace Visitor

variable (v : Visitor)

def visit {α : Type} (node : α → Node) (a : α) (below : Walked α) : Walked α :=
  if v.skips (node a).kind then ([.skip (node a)], a)
  else (.enter (node a) :: below.1 ++ [.leave (node a)], below.2)

def leaf {α : Type} (node : α → Node) (a : α) : Walked α := v.visit node a ([], a)

def renamed : Ref → Ref
  | .id s name b t => match v.rename name with
    | some other => .id s other none .error
    | none => .id s name b t
  | r => r

mutual

def ref (r : Ref) : Walked Ref :=
  match r with
  | .this s t => v.leaf .ref (.this s t)
  | .id s name b t => v.visit .ref (.id s name b t) ([], v.renamed (.id s name b t))
  | .member base s name b len t =>
    let (log, base') := ref base
    v.visit .ref (.member base s name b len t) (log, .member base' s name b len t)
  | .elem base index t =>
    let (log1, base') := ref base
    let (log2, index') := expr index
    v.visit .ref (.elem base index t) (log1 ++ log2, .elem base' index' t)

def expr (e : Expr) : Walked Expr :=
  match e with
  | .ref r => let (log, r') := ref r; (log, .ref r')
  | .int s spelling t => v.leaf .expr (.int s spelling t)
  | .bool s value t => v.leaf .expr (.bool s value t)
  | .unary s op operand t =>
    let (log, operand') := expr operand
    v.visit .expr (.unary s op operand t) (log, .unary s op operand' t)
  | .binary op lhs rhs t =>
    let (log1, lhs') := expr lhs
    let (log2, rhs') := expr rhs
    v.visit .expr (.binary op lhs rhs t) (log1 ++ log2, .binary op lhs' rhs' t)
  | .newObject s cls b t => v.leaf .expr (.newObject s cls b t)
  | .newArray s elem size t =>
    let (log, size') := expr size
    v.visit .expr (.newArray s elem size t) (log, .newArray s elem size' t)
  | .call c => let (log, c') := call c; (log, .call c')

def exprs (es : List Expr) : Walked (List Expr) :=
  match es with
  | [] => ([], [])
  | e :: es =>
    let (log1, e') := expr e
    let (log2, es') := exprs es
    (log1 ++ log2, e' :: es')

def call (c : Call) : Walked Call :=
  match c with
  | .mk method args close b t =>
    let (log1, method') := ref method
    let (log2, args') := exprs args
    v.visit .call (.mk method args close b t) (log1 ++ log2, .mk method' args' close b t)

end

mutual

def stmt (s : Stmt) : Walked Stmt :=
  match s with
  | .block s body =>
    let (log, body') := stmts body
    v.visit .stmt (.block s body) (log, .block s body')
  | .decl d init =>
    let (log1, d') := v.leaf .local d
    let (log2, init') := v.expr init
    v.visit .stmt (.decl d init) (log1 ++ log2, .decl d' init')
  | .assign lhs rhs =>
    let (log1, lhs') := v.ref lhs
    let (log2, rhs') := v.expr rhs
    v.visit .stmt (.assign lhs rhs) (log1 ++ log2, .assign lhs' rhs')
  | .call c =>
    let (log, c') := v.call c
    v.visit .stmt (.call c) (log, .call c')
  | .ifThen s cond body =>
    let (log1, cond') := v.expr cond
    let (log2, body') := stmt body
    v.visit .stmt (.ifThen s cond body) (log1 ++ log2, .ifThen s cond' body')
  | .ifElse s cond body other =>
    let (log1, cond') := v.expr cond
    let (log2, body') := stmt body
    let (log3, other') := stmt other
    v.visit .stmt (.ifElse s cond body other)
      (log1 ++ (log2 ++ log3), .ifElse s cond' body' other')
  | .loop s cond body =>
    let (log1, cond') := v.expr cond
    let (log2, body') := stmt body
    v.visit .stmt (.loop s cond body) (log1 ++ log2, .loop s cond' body')

def stmts (ss : List Stmt) : Walked (List Stmt) :=
  match ss with
  | [] => ([], [])
  | s :: ss =>
    let (log1, s') := stmt s
    let (log2, ss') := stmts ss
    (log1 ++ log2, s' :: ss')

end

def each {α : Type} (f : α → Walked α) (xs : List α) : Walked (List α) :=
  (xs.flatMap fun x => (f x).1, xs.map fun x => (f x).2)

/-- The walk over the value that a method returns, if it does. -/
def result : Option Expr → Walked (Option Expr)
  | some e => let (log, e') := v.expr e; (log, some e')
  | none => ([], none)

def method (m : MethodDecl) : Walked MethodDecl :=
  let (log1, params') := each (v.leaf .param) m.params
  let (log2, body') := v.stmts m.body
  let (log3, result') := v.result m.result
  v.visit .method m
    (log1 ++ (log2 ++ log3), { m with params := params', body := body', result := result' })

def cls (c : ClassDecl) : Walked ClassDecl :=
  let (log1, fields') := each (v.leaf .field) c.fields
  let (log2, methods') := each v.method c.methods
  v.visit .cls c (log1 ++ log2, { c with fields := fields', methods := methods' })

end Visitor

end Tree

namespace Package

def walk (p : Package) (v : Tree.Visitor) : Tree.Walked Package :=
  let (log, classes') := Tree.Visitor.each v.cls p.classes
  v.visit .package p (log, { p with classes := classes' })

/-- The nodes that a walk visits if it replaces no name, and the tree after it. -/
def inspected (p : Package) (skips : Tree.NodeKind → Bool) : List Tree.Node × Package :=
  let (log, p') := p.walk ⟨skips, fun _ => none⟩
  (log.filterMap (·.arrival?), p')

def inspect (p : Package) (skips : Tree.NodeKind → Bool) : List Tree.NodeKind :=
  (p.inspected skips).1.map (·.kind)

end Package

end MiniJam
