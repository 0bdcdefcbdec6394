import MiniJam.Tree

/-!
# Trees as text

A tree is printed as nested parentheses, one node a line, with the kind of the node, its place and,
if asked for, its type.
-/

namespace MiniJam

namespace Tree

/-- The parts of a tree that a printed tree and a walk tell apart. -/
inductive NodeKind where
  | package | classDecl | fieldDecl | methodDecl | paramDecl | localDecl
  | blockStmt | varDeclStmt | assignStmt | callStmt | ifStmt | whileStmt
  | unaryExpr | binaryExpr | intLit | boolLit | newObjectExpr | newArrayExpr | callExpr
  | thisRef | idRef | qualifiedRef | indexedRef
  deriving DecidableEq, Repr

def NodeKind.name : NodeKind → String
  | package => "*ast.Package" | classDecl => "*ast.ClassDecl" | fieldDecl => "*ast.FieldDecl"
  | methodDecl => "*ast.MethodDecl" | paramDecl => "*ast.ParamDecl"
  | localDecl => "*ast.LocalDecl" | blockStmt => "*ast.BlockStmt"
  | varDeclStmt => "*ast.VarDeclStmt" | assignStmt => "*ast.AssignStmt"
  | callStmt => "*ast.CallStmt" | ifStmt => "*ast.IfStmt" | whileStmt => "*ast.WhileStmt"
  | unaryExpr => "*ast.UnaryExpr" | binaryExpr => "*ast.BinaryExpr" | intLit => "*ast.IntLit"
  | boolLit => "*ast.BoolLit" | newObjectExpr => "*ast.NewObjectExpr"
  | newArrayExpr => "*ast.NewArrayExpr" | callExpr => "*ast.CallExpr" | thisRef => "*ast.ThisRef"
  | idRef => "*ast.IdRef" | qualifiedRef => "*ast.QualifiedRef"
  | indexedRef => "*ast.IndexedRef"

def Ref.kind : Ref → NodeKind
  | .this .. => .thisRef
  | .id .. => .idRef
  | .member .. => .qualifiedRef
  | .elem .. => .indexedRef

def indent (depth : Nat) : String := String.ofList (List.replicate (2 * depth) ' ')

/-- A node `depth` levels down: its heading, its own line unless that is empty, and the nodes
below it. -/
def node (kind : NodeKind) (type : Option Ty) (span : Option Span) (detail : String)
    (children : String) (depth : Nat) : String :=
  let typeText := match type with
    | some t => "<" ++ t.text ++ "> "
    | none => ""
  let spanText := match span with
    | some s => "@ " ++ s.text
    | none => ""
  indent depth ++ "( ;;" ++ kind.name ++ " " ++ typeText ++ spanText ++ "\n"
    ++ (if detail = "" then "" else indent (depth + 1) ++ detail ++ "\n")
    ++ children ++ indent depth ++ ")\n"

def modifiers (isPrivate isStatic : Bool) : String :=
  (if isPrivate then "private " else "") ++ (if isStatic then "static " else "")

variable (types : Bool)

def shown (t : Ty) : Option Ty := if types then some t else none

mutual

def refText (depth : Nat) (r : Ref) : String :=
  match r with
  | .this s t => node .thisRef (shown types t) s "this" "" depth
  | .id s name _ t => node .idRef (shown types t) s ("\"" ++ name ++ "\"") "" depth
  | .member base s name _ _ t =>
    node .qualifiedRef (shown types t) (base.span.merge s) ("." ++ name)
      (refText (depth + 1) base) depth
  | .elem base index t =>
    node .indexedRef (shown types t) (base.span.merge index.span) ""
      (refText (depth + 1) base ++ exprText (depth + 1) index) depth

def exprText (depth : Nat) (e : Expr) : String :=
  match e with
  | .ref r => refText depth r
  | .int s spelling t => node .intLit (shown types t) s spelling "" depth
  | .bool s value t => node .boolLit (shown types t) s (toString value) "" depth
  | .unary s op operand t =>
    node .unaryExpr (shown types t) (s.merge operand.span) op.text
      (exprText (depth + 1) operand) depth
  | .binary op lhs rhs t =>
    node .binaryExpr (shown types t) (lhs.span.merge rhs.span) op.text
      (exprText (depth + 1) lhs ++ exprText (depth + 1) rhs) depth
  | .newObject s cls _ t => node .newObjectExpr (shown types t) s ("new " ++ cls) "" depth
  | .newArray s elem size t =>
    node .newArrayExpr (shown types t) (s.merge size.span) ("new " ++ elem.text ++ "[]")
      (exprText (depth + 1) size) depth
  | .call c => callText depth c

def exprsText (depth : Nat) (es : List Expr) : String :=
  match es with
  | [] => ""
  | e :: es => exprText depth e ++ exprsText depth es

def callText (depth : Nat) (c : Call) : String :=
  match c with
  | .mk method args close _ t =>
    node .callExpr (shown types t) (method.span.merge close) ""
      (refText (depth + 1) method ++ exprsText (depth + 1) args) depth

end

def localText (depth : Nat) (d : LocalDecl) : String :=
  node .localDecl none d.span (d.type.text ++ " " ++ d.name) "" depth

mutual

def stmtText (depth : Nat) (s : Stmt) : String :=
  match s with
  | .block s body => node .blockStmt none s "" (stmtsText (depth + 1) body) depth
  | .decl d init =>
    node .varDeclStmt none (d.span.merge init.span) ""
      (localText (depth + 1) d ++ exprText types (depth + 1) init) depth
  | .assign lhs rhs =>
    node .assignStmt none (lhs.span.merge rhs.span) ""
      (refText types (depth + 1) lhs ++ exprText types (depth + 1) rhs) depth
  | .call c => node .callStmt none c.span "" (callText types (depth + 1) c) depth
  | .ifThen s cond body =>
    node .ifStmt none s "" (exprText types (depth + 1) cond ++ stmtText (depth + 1) body) depth
  | .ifElse s cond body other =>
    node .ifStmt none s ""
      (exprText types (depth + 1) cond ++ stmtText (depth + 1) body
        ++ stmtText (depth + 1) other) depth
  | .loop s cond body =>
    node .whileStmt none s "" (exprText types (depth + 1) cond ++ stmtText (depth + 1) body) depth

def stmtsText (depth : Nat) (ss : List Stmt) : String :=
  match ss with
  | [] => ""
  | s :: ss => stmtText depth s ++ stmtsText depth ss

end

def fieldText (depth : Nat) (f : FieldDecl) : String :=
  node .fieldDecl none f.span
    (modifiers f.isPrivate f.isStatic ++ f.type.text ++ " " ++ f.name) "" depth

def paramText (depth : Nat) (p : ParamDecl) : String :=
  node .paramDecl none p.span (p.type.text ++ " " ++ p.name) "" depth

def methodText (depth : Nat) (m : MethodDecl) : String :=
  let result := match m.result with
    | some e => exprText types (depth + 1) e
    | none => ""
  node .methodDecl none m.span
    (modifiers m.isPrivate m.isStatic ++ m.type.text ++ " " ++ m.name)
    (String.join (m.params.map (paramText (depth + 1))) ++ stmtsText types (depth + 1) m.body
      ++ result) depth

def classText (depth : Nat) (c : ClassDecl) : String :=
  node .classDecl none c.span ("class " ++ c.name)
    (String.join (c.fields.map (fieldText (depth + 1)))
      ++ String.join (c.methods.map (methodText types (depth + 1)))) depth

end Tree

/-- A package as text, with the types of expressions if `types` says so. -/
def Package.text (p : Package) (types : Bool) : String :=
  let entry := match p.entry with
    | some id => "entry " ++ p.qualifiedName id
    | none => ""
  Tree.node .package none p.span? entry
    (String.join (p.classes.map (Tree.classText types 1))) 0

end MiniJam
