import MiniJam.Span
import MiniJam.Ty

/-!
# Syntax trees

A package is the classes of one source file, down to their statements and expressions.  The tree
has places for what is found out about it later: the declaration that a name is bound to, and the
type of each expression, which is `Ty.error` until it is known.
-/

namespace MiniJam

/-- The operators. -/
inductive Operator where
  | or | and | eq | ne | lt | le | gt | ge | plus | minus | mul | div | not
  deriving DecidableEq, Repr

namespace Operator

def text : Operator → String
  | or => "||" | and => "&&" | eq => "==" | ne => "!=" | lt => "<" | le => "<=" | gt => ">"
  | ge => ">=" | plus => "+" | minus => "-" | mul => "*" | div => "/" | not => "!"

def all : Array Operator := #[or, and, eq, ne, lt, le, gt, ge, plus, minus, mul, div, not]

def textOf (code : Int) : String :=
  match if code < 0 then none else all[code.toNat]? with
  | some o => o.text
  | none => "?"

end Operator

/-- A parameter of a method. -/
structure ParamDecl where
  span : Span
  name : String
  type : Ty
  deriving DecidableEq, Repr

/-- A local variable. -/
structure LocalDecl where
  span : Span
  name : String
  type : Ty
  deriving DecidableEq, Repr

/-- The place of a field or method in a package: the position of its class, and its position among
the fields or methods of that class. -/
structure MemberId where
  cls : Nat
  index : Nat
  deriving DecidableEq, Repr

/-- The declaration that a name stands for. -/
inductive Binding where
  | cls (index : Nat)
  | field (id : MemberId)
  | method (id : MemberId)
  /-- The parameter at a position of the method that the name occurs in. -/
  | param (index : Nat)
  | var (decl : LocalDecl)
  deriving DecidableEq, Repr

mutual

/-- A reference names a variable, a member, a class or an array element. -/
inductive Ref where
  | this (span : Span) (type : Ty)
  | id (span : Span) (name : String) (bound : Option Binding) (type : Ty)
  /-- A member of what `base` stands for, or the length of an array. -/
  | member (base : Ref) (span : Span) (name : String) (bound : Option Binding) (isLength : Bool)
      (type : Ty)
  | elem (base : Ref) (index : Expr) (type : Ty)

/-- An expression. -/
inductive Expr where
  | ref (r : Ref)
  | int (span : Span) (spelling : String) (type : Ty)
  | bool (span : Span) (value : Bool) (type : Ty)
  | unary (span : Span) (op : Operator) (operand : Expr) (type : Ty)
  | binary (op : Operator) (lhs rhs : Expr) (type : Ty)
  | newObject (span : Span) (cls : String) (bound : Option Nat) (type : Ty)
  | newArray (span : Span) (elem : Ty) (size : Expr) (type : Ty)
  | call (c : Call)

/-- A method call: the method, the arguments, and the place of the closing parenthesis. -/
inductive Call where
  | mk (method : Ref) (args : List Expr) (close : Span) (bound : Option MemberId) (type : Ty)

end

/-- A statement. -/
inductive Stmt where
  | block (span : Span) (body : List Stmt)
  /-- The declaration of a local variable with its first value. -/
  | decl (d : LocalDecl) (init : Expr)
  | assign (lhs : Ref) (rhs : Expr)
  | call (c : Call)
  | ifThen (span : Span) (cond : Expr) (body : Stmt)
  | ifElse (span : Span) (cond : Expr) (body other : Stmt)
  | loop (span : Span) (cond : Expr) (body : Stmt)

/-- A field of a class. -/
structure FieldDecl where
  span : Span
  name : String
  type : Ty
  isPrivate : Bool
  /-- Whether it belongs to the class and not to its instances. -/
  isStatic : Bool
  deriving DecidableEq, Repr

/-- A method of a class. -/
structure MethodDecl where
  span : Span
  name : String
  type : Ty
  isPrivate : Bool
  /-- Whether it belongs to the class and not to its instances. -/
  isStatic : Bool
  params : List ParamDecl
  body : List Stmt
  result : Option Expr

/-- A class. -/
structure ClassDecl where
  span : Span
  name : String
  fields : List FieldDecl
  methods : List MethodDecl
  /-- Whether it belongs to every program instead of being declared by this one. -/
  predefined : Bool

/-- The classes of one source file. -/
structure Package where
  file : String
  classes : List ClassDecl
  /-- The method where the program starts, once it is found. -/
  entry : Option MemberId
  /-- The method that prints a number, once it is found. -/
  println : Option MemberId

namespace Call

def method : Call → Ref
  | mk m _ _ _ _ => m

def args : Call → List Expr
  | mk _ as _ _ _ => as

def bound : Call → Option MemberId
  | mk _ _ _ b _ => b

def type : Call → Ty
  | mk _ _ _ _ t => t

end Call

namespace Ref

def type : Ref → Ty
  | this _ t => t
  | id _ _ _ t => t
  | member _ _ _ _ _ t => t
  | elem _ _ t => t

def bound : Ref → Option Binding
  | id _ _ b _ => b
  | member _ _ _ b _ _ => b
  | this .. | elem .. => none

end Ref

namespace Expr

def type : Expr → Ty
  | ref r => r.type
  | int _ _ t => t
  | bool _ _ t => t
  | unary _ _ _ t => t
  | binary _ _ _ t => t
  | newObject _ _ _ t => t
  | newArray _ _ _ t => t
  | call c => c.type

end Expr

mutual

def Ref.span : Ref → Span
  | .this s _ => s
  | .id s _ _ _ => s
  | .member base s _ _ _ _ => base.span.merge s
  | .elem base index _ => base.span.merge index.span

def Expr.span : Expr → Span
  | .ref r => r.span
  | .int s _ _ => s
  | .bool s _ _ => s
  | .unary s _ operand _ => s.merge operand.span
  | .binary _ lhs rhs _ => lhs.span.merge rhs.span
  | .newObject s _ _ _ => s
  | .newArray s _ size _ => s.merge size.span
  | .call c => c.span

def Call.span : Call → Span
  | .mk method _ close _ _ => method.span.merge close

end

def Stmt.span : Stmt → Span
  | .block s _ => s
  | .decl d init => d.span.merge init.span
  | .assign lhs rhs => lhs.span.merge rhs.span
  | .call c => c.span
  | .ifThen s _ _ => s
  | .ifElse s _ _ _ => s
  | .loop s _ _ => s

namespace ClassDecl

def instanceMethods (c : ClassDecl) : List MethodDecl :=
  c.methods.filter (!·.isStatic)

end ClassDecl

namespace Package

/-- The place of a package; it has none without a file name. -/
def span? (p : Package) : Option Span :=
  if p.file = "" then none else some ⟨p.file, 0, 0, 0⟩

def class? (p : Package) (index : Nat) : Option ClassDecl :=
  p.classes[index]?

def field? (p : Package) (id : MemberId) : Option FieldDecl :=
  (p.class? id.cls).bind (·.fields[id.index]?)

def method? (p : Package) (id : MemberId) : Option MethodDecl :=
  (p.class? id.cls).bind (·.methods[id.index]?)

def qualifiedName (p : Package) (id : MemberId) : String :=
  match p.class? id.cls with
  | some c =>
    match c.methods[id.index]? with
    | some m => c.name ++ "." ++ m.name
    | none => c.name
  | none => ""

end Package

end MiniJam
