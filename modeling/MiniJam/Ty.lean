/-!
# Types

The types of a program, and the type `error` of what could not be resolved.  Equality of types is
equality of their structure; classes are told apart by name.
-/

namespace MiniJam

/-- A type. -/
inductive Ty where
  | void
  | int
  | boolean
  | cls (name : String)
  | array (elem : Ty)
  | error
  deriving DecidableEq, Repr, Inhabited

namespace Ty

def text : Ty → String
  | void => "void"
  | int => "int"
  | boolean => "boolean"
  | cls name => name
  | array elem => elem.text ++ "[]"
  | error => "Error"

def size : Ty → Nat
  | void | error => 0
  | int | boolean | cls _ | array _ => 1

def class? : Ty → Option String
  | cls name => some name
  | _ => none

def elem? : Ty → Option Ty
  | array elem => some elem
  | _ => none

def kindCode : Ty → Int
  | void => 0
  | int => 1
  | boolean => 2
  | cls _ => 3
  | array _ => 4
  | error => 5

def kindName? (code : Int) : Option String :=
  if code < 0 then none else #["void", "int", "boolean", "class", "array", "error"][code.toNat]?

end Ty

end MiniJam
