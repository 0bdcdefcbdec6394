import MiniJam.Span

/-!
# Diagnostics

A diagnostic is a message about a place in a source, or about the program as a whole.
-/

namespace MiniJam

/-- A message about a program. -/
structure Diagnostic where
  /-- The place the message is about, if it is not the whole program. -/
  span : Option Span
  message : String
  deriving DecidableEq, Repr

namespace Diagnostic

def text (d : Diagnostic) : String :=
  match d.span with
  | some s => s.text ++ ": " ++ d.message
  | none => d.message

/-- Whether `b` need not come before `a` when diagnostics are put in the order of their places; those
without a place come last. -/
def inOrder (a b : Diagnostic) : Bool :=
  match a.span, b.span with
  | _, none => true
  | none, some _ => false
  | some s, some t => !t.before s

/-- Diagnostics in the order of their places; those of one place keep their order. -/
def sort (ds : List Diagnostic) : List Diagnostic :=
  ds.mergeSort inOrder

def textOf (ds : List Diagnostic) : String :=
  match ds with
  | [] => "no errors"
  | ds => "\n".intercalate (ds.map text)

end Diagnostic

end MiniJam
