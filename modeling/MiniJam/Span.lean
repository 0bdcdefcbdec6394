import MiniJam.Word

/-!
# Places in a source

A span is a range of columns on one line of a source file.  Lines and columns count from zero, and
columns count bytes; a span that ends before it starts covers nothing.
-/

namespace MiniJam

/-- A range of columns on one line of a source file. -/
structure Span where
  file : String
  line : Int
  /-- The first column. -/
  start : Int
  /-- The last column. -/
  stop : Int
  deriving DecidableEq, Repr, Inhabited

namespace Span

/-- A span as it stands in front of a message: file, line and columns, counted from one. -/
def text (s : Span) : String :=
  let columns := if s.start < s.stop then s!"-{wrap64 (s.stop + 1)}" else ""
  s!"{s.file}:{wrap64 (s.line + 1)}:{wrap64 (s.start + 1)}" ++ columns

/-- Whether `a` starts earlier than `b`. -/
def before (a b : Span) : Bool :=
  if a.line ≠ b.line then a.line < b.line else a.start < b.start

/-- A span that covers both `a` and `b` if they lie on one line of one file; else the one that
starts on the earlier line, or `a` if the files differ. -/
def merge (a b : Span) : Span :=
  if a.file ≠ b.file then a
  else if a.line ≠ b.line then (if b.before a then b else a)
  else { a with start := min a.start b.start, stop := max a.stop b.stop }

def merge? : Option Span → Option Span → Option Span
  | none, b => b
  | a, none => a
  | some a, some b => some (a.merge b)

end Span

end MiniJam
