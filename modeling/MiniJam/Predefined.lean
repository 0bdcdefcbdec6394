import MiniJam.Tree

/-!
# Predefined classes

Every program has the classes `String`, `_PrintStream` and `System` in front of its own, so that
`System.out.println(n)` can print a number.
-/

namespace MiniJam.Predefined

def stringClass : String := "String"

def printStreamClass : String := "_PrintStream"

def systemClass : String := "System"

def printlnMethod : String := "println"

def entryMethod : String := "main"

def span (line : Int) : Span := ⟨"<predefined>", line, 0, 0⟩

def classes : List ClassDecl :=
  [⟨span 0, stringClass, [], [], true⟩,
   ⟨span 1, printStreamClass, [],
    [⟨span 1, printlnMethod, .void, false, false, [⟨span 1, "n", .int⟩], [], none⟩], true⟩,
   ⟨span 2, systemClass, [⟨span 2, "out", .cls printStreamClass, false, true⟩], [], true⟩]

/-- The package with the predefined classes in front, unless they are there already. -/
def addTo (p : Package) : Package :=
  match p.classes with
  | c :: _ => if c.predefined then p else { p with classes := classes ++ p.classes }
  | [] => { p with classes := classes }

end MiniJam.Predefined
