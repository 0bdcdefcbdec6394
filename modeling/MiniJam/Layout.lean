import MiniJam.Instr
import MiniJam.Machine.Convention
import MiniJam.Total
import MiniJam.Tree

/-!
# Layout

Where the declarations of a package live when it runs.  Static fields lie at the bottom of the
stack in the order of their declarations, and the class descriptors follow them.  The fields of an
instance lie one after another in its heap block.  Parameters lie below the frame of their method
and local variables above its link words.
-/

namespace MiniJam

/-- The place of a declaration at run time: so many words at a distance from a register. -/
structure Entity where
  /-- The number of words; for a class that of an instance, for a method that of its result. -/
  size : Nat
  addr : Int
  base : Reg
  /-- The address of the jump around the code of a class. -/
  jump : Option Nat
  /-- The number of the entity of the class that an instance field or a method belongs to. -/
  parent : Option Nat
  deriving DecidableEq, Repr

def Entity.text (e : Entity) : String :=
  s!"\x7bsize {e.size}, {e.addr}[{e.base.name}]\x7d"

namespace Layout

def wordsOf (fields : List FieldDecl) : Nat := total (fields.map (·.type.size))

def staticWords (c : ClassDecl) : Nat := wordsOf (c.fields.filter (·.isStatic))

def instanceWords (c : ClassDecl) : Nat := wordsOf (c.fields.filter (!·.isStatic))

def descriptorWords (c : ClassDecl) : Nat :=
  Machine.descriptorMethods.toNat + c.instanceMethods.length

def staticSize (p : Package) : Nat := total (p.classes.map staticWords)

def descriptorAddr (p : Package) (cls : Nat) : Nat :=
  staticSize p + total ((p.classes.take cls).map descriptorWords)

/-- The entities of a class are numbered from the class itself: its instance fields and its methods
follow it. -/
def entityCount (c : ClassDecl) : Nat :=
  1 + (c.fields.filter (!·.isStatic)).length + c.methods.length

def entityNumber (p : Package) (cls : Nat) : Nat :=
  total ((p.classes.take cls).map entityCount)

def classEntity? (p : Package) (cls : Nat) : Option Entity :=
  (p.class? cls).map fun c => ⟨instanceWords c, descriptorAddr p cls, .sb, none, none⟩

def fieldEntity? (p : Package) (id : MemberId) : Option Entity := do
  let c ← p.class? id.cls
  let f ← c.fields[id.index]?
  let before := (c.fields.take id.index).filter (·.isStatic == f.isStatic)
  if f.isStatic then
    let addr := total ((p.classes.take id.cls).map staticWords) + wordsOf before
    return ⟨f.type.size, addr, .sb, none, none⟩
  else
    return ⟨f.type.size, wordsOf before, .ob, none, some (entityNumber p id.cls)⟩

def methodEntity (m : MethodDecl) (cls : Nat) (p : Package) (addr : Int) : Entity :=
  ⟨m.type.size, addr, .cb, none, some (entityNumber p cls)⟩

def paramEntity (d : ParamDecl) (index : Nat) : Entity :=
  ⟨d.type.size, -(index + 1), .lb, none, none⟩

def localEntity (d : LocalDecl) (offset : Nat) : Entity :=
  ⟨d.type.size, offset, .lb, none, none⟩

def methodSlot (c : ClassDecl) (index : Nat) : Nat :=
  ((c.methods.take index).filter (!·.isStatic)).length

def paramWords (m : MethodDecl) : Nat := total (m.params.map (·.type.size))

end Layout

end MiniJam
