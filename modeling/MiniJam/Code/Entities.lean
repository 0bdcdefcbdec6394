import MiniJam.Code.Package
import MiniJam.Tree.Print

/-!
# The entities of a package

The declarations of a package in the order of a walk, each with its entity.  Before the package is
laid out there are no entities.
-/

namespace MiniJam

mutual

def Stmt.locals : Stmt → List LocalDecl
  | .block _ body => localsOf body
  | .decl d _ => [d]
  | .assign .. | .call .. => []
  | .ifThen _ _ body => body.locals
  | .ifElse _ _ body other => body.locals ++ other.locals
  | .loop _ _ body => body.locals

def Stmt.localsOf : List Stmt → List LocalDecl
  | [] => []
  | s :: ss => s.locals ++ localsOf ss

end

/-- A declaration with its entity. -/
structure Placement where
  kind : Tree.NodeKind
  name : String
  type : Ty
  entity : Option Entity

/-- The declarations of a package, with their entities if it has been laid out. -/
def Package.placements (p : Package) (a : Option Assembly) : List Placement :=
  let laidOut {α : Type} (e : Option α) : Option α := a.bind fun _ => e
  p.classes.zipIdx.flatMap fun (c, cls) =>
    let part := a.bind (·.parts[cls]?)
    let classEntity := (laidOut (Layout.classEntity? p cls)).map fun e =>
      { e with jump := part.map (·.start) }
    let fields := c.fields.zipIdx.map fun (f, i) =>
      (⟨.fieldDecl, f.name, f.type, laidOut (Layout.fieldEntity? p ⟨cls, i⟩)⟩ : Placement)
    let methods := c.methods.zipIdx.flatMap fun (m, i) =>
      let body := part.bind (·.bodies[i]?)
      let params := m.params.zipIdx.map fun (d, k) =>
        (⟨.paramDecl, d.name, d.type, laidOut (some (Layout.paramEntity d k))⟩ : Placement)
      let locals := (Stmt.localsOf m.body).map fun d =>
        let offset := body.bind (·.frame.find? d)
        (⟨.localDecl, d.name, d.type, offset.map (Layout.localEntity d)⟩ : Placement)
      ⟨.methodDecl, m.name, m.type, body.map fun b => Layout.methodEntity m cls p b.addr⟩
        :: params ++ locals
    ⟨.classDecl, c.name, .cls c.name, classEntity⟩ :: fields ++ methods

end MiniJam
