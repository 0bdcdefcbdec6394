import MiniJam.Code.Expr
import MiniJam.Tree.Print

/-!
# The code of statements

The value of a local variable stays on the stack where its first value was pushed.  The end of a
block pops the variables that it declared.
-/

namespace MiniJam.Code

def ofAssign (env : Env) (frame : Frame) (pc : Nat) (lhs : Ref) (rhs : Expr) : Code :=
  let span := lhs.span.merge rhs.span
  let line := span.line
  let store (b : Option Binding) : Code :=
    env.withEntity frame lhs.span b fun e =>
      ofExpr env frame pc rhs ++ one line .store e.size e.base e.addr
  match lhs with
  | .id _ _ b _ => store b
  | .member base _ _ b _ _ =>
    if env.isStatic b || isDirect lhs then store b
    else env.withEntity frame lhs.span b fun e =>
      let object := ofRef env frame pc base ++ literal line e.addr
      object ++ ofExpr env frame (pc + object.size) rhs ++ prim line .fieldupd
  | .elem base index _ =>
    let array := ofRef env frame pc base
    let element := array ++ ofExpr env frame (pc + array.size) index
    element ++ ofExpr env frame (pc + element.size) rhs ++ prim line .arrayupd
  | .this .. => fault span s!"cannot assign to {(Tree.Ref.kind lhs).name}"

def popWords (line : Int) (n : Nat) : Code :=
  if n = 0 then empty else one line .pop 0 .zr n

variable (env : Env)

mutual

def ofStmt (frame : Frame) (pc : Nat) (s : Stmt) : Code × Frame :=
  match s with
  | .block span body =>
    let (code, after) := ofStmts frame pc body
    (code ++ popWords span.line (after.offset - frame.offset), { after with offset := frame.offset })
  | .decl d init =>
    let frame := frame.declare d
    (ofExpr env frame pc init, frame)
  | .assign lhs rhs => (ofAssign env frame pc lhs rhs, frame)
  | .call c => (ofCall env frame pc c ++ popWords c.span.line c.type.size, frame)
  | .ifThen span cond body =>
    let test := ofExpr env frame pc cond
    let (code, after) := ofStmt frame (pc + test.size + 1) body
    let exit := pc + test.size + 1 + code.size
    (test ++ one span.line .jumpif Machine.falseWord .cb exit ++ code, after)
  | .ifElse span cond body other =>
    let test := ofExpr env frame pc cond
    let (code, middle) := ofStmt frame (pc + test.size + 1) body
    let start := pc + test.size + 1 + code.size + 1
    let (alternative, after) := ofStmt middle start other
    (test ++ one span.line .jumpif Machine.falseWord .cb start ++ code
      ++ one span.line .jump 0 .cb (start + alternative.size) ++ alternative, after)
  | .loop span cond body =>
    let test := ofExpr env frame pc cond
    let (code, after) := ofStmt frame (pc + test.size + 1) body
    let exit := pc + test.size + 1 + code.size + 1
    (test ++ one span.line .jumpif Machine.falseWord .cb exit ++ code
      ++ one span.line .jump 0 .cb pc, after)

/-- The code of statements at address `pc`, and the frame after them. -/
def ofStmts (frame : Frame) (pc : Nat) (ss : List Stmt) : Code × Frame :=
  match ss with
  | [] => (empty, frame)
  | s :: ss =>
    let (code, frame) := ofStmt frame pc s
    let (rest, frame) := ofStmts frame (pc + code.size) ss
    (code ++ rest, frame)

end

def ofMethod (frame : Frame) (pc : Nat) (m : MethodDecl) : Code × Frame :=
  let (body, frame) := ofStmts env frame pc m.body
  let (result, words) := match m.result with
    | some e => (ofExpr env frame (pc + body.size) e, m.type.size)
    | none => (empty, 0)
  (body ++ result ++ one m.span.line .ret words .zr (Layout.paramWords m), frame)

end MiniJam.Code
