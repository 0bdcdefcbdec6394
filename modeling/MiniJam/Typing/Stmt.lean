import MiniJam.Typing.Expr

/-!
# Checking statements

A block, and each branch of a condition and the body of a loop, has a scope of its own.
-/

namespace MiniJam.Typing

variable (ctx : Context)

def condition (e : Expr) : Check Expr := do
  let (t, e) ← expr ctx e
  if t ≠ .error ∧ t ≠ .boolean then
    report e.span s!"Condition must be boolean, received {t.text}"
  return e

def openScope : Check Unit :=
  modifyScopes (·.modify ctx.table (·.push))

def closeScope : Check Unit :=
  modifyScopes (·.modify ctx.table fun t => t.pop?.getD t)

def refuseDecl (what : String) (s : Stmt) : Check Unit :=
  match s with
  | .decl .. => report s.span s!"Variable declaration cannot be the body of {what}"
  | _ => pure ()

mutual

def stmt (s : Stmt) : Check Stmt := do
  match s with
  | .block s body =>
    openScope ctx
    let body ← stmts body
    closeScope ctx
    return .block s body
  | .decl d init =>
    let t ← resolveVar "Variable" d.name d.span d.type
    let d := { d with type := t }
    bind ctx.table d.name .var t d.span (.var d)
    let (it, init) ← expr { ctx with declaring := some d.name } init
    expectType t it init.span
    return .decl d init
  | .assign lhs rhs =>
    let (lt, lhs) ← ref ctx lhs
    let (lt, lhs) ← useRef .target lt lhs
    let (rt, rhs) ← expr ctx rhs
    expectType lt rt rhs.span
    return .assign lhs rhs
  | .call c =>
    let (_, c) ← call ctx c
    return .call c
  | .ifThen s cond body =>
    let cond ← condition ctx cond
    refuseDecl "an if branch" body
    openScope ctx
    let body ← stmt body
    closeScope ctx
    return .ifThen s cond body
  | .ifElse s cond body other =>
    let cond ← condition ctx cond
    refuseDecl "an if branch" body
    openScope ctx
    let body ← stmt body
    closeScope ctx
    refuseDecl "an else branch" other
    openScope ctx
    let other ← stmt other
    closeScope ctx
    return .ifElse s cond body other
  | .loop s cond body =>
    let cond ← condition ctx cond
    refuseDecl "a while loop" body
    openScope ctx
    let body ← stmt body
    closeScope ctx
    return .loop s cond body

def stmts (ss : List Stmt) : Check (List Stmt) := do
  match ss with
  | [] => return []
  | s :: ss =>
    let s ← stmt s
    let ss ← stmts ss
    return s :: ss

end

end MiniJam.Typing
