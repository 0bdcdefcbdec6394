import MiniJam.Text.Number
import MiniJam.Typing.Basic

/-!
# Checking expressions

Every name is bound to its declaration and every expression gets its type.  What is wrong is
reported once: an expression that contains it has the type `Ty.error`, about which nothing is
reported.
-/

namespace MiniJam

def Ref.withType : Ref → Ty → Ref
  | .this s _, t => .this s t
  | .id s name b _, t => .id s name b t
  | .member base s name b len _, t => .member base s name b len t
  | .elem base index _, t => .elem base index t

def Call.withType : Call → Ty → Call
  | .mk method args close b _, t => .mk method args close b t

namespace Typing

/-- How a reference is used. -/
inductive Use where
  | value
  | target
  | callee
  | base
  deriving DecidableEq, Repr

def refName : Ref → String
  | .id _ name _ _ => name
  | .member _ _ name _ _ _ => name
  | .this .. => "this"
  | .elem .. => "array element"

/-- What is wrong with using a reference to a declaration as `use` says, if anything is. -/
def misuse (use : Use) (r : Ref) : Option String :=
  match use, r.bound, r with
  | .value, some (.method _), _ | .target, some (.method _), _ =>
    some s!"Method `{refName r}' cannot be used as a value"
  | .value, some (.cls _), _ | .target, some (.cls _), _ =>
    some s!"Class `{refName r}' cannot be used as a value"
  | .callee, some (.method _), _ => none
  | .callee, _, _ => some s!"`{refName r}' is not a method"
  | .base, some (.method _), _ => some s!"Method `{refName r}' cannot be qualified"
  | .target, _, .this .. => some "Cannot assign to `this'"
  | .target, _, .member _ _ _ _ true _ => some "Cannot assign to the length of an array"
  | _, _, _ => none

/-- Checks that a reference of type `t` can be used as `use` says, and gives the type of that. -/
def useRef (use : Use) (t : Ty) (r : Ref) : Check (Ty × Ref) := do
  let r := r.withType t
  if t = .error then return (.error, r)
  match misuse use r with
  | some message =>
    report r.span message
    return (.error, r)
  | none => return (t, r)

def memberFlags (p : Package) : Binding → Bool × Bool
  | .field id => match p.field? id with
    | some f => (f.isPrivate, f.isStatic)
    | none => (false, false)
  | .method id => match p.method? id with
    | some m => (m.isPrivate, m.isStatic)
    | none => (false, false)
  | _ => (false, false)

def isInstanceMember (p : Package) : Binding → Bool
  | .field id => match p.field? id with
    | some f => !f.isStatic
    | none => false
  | .method id => match p.method? id with
    | some m => !m.isStatic
    | none => false
  | _ => false

def identifier (ctx : Context) (span : Span) (name : String) (b : Option Binding) (t : Ty) :
    Check (Ty × Ref) := do
  if ctx.declaring = some name then
    report span s!"Variable `{name}' cannot be used in its own initialiser"
    return (.error, .id span name b t)
  match (← get).scopes.find? ctx.table name with
  | none =>
    report span s!"Identifier `{name}' not declared."
    return (.error, .id span name b t)
  | some sym =>
    modifyScopes (·.use ctx.table name)
    let r : Ref := .id span name (some sym.decl) t
    if ctx.isStatic && isInstanceMember ctx.package sym.decl then
      report span
        s!"Cannot access instance member `{name}' in static method `{ctx.methodName}'"
      return (.error, r)
    return (sym.type, r)

/-- Checks a member of the class at a position; `ofClass` tells whether the class itself is named in
front of the member. -/
def member (ctx : Context) (cls : Nat) (ofClass : Bool) (span : Span) (name : String) :
    Check (Ty × Option Binding) := do
  let className := match ctx.package.class? cls with
    | some c => c.name
    | none => ""
  match ((← get).scopes.table? (memberTable cls)).bind (·.findLocal? name) with
  | none =>
    report span s!"Class `{className}' has no member `{name}'"
    return (.error, none)
  | some sym =>
    modifyScopes (·.use (memberTable cls) name)
    let (isPrivate, isStatic) := memberFlags ctx.package sym.decl
    if ofClass && !isStatic then
      report span s!"Cannot access instance member `{name}' through class `{className}'"
      return (.error, some sym.decl)
    if isPrivate && cls != ctx.cls then
      report span s!"Cannot access private member `{name}' of class `{className}'"
      return (.error, some sym.decl)
    return (sym.type, some sym.decl)

def operand (op : Operator) (span : Span) (want got : Ty) : Check Unit := do
  if got ≠ .error ∧ want ≠ got then
    report span s!"Operator {op.text} requires {want.text} operands, received {got.text}"

/-- Checks the operands of an operator with two of them, and gives the type of the result. -/
def operation (op : Operator) (span : Span) (lt rt : Ty) : Check Ty := do
  match op with
  | .eq | .ne =>
    if lt ≠ .error ∧ rt ≠ .error ∧ lt ≠ rt then
      report span
        s!"Operands of {op.text} must have the same type, received {lt.text} and {rt.text}"
    return .boolean
  | .and | .or =>
    operand op span .boolean lt
    operand op span .boolean rt
    return .boolean
  | .lt | .le | .gt | .ge =>
    operand op span .int lt
    operand op span .int rt
    return .boolean
  | .plus | .minus | .mul | .div | .not =>
    operand op span .int lt
    operand op span .int rt
    return .int

def unaryType : Operator → Ty
  | .not => .boolean
  | _ => .int

def fitsWord (spelling : String) : Bool :=
  Text.natOfDigits spelling.toList ≤ maxWord

/-- Checks the arguments of a call against the parameters of the method `name`. -/
def arguments (name : String) : List ParamDecl → List (Ty × Expr) → Check Unit
  | p :: ps, (t, e) :: args => do
    if p.type ≠ .error ∧ t ≠ .error ∧ p.type ≠ t then
      report e.span
        s!"Argument `{p.name}' of method `{name}' must be {p.type.text}, received {t.text}"
    arguments name ps args
  | _, _ => pure ()

/-- Checks a call of a method of type `t`, after its method and its arguments. -/
def finishCall (ctx : Context) (t : Ty) (method : Ref) (args : List (Ty × Expr)) (close : Span)
    (b : Option MemberId) : Check (Ty × Call) := do
  let exprs := args.map (·.2)
  match method.bound with
  | some (.method id) =>
    match ctx.package.method? id with
    | some md =>
      let c : Call := .mk method exprs close (some id) md.type
      if args.length ≠ md.params.length then
        report (method.span.merge close)
          s!"Method `{md.name}' expects {md.params.length} arguments, received {args.length}"
      else
        arguments md.name md.params args
      return (t, c)
    | none => return (.error, .mk method exprs close b .error)
  | _ => return (.error, .mk method exprs close b .error)

variable (ctx : Context)

mutual

def ref (r : Ref) : Check (Ty × Ref) := do
  match r with
  | .this s t =>
    if ctx.isStatic then
      report s s!"`this' cannot be used in static method `{ctx.methodName}'"
      return (.error, .this s t)
    return (.cls ctx.className, .this s t)
  | .id s name b t => identifier ctx s name b t
  | .member base s name b len t =>
    let (bt, base) ← ref base
    let (bt, base) ← useRef .base bt base
    match bt with
    | .error => return (.error, .member base s name b len t)
    | .array _ =>
      if name ≠ "length" then
        report s s!"Arrays have no member `{name}'"
        return (.error, .member base s name b len t)
      return (.int, .member base s name b true t)
    | .cls className =>
      match ← findClass className with
      | none =>
        report base.span s!"Undeclared type `{className}'"
        return (.error, .member base s name b len t)
      | some index =>
        let ofClass := match base.bound with
          | some (.cls _) => true
          | _ => false
        let (mt, found) ← member ctx index ofClass s name
        return (mt, .member base s name (found.or b) len t)
    | bt =>
      report (base.span.merge s)
        s!"Cannot select member `{name}' of a value of type {bt.text}"
      return (.error, .member base s name b len t)
  | .elem base index t =>
    let (bt, base) ← ref base
    let (bt, base) ← useRef .value bt base
    let (it, index) ← expr index
    if it ≠ .error ∧ it ≠ .int then
      report index.span s!"Array index must be int, received {it.text}"
    match bt with
    | .error => return (.error, .elem base index t)
    | .array elem => return (elem, .elem base index t)
    | bt =>
      report base.span s!"Cannot index a value of type {bt.text}"
      return (.error, .elem base index t)

def expr (e : Expr) : Check (Ty × Expr) := do
  match e with
  | .ref r =>
    let (t, r) ← ref r
    let (t, r) ← useRef .value t r
    return (t, .ref (r.withType t))
  | .int s spelling _ =>
    if !fitsWord spelling then
      report s s!"Integer literal {spelling} out of range"
    return (.int, .int s spelling .int)
  | .bool s value _ => return (.boolean, .bool s value .boolean)
  | .unary s op operand _ =>
    let (t, operand) ← expr operand
    let want := unaryType op
    if t ≠ .error ∧ want ≠ t then
      report (s.merge operand.span)
        s!"Operator {op.text} requires {want.text}, received {t.text}"
    return (want, .unary s op operand want)
  | .binary op lhs rhs _ =>
    let (lt, lhs) ← expr lhs
    let (rt, rhs) ← expr rhs
    let t ← operation op (lhs.span.merge rhs.span) lt rt
    return (t, .binary op lhs rhs t)
  | .newObject s cls _ _ =>
    match ← findClass cls with
    | none =>
      report s s!"Undeclared type `{cls}'"
      return (.error, .newObject s cls none .error)
    | some index => return (.cls cls, .newObject s cls (some index) (.cls cls))
  | .newArray s elem size _ =>
    let span := s.merge size.span
    let found ← resolve span elem
    let (st, size) ← expr size
    if st ≠ .error ∧ st ≠ .int then
      report size.span s!"Array size must be int, received {st.text}"
    let t := if found = .error then .error else .array found
    return (t, .newArray s elem size t)
  | .call c =>
    let (t, c) ← call c
    return (t, .call (c.withType t))

def exprs (es : List Expr) : Check (List (Ty × Expr)) := do
  match es with
  | [] => return []
  | e :: es =>
    let te ← expr e
    let tes ← exprs es
    return te :: tes

def call (c : Call) : Check (Ty × Call) := do
  match c with
  | .mk method args close b _ =>
    let (t, method) ← ref method
    let (t, method) ← useRef .callee t method
    let args ← exprs args
    finishCall ctx t method args close b

end

end Typing

end MiniJam
