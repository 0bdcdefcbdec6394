import MiniJam.Code.Basic
import MiniJam.Text.Number

/-!
# The code of expressions

The code of an expression leaves its value on top of the stack.  Arguments are pushed from the last
to the first, so that the first one lies next to the frame of the method.
-/

namespace MiniJam.Code

def isDirect : Ref → Bool
  | .id .. => true
  | .member (.this ..) .. => true
  | _ => false

def binaryPrim? : Operator → Option Prim
  | .or => some .or
  | .and => some .and
  | .eq => some .eq
  | .ne => some .ne
  | .lt => some .lt
  | .le => some .le
  | .gt => some .gt
  | .ge => some .ge
  | .plus => some .add
  | .minus => some .sub
  | .mul => some .mult
  | .div => some .div
  | .not => none

def unaryPrim : Operator → Prim
  | .not => .not
  | _ => .neg

/-- The value of the left operand with which an operator does not need its right one. -/
def decidingWord? : Operator → Option Int
  | .and => some Machine.falseWord
  | .or => some Machine.trueWord
  | _ => none

def ofInt (span : Span) (spelling : String) : Code :=
  let n := Text.natOfDigits spelling.toList
  if n ≤ maxWord then literal span.line n
  else fault span s!"strconv.ParseInt: parsing \"{spelling}\": value out of range"

/-- The code of the call itself, when the arguments are on the stack; `receiver` pushes the
instance. -/
def ofInvocation (env : Env) (span : Span) (id : MemberId) (m : MethodDecl) (receiver : Code) :
    Code :=
  if m.isStatic then callOf span.line .call id
  else if env.dynamic then
    match env.package.class? id.cls with
    | some c => receiver ++ one span.line .calld 0 .zr (Layout.methodSlot c id.index)
    | none => receiver ++ fault span
        s!"method `{env.package.qualifiedName id}' not in its class descriptor"
  else receiver ++ callOf span.line .calli id

variable (env : Env) (frame : Frame)

mutual

def ofRef (pc : Nat) (r : Ref) : Code :=
  match r with
  | .this s _ => one s.line .loada 0 .ob 0
  | .id s _ b _ =>
    env.withEntity frame s b fun e => one s.line .load e.size e.base e.addr
  | .member base s name b isLength t =>
    let span := (Ref.member base s name b isLength t).span
    let line := span.line
    let object := ofRef pc base
    if isLength then
      object ++ literal line (-Machine.headerSize) ++ prim line .sub ++ one line .loadi 1 .zr 0
    else
      env.withEntity frame span b fun e =>
        if env.isStatic b || isDirect (.member base s name b isLength t) then
          one line .load e.size e.base e.addr
        else object ++ literal line e.addr ++ prim line .fieldref
  | .elem base index t =>
    let line := (Ref.elem base index t).span.line
    let array := ofRef pc base
    array ++ ofExpr (pc + array.size) index ++ prim line .arrayref

def ofExpr (pc : Nat) (e : Expr) : Code :=
  match e with
  | .ref r => ofRef pc r
  | .int s spelling _ => ofInt s spelling
  | .bool s value _ => literal s.line (if value then Machine.trueWord else Machine.falseWord)
  | .unary s op operand _ =>
    ofExpr pc operand ++ prim (s.merge operand.span).line (unaryPrim op)
  | .binary op lhs rhs _ =>
    let span := lhs.span.merge rhs.span
    let line := span.line
    let left := ofExpr pc lhs
    let operation := match binaryPrim? op with
      | some p => prim line p
      | none => fault span s!"unexpected operator {op.text}"
    match decidingWord? op with
    | none => left ++ ofExpr (pc + left.size) rhs ++ operation
    | some word =>
      let right := ofExpr (pc + left.size + 2) rhs
      let after := pc + left.size + 2 + right.size + operation.size
      left ++ one line .load 1 .st (-1) ++ one line .jumpif word .cb after ++ right ++ operation
  | .newObject s cls bound _ =>
    match bound.bind (Layout.classEntity? env.package) with
    | some e =>
      one s.line .loada 0 e.base e.addr ++ literal s.line e.size ++ prim s.line .newobj
    | none => fault s s!"no runtime entity for class `{cls}'"
  | .newArray s _ size _ => ofExpr pc size ++ prim (s.merge size.span).line .newarr
  | .call c => ofCall pc c

def ofCall (pc : Nat) (c : Call) : Code :=
  match c with
  | .mk method args close bound _ =>
    let span := method.span.merge close
    match bound with
    | none => fault span "call of unbound method"
    | some id =>
      match env.package.method? id with
      | none => fault span "call of unbound method"
      | some m =>
        if env.package.println = some id then ofArgs pc args ++ prim span.line .putintnl
        else
          let pushed := ofArgsBackward pc args
          pushed ++ ofInvocation env span id m (ofReceiver (pc + pushed.size) span.line method)

/-- The code of the instance that a method is called on, at address `pc`. -/
def ofReceiver (pc : Nat) (line : Int) (method : Ref) : Code :=
  match method with
  | .member base s name b isLength t =>
    let object := ofRef pc base
    if isDirect (.member base s name b isLength t) then one line .loada 0 .ob 0 else object
  | _ => one line .loada 0 .ob 0

/-- The code of expressions from the first to the last, at address `pc`. -/
def ofArgs (pc : Nat) (es : List Expr) : Code :=
  match es with
  | [] => empty
  | e :: es =>
    let first := ofExpr pc e
    first ++ ofArgs (pc + first.size) es

/-- The code of expressions from the last to the first, at address `pc`. -/
def ofArgsBackward (pc : Nat) (es : List Expr) : Code :=
  match es with
  | [] => empty
  | e :: es =>
    let rest := ofArgsBackward pc es
    rest ++ ofExpr (pc + rest.size) e

end

end MiniJam.Code
