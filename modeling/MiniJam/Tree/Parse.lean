import MiniJam.Diagnostic
import MiniJam.Token.Scan
import MiniJam.Tree

/-!
# Reading packages

`Package.ofTokens` reads a package from its tokens.  Every function here reads from the front of a
list of tokens and gives what it read together with the rest of the list, which is shorter; the
first token that does not fit is reported, and nothing is read after it.
-/

namespace MiniJam

namespace Tree.Parse

/-- What was read from the front of a list of tokens: fewer than `n` tokens are left. -/
structure Reading (α : Type) (n : Nat) where
  value : α
  rest : List Token
  lt : rest.length < n

abbrev Attempt (α : Type) (n : Nat) := Except Diagnostic (Reading α n)

def expected : Kind → String
  | .id => "identifier"
  | .num => "number"
  | .eof => "end of file"
  | k => match k.spelling? with
    | some s => "`" ++ s ++ "'"
    | none => k.name

def describe (t : Token) : String :=
  match t.kind with
  | .eof => "end of file"
  | .id | .num => t.kind.name ++ " `" ++ t.spelling ++ "'"
  | _ => "`" ++ t.spelling ++ "'"

section

variable (eof : Token)

/-- The first token, which is the end of the source if there is no other. -/
def current (ts : List Token) : Token := ts.headD eof

def kindAt (ts : List Token) : Kind := (current eof ts).kind

/-- Reports that the first token does not fit.  An invalid token has its own message. -/
def refuse {α : Type} (ts : List Token) (message : Token → String) : Except Diagnostic α :=
  let t := current eof ts
  .error ⟨t.span, if t.kind = .invalid then t.spelling else message t⟩

/-- The message that something else was expected than the token `t`. -/
def expecting (what : String) (t : Token) : String :=
  s!"syntax error: expecting {what}, found {describe t}"

def accept? (k : Kind) : (ts : List Token) → Option (Reading Token ts.length)
  | [] => none
  | t :: rest => if t.kind = k then some ⟨t, rest, by simp⟩ else none

def expect (k : Kind) (ts : List Token) : Attempt Token ts.length :=
  match accept? k ts with
  | some r => .ok r
  | none => refuse eof ts (expecting (expected k))

/-- Reads one token of a kind, if it comes first, and nothing else. -/
def optional (k : Kind) (ts : List Token) : Reading Bool (ts.length + 1) :=
  match accept? k ts with
  | some r => ⟨true, r.rest, Nat.lt_succ_of_lt r.lt⟩
  | none => ⟨false, ts, Nat.lt_succ_self _⟩

/-- Reads the brackets of an array type, if they come first. -/
def brackets (elem : Ty) (ts : List Token) : Attempt Ty (ts.length + 1) :=
  match accept? .lsquare ts with
  | none => .ok ⟨elem, ts, Nat.lt_succ_self _⟩
  | some ⟨_, ts1, h1⟩ => do
    let ⟨_, ts2, h2⟩ ← expect eof .rsquare ts1
    return ⟨.array elem, ts2, by omega⟩

def type (ts : List Token) : Attempt Ty ts.length :=
  match ts with
  | [] => refuse eof [] (expecting "type")
  | t :: rest =>
    match t.kind with
    | .kwBoolean => .ok ⟨.boolean, rest, by simp⟩
    | .kwInt => do
      let ⟨t, rest, h⟩ ← brackets eof .int rest
      return ⟨t, rest, by simpa using h⟩
    | .id => do
      let ⟨t, rest, h⟩ ← brackets eof (.cls t.spelling) rest
      return ⟨t, rest, by simpa using h⟩
    | _ => refuse eof (t :: rest) (expecting "type")

def levels : Nat := 6

def operator? : (level : Nat) → Kind → Option Operator
  | 0, .mul => some .mul
  | 0, .div => some .div
  | 1, .plus => some .plus
  | 1, .minus => some .minus
  | 2, .lt => some .lt
  | 2, .le => some .le
  | 2, .gt => some .gt
  | 2, .ge => some .ge
  | 3, .eq => some .eq
  | 3, .ne => some .ne
  | 4, .and => some .and
  | 5, .or => some .or
  | _, _ => none

mutual

def expr (ts : List Token) : Attempt Expr ts.length :=
  binary levels ts
termination_by (ts.length, levels + 5)

/-- Reads an expression of operators of the `n` tightest levels. -/
def binary (n : Nat) (ts : List Token) : Attempt Expr ts.length :=
  match n with
  | 0 => unary ts
  | level + 1 => do
    let ⟨lhs, ts1, h1⟩ ← binary level ts
    let ⟨e, ts2, h2⟩ ← operations level lhs ts1
    return ⟨e, ts2, by omega⟩
termination_by (ts.length, n + 4)

/-- Reads operators of a level and their right operands, after the left operand. -/
def operations (level : Nat) (lhs : Expr) (ts : List Token) : Attempt Expr (ts.length + 1) :=
  match ts with
  | [] => .ok ⟨lhs, [], by simp⟩
  | t :: ts1 =>
    match operator? level t.kind with
    | none => .ok ⟨lhs, t :: ts1, by simp⟩
    | some op => do
      let ⟨rhs, ts2, h2⟩ ← binary level ts1
      let ⟨e, ts3, h3⟩ ← operations level (.binary op lhs rhs .error) ts2
      return ⟨e, ts3, by simp; omega⟩
termination_by (ts.length, 0)

def unary (ts : List Token) : Attempt Expr ts.length :=
  match ts with
  | [] => primary []
  | t :: ts1 =>
    match t.kind with
    | .not => do
      let ⟨e, ts2, h2⟩ ← unary ts1
      return ⟨.unary t.span .not e .error, ts2, by simp; omega⟩
    | .minus => do
      let ⟨e, ts2, h2⟩ ← unary ts1
      return ⟨.unary t.span .minus e .error, ts2, by simp; omega⟩
    | _ => primary (t :: ts1)
termination_by (ts.length, 3)

def primary (ts : List Token) : Attempt Expr ts.length :=
  match ts with
  | [] => refuse eof [] (expecting "expression")
  | t :: ts1 =>
    match t.kind with
    | .num => .ok ⟨.int t.span t.spelling .error, ts1, by simp⟩
    | .kwTrue => .ok ⟨.bool t.span true .error, ts1, by simp⟩
    | .kwFalse => .ok ⟨.bool t.span false .error, ts1, by simp⟩
    | .lparen => do
      let ⟨e, ts2, h2⟩ ← expr ts1
      let ⟨_, ts3, h3⟩ ← expect eof .rparen ts2
      return ⟨e, ts3, by simp; omega⟩
    | .kwNew => do
      let ⟨e, ts2, h2⟩ ← newExpr t.span ts1
      return ⟨e, ts2, by simp; omega⟩
    | .id | .kwThis => do
      let ⟨r, ts2, h2⟩ ← reference (t :: ts1)
      if kindAt eof ts2 = .lparen then
        let ⟨c, ts3, h3⟩ ← call r ts2
        return ⟨.call c, ts3, by omega⟩
      return ⟨.ref r, ts2, h2⟩
    | _ => refuse eof (t :: ts1) (expecting "expression")
termination_by (ts.length, 2)

/-- Reads what follows `new` at the place `start`. -/
def newExpr (start : Span) (ts : List Token) : Attempt Expr ts.length :=
  match ts with
  | [] => refuse eof [] (expecting "class name or int after new")
  | t :: ts1 =>
    match t.kind with
    | .kwInt => do
      let ⟨e, ts2, h2⟩ ← arraySize start .int ts1
      return ⟨e, ts2, by simp; omega⟩
    | .id =>
      match accept? .lparen ts1 with
      | some ⟨_, ts2, h2⟩ => do
        let ⟨close, ts3, h3⟩ ← expect eof .rparen ts2
        return ⟨.newObject (start.merge close.span) t.spelling none .error, ts3, by simp; omega⟩
      | none => do
        let ⟨e, ts2, h2⟩ ← arraySize start (.cls t.spelling) ts1
        return ⟨e, ts2, by simp; omega⟩
    | _ => refuse eof (t :: ts1) (expecting "class name or int after new")
termination_by (ts.length, 1)

def arraySize (start : Span) (elem : Ty) (ts : List Token) : Attempt Expr ts.length := do
  let ⟨_, ts1, h1⟩ ← expect eof .lsquare ts
  let ⟨size, ts2, h2⟩ ← expr ts1
  let ⟨_, ts3, h3⟩ ← expect eof .rsquare ts2
  return ⟨.newArray start elem size .error, ts3, by omega⟩
termination_by (ts.length, 0)

def reference (ts : List Token) : Attempt Ref ts.length :=
  match ts with
  | [] => refuse eof [] (expecting "reference")
  | t :: ts1 =>
    match t.kind with
    | .kwThis => do
      let ⟨r, ts2, h2⟩ ← index (.this t.span .error) ts1
      let ⟨r, ts3, h3⟩ ← members r ts2
      return ⟨r, ts3, by simp; omega⟩
    | .id => do
      let ⟨r, ts2, h2⟩ ← index (.id t.span t.spelling none .error) ts1
      let ⟨r, ts3, h3⟩ ← members r ts2
      return ⟨r, ts3, by simp; omega⟩
    | _ => refuse eof (t :: ts1) (expecting "reference")
termination_by (ts.length, 1)

/-- Reads an index after a reference, if there is one. -/
def index (base : Ref) (ts : List Token) : Attempt Ref (ts.length + 1) :=
  match accept? .lsquare ts with
  | none => .ok ⟨base, ts, by omega⟩
  | some ⟨_, ts1, h1⟩ => do
    let ⟨e, ts2, h2⟩ ← expr ts1
    let ⟨_, ts3, h3⟩ ← expect eof .rsquare ts2
    return ⟨.elem base e .error, ts3, by omega⟩
termination_by (ts.length, 0)

def members (base : Ref) (ts : List Token) : Attempt Ref (ts.length + 1) :=
  match accept? .dot ts with
  | none => .ok ⟨base, ts, by omega⟩
  | some ⟨_, ts1, h1⟩ => do
    let ⟨name, ts2, h2⟩ ← expect eof .id ts1
    let ⟨r, ts3, h3⟩ ← index (.member base name.span name.spelling none false .error) ts2
    let ⟨r, ts4, h4⟩ ← members r ts3
    return ⟨r, ts4, by omega⟩
termination_by (ts.length, 0)

def call (method : Ref) (ts : List Token) : Attempt Call ts.length := do
  let ⟨_, ts1, h1⟩ ← expect eof .lparen ts
  match accept? .rparen ts1 with
  | some ⟨close, ts2, h2⟩ =>
    return ⟨.mk method [] close.span none .error, ts2, by omega⟩
  | none =>
    let ⟨args, ts2, h2⟩ ← arguments ts1
    let ⟨close, ts3, h3⟩ ← expect eof .rparen ts2
    return ⟨.mk method args close.span none .error, ts3, by omega⟩
termination_by (ts.length, 0)

def arguments (ts : List Token) : Attempt (List Expr) ts.length := do
  let ⟨e, ts1, h1⟩ ← expr ts
  match accept? .comma ts1 with
  | none => return ⟨[e], ts1, h1⟩
  | some ⟨_, ts2, h2⟩ =>
    let ⟨es, ts3, h3⟩ ← arguments ts2
    return ⟨e :: es, ts3, by omega⟩
termination_by (ts.length, levels + 6)

end

/-- Whether a statement starts with a type: a basic type, `C x` or `C[] x`. -/
def startsDecl : List Token → Bool
  | t :: ts =>
    match t.kind with
    | .kwInt | .kwBoolean => true
    | .id =>
      match kindAt eof ts with
      | .id => true
      | .lsquare => kindAt eof ts.tail = .rsquare
      | _ => false
    | _ => false
  | [] => false

/-- What is said of a `return` that is not at the end of a method. -/
def misplacedReturn : String :=
  "syntax error: return must be the last statement of a method"

def condition (ts : List Token) : Attempt Expr ts.length := do
  let ⟨_, ts1, h1⟩ ← expect eof .lparen ts
  let ⟨e, ts2, h2⟩ ← expr eof ts1
  let ⟨_, ts3, h3⟩ ← expect eof .rparen ts2
  return ⟨e, ts3, by omega⟩

def simple (ts : List Token) : Attempt Stmt ts.length := do
  if startsDecl eof ts then
    let ⟨t, ts1, h1⟩ ← type eof ts
    let ⟨name, ts2, h2⟩ ← expect eof .id ts1
    let ⟨_, ts3, h3⟩ ← expect eof .assign ts2
    let ⟨e, ts4, h4⟩ ← expr eof ts3
    let ⟨_, ts5, h5⟩ ← expect eof .semicolon ts4
    return ⟨.decl ⟨name.span, name.spelling, t⟩ e, ts5, by omega⟩
  let ⟨r, ts1, h1⟩ ← reference eof ts
  match accept? .assign ts1 with
  | some ⟨_, ts2, h2⟩ =>
    let ⟨e, ts3, h3⟩ ← expr eof ts2
    let ⟨_, ts4, h4⟩ ← expect eof .semicolon ts3
    return ⟨.assign r e, ts4, by omega⟩
  | none =>
    if kindAt eof ts1 = .lparen then
      let ⟨c, ts2, h2⟩ ← call eof r ts1
      let ⟨_, ts3, h3⟩ ← expect eof .semicolon ts2
      return ⟨.call c, ts3, by omega⟩
    refuse eof ts1 (expecting "`=' or `('")

mutual

def stmt (ts : List Token) : Attempt Stmt ts.length :=
  match ts with
  | [] => simple eof []
  | t :: ts1 =>
    match t.kind with
    | .lcurly => do
      let ⟨body, ts2, h2⟩ ← stmts false ts1
      let ⟨_, ts3, h3⟩ ← expect eof .rcurly ts2
      return ⟨.block t.span body, ts3, by simp; omega⟩
    | .kwIf => do
      let ⟨cond, ts2, h2⟩ ← condition eof ts1
      let ⟨body, ts3, h3⟩ ← stmt ts2
      match accept? .kwElse ts3 with
      | none => return ⟨.ifThen t.span cond body, ts3, by simp; omega⟩
      | some ⟨_, ts4, h4⟩ =>
        let ⟨other, ts5, h5⟩ ← stmt ts4
        return ⟨.ifElse t.span cond body other, ts5, by simp; omega⟩
    | .kwWhile => do
      let ⟨cond, ts2, h2⟩ ← condition eof ts1
      let ⟨body, ts3, h3⟩ ← stmt ts2
      return ⟨.loop t.span cond body, ts3, by simp; omega⟩
    | .kwReturn => refuse eof (t :: ts1) fun _ => misplacedReturn
    | _ => simple eof (t :: ts1)
termination_by (ts.length, 0)

/-- Reads statements up to a closing brace, or, at the end of a method, up to `return`. -/
def stmts (method : Bool) (ts : List Token) : Attempt (List Stmt) (ts.length + 1) :=
  if kindAt eof ts = .rcurly ∨ (method ∧ kindAt eof ts = .kwReturn) then
    .ok ⟨[], ts, by omega⟩
  else do
    let ⟨s, ts1, h1⟩ ← stmt ts
    let ⟨ss, ts2, h2⟩ ← stmts method ts1
    return ⟨s :: ss, ts2, by omega⟩
termination_by (ts.length, 1)

end

def params (ts : List Token) : Attempt (List ParamDecl) ts.length := do
  let ⟨t, ts1, h1⟩ ← type eof ts
  let ⟨name, ts2, h2⟩ ← expect eof .id ts1
  let p : ParamDecl := ⟨name.span, name.spelling, t⟩
  match accept? .comma ts2 with
  | none => return ⟨[p], ts2, by omega⟩
  | some ⟨_, ts3, h3⟩ =>
    let ⟨ps, ts4, h4⟩ ← params ts3
    return ⟨p :: ps, ts4, by omega⟩
termination_by ts.length

/-- Reads the result of a method, if there is one, up to its closing brace. -/
def result (ts : List Token) : Attempt (Option Expr) (ts.length + 1) :=
  match accept? .kwReturn ts with
  | none => .ok ⟨none, ts, by omega⟩
  | some ⟨_, ts1, h1⟩ => do
    let ⟨e, ts2, h2⟩ ← (match accept? .semicolon ts1 with
      | some ⟨_, ts2, h2⟩ => pure ⟨none, ts2, by omega⟩
      | none => do
        let ⟨e, ts2, h2⟩ ← expr eof ts1
        let ⟨_, ts3, h3⟩ ← expect eof .semicolon ts2
        pure ⟨some e, ts3, by omega⟩ : Attempt (Option Expr) ts1.length)
    if kindAt eof ts2 = .rcurly then return ⟨e, ts2, by omega⟩
    refuse eof ts2 fun _ => misplacedReturn

/-- A field or a method. -/
inductive Member where
  | field (f : FieldDecl)
  | method (m : MethodDecl)

def method (isPrivate isStatic : Bool) (t : Ty) (name : Token) (ts : List Token) :
    Attempt Member ts.length := do
  let ⟨_, ts1, h1⟩ ← expect eof .lparen ts
  let ⟨ps, ts2, h2⟩ ← (match accept? .rparen ts1 with
    | some ⟨_, ts2, h2⟩ => pure ⟨[], ts2, h2⟩
    | none => do
      let ⟨ps, ts2, h2⟩ ← params eof ts1
      let ⟨_, ts3, h3⟩ ← expect eof .rparen ts2
      pure ⟨ps, ts3, by omega⟩ : Attempt (List ParamDecl) ts1.length)
  let ⟨_, ts3, h3⟩ ← expect eof .lcurly ts2
  let ⟨body, ts4, h4⟩ ← stmts eof true ts3
  let ⟨e, ts5, h5⟩ ← result eof ts4
  let ⟨_, ts6, h6⟩ ← expect eof .rcurly ts5
  return ⟨.method ⟨name.span, name.spelling, t, isPrivate, isStatic, ps, body, e⟩, ts6,
    by omega⟩

def visibility (ts : List Token) : Reading Bool (ts.length + 1) :=
  match accept? .kwPrivate ts with
  | some r => ⟨true, r.rest, by have := r.lt; omega⟩
  | none => { optional .kwPublic ts with value := false }

def memberType (ts : List Token) : Attempt Ty ts.length :=
  match accept? .kwVoid ts with
  | some r => .ok ⟨.void, r.rest, r.lt⟩
  | none => type eof ts

def member (ts : List Token) : Attempt Member ts.length := do
  let ⟨isPrivate, ts1, h1⟩ := visibility ts
  let ⟨isStatic, ts2, h2⟩ := optional .kwStatic ts1
  let ⟨t, ts3, h3⟩ ← memberType eof ts2
  let ⟨name, ts4, h4⟩ ← expect eof .id ts3
  match accept? .semicolon ts4 with
  | some ⟨_, ts5, h5⟩ =>
    return ⟨.field ⟨name.span, name.spelling, t, isPrivate, isStatic⟩, ts5, by omega⟩
  | none =>
    let ⟨m, ts5, h5⟩ ← method eof isPrivate isStatic t name ts4
    return ⟨m, ts5, by omega⟩

def memberList (ts : List Token) : Attempt (List Member) (ts.length + 1) :=
  if kindAt eof ts = .rcurly then .ok ⟨[], ts, by omega⟩
  else do
    let ⟨m, ts1, h1⟩ ← member eof ts
    let ⟨ms, ts2, h2⟩ ← memberList ts1
    return ⟨m :: ms, ts2, by omega⟩
termination_by ts.length

def Member.field? : Member → Option FieldDecl
  | field f => some f
  | method _ => none

def Member.method? : Member → Option MethodDecl
  | field _ => none
  | method m => some m

def cls (ts : List Token) : Attempt ClassDecl ts.length := do
  let ⟨_, ts1, h1⟩ ← expect eof .kwClass ts
  let ⟨name, ts2, h2⟩ ← expect eof .id ts1
  let ⟨_, ts3, h3⟩ ← expect eof .lcurly ts2
  let ⟨ms, ts4, h4⟩ ← memberList eof ts3
  let ⟨_, ts5, h5⟩ ← expect eof .rcurly ts4
  return ⟨⟨name.span, name.spelling, ms.filterMap (·.field?), ms.filterMap (·.method?), false⟩,
    ts5, by omega⟩

def classes (ts : List Token) : Except Diagnostic (List ClassDecl) :=
  if kindAt eof ts = .kwClass then do
    let ⟨c, ts1, _h1⟩ ← cls eof ts
    let cs ← classes ts1
    return c :: cs
  else if kindAt eof ts = .eof then .ok []
  else refuse eof ts (expecting "class declaration")
termination_by ts.length

end

end Tree.Parse

namespace Package

def ofTokens (file : String) (ts : List Token) (eof : Token) : Except Diagnostic Package := do
  let classes ← Tree.Parse.classes eof ts
  return ⟨file, classes, none, none⟩

def parse (file : String) (source : List UInt8) : Except Diagnostic Package :=
  let (ts, eof) := Token.scan file source
  ofTokens file ts eof

end Package

end MiniJam
