import MiniJam.Machine.Failure
import MiniJam.Text.Number
import MiniJam.Tree

/-!
# The meaning of programs

What a checked package does when it runs, without a machine: a big-step semantics of its tree, with
a heap of objects and arrays, a value for every static field and the list of the numbers printed.
`Semantics.run p n` is the run of the package `p` from its first method on; `n` bounds the depth of
the evaluation, and a run that needs more ends with `Abort.outOfFuel`.

Integers are words, and a result that is not a word ends the run.  Arguments are evaluated from the
last to the first, and the instance that a method is called on after them.  An assignment evaluates
what its left side needs, then its right side, and looks at the place that it assigns to last.
Static members are reached without evaluating what stands in front of them; neither is what stands
in front of the method that prints a number.

A run of a package that is not well typed may be `Abort.stuck`.
-/

namespace MiniJam

namespace Semantics

/-- A value. -/
inductive Value where
  | int (n : Int32)
  | bool (b : Bool)
  | null
  /-- The object or array at a position of the heap. -/
  | ref (addr : Nat)
  deriving DecidableEq, Repr

def initial : Ty → Value
  | .int => .int 0
  | .boolean => .bool false
  | .void | .cls _ | .array _ | .error => .null

/-- What a reference refers to. -/
inductive Block where
  /-- An instance of the class at a position of the package, with its fields by their positions in
  the class. -/
  | object (cls : Nat) (fields : Nat → Value)
  | array (elem : Ty) (elems : List Value)

/-- What a run has changed so far. -/
structure Store where
  /-- The objects and arrays in the order in which they were made. -/
  heap : List Block
  statics : MemberId → Value
  printed : List Int

/-- Why a run does not go on. -/
inductive Abort where
  | overflow (result : Int)
  | zeroDivide (dividend : Int)
  | arrayIndex (index length : Int)
  | arraySize (size : Int)
  | nullReference
  | stuck
  | outOfFuel
  deriving DecidableEq, Repr

/-- The failure of the machine for which a run does not go on; there is none for what a machine
does not notice, or not in the same way. -/
def Abort.failure? : Abort → Option Failure
  | .overflow result => some (.overflow result)
  | .zeroDivide dividend => some (.zeroDivide dividend)
  | .arrayIndex index length => some (.arrayIndex index length)
  | .arraySize size => some (.allocation size)
  | .nullReference | .stuck | .outOfFuel => none

abbrev Eval := EStateM Abort Store

theorem get_bind {α : Type} (f : Store → Eval α) (s : Store) : (get >>= f : Eval α) s = f s s := rfl

/-- The variables of a method while it runs. -/
structure Activation where
  this : Value
  params : List Value
  /-- The local variables in scope, in the order of their declarations. -/
  locals : List (LocalDecl × Value)

/-! ### Numbers and truth values -/

/-- The integer `x`, if it is a word. -/
def word (x : Int) : Eval Value :=
  if minWord ≤ x ∧ x ≤ maxWord then pure (.int (.ofInt x)) else throw (.overflow x)

/-- Whether two values of one type are the same. -/
def same? : Value → Value → Option Bool
  | .int a, .int b => some (a = b)
  | .bool a, .bool b => some (a = b)
  | .ref a, .ref b => some (a = b)
  | .null, .null => some true
  | .null, .ref _ | .ref _, .null => some false
  | _, _ => none

/-- The result of an operator with one operand: negation, or else the sign. -/
def unary : Operator → Value → Eval Value
  | .not, .bool b => pure (.bool !b)
  | .not, _ => throw .stuck
  | _, .int a => word (-a.toInt)
  | _, _ => throw .stuck

def decides : Operator → Value → Eval Bool
  | .and, .bool b => pure !b
  | .or, .bool b => pure b
  | .and, _ | .or, _ => throw .stuck
  | _, _ => pure false

def binary : Operator → Value → Value → Eval Value
  | .plus, .int a, .int b => word (a.toInt + b.toInt)
  | .minus, .int a, .int b => word (a.toInt - b.toInt)
  | .mul, .int a, .int b => word (a.toInt * b.toInt)
  | .div, .int a, .int b =>
    if b.toInt = 0 then throw (.zeroDivide a.toInt) else word (a.toInt.tdiv b.toInt)
  | .lt, .int a, .int b => pure (.bool (a.toInt < b.toInt))
  | .le, .int a, .int b => pure (.bool (a.toInt ≤ b.toInt))
  | .gt, .int a, .int b => pure (.bool (b.toInt < a.toInt))
  | .ge, .int a, .int b => pure (.bool (b.toInt ≤ a.toInt))
  | .and, .bool a, .bool b => pure (.bool (a && b))
  | .or, .bool a, .bool b => pure (.bool (a || b))
  | .eq, a, b =>
    match same? a b with
    | some r => pure (.bool r)
    | none => throw .stuck
  | .ne, a, b =>
    match same? a b with
    | some r => pure (.bool !r)
    | none => throw .stuck
  | _, _, _ => throw .stuck

def truth : Value → Eval Bool
  | .bool b => pure b
  | _ => throw .stuck

/-! ### Objects and arrays -/

def allocate (b : Block) : Eval Value :=
  modifyGet fun s => (.ref s.heap.length, { s with heap := s.heap ++ [b] })

def setBlock (addr : Nat) (b : Block) : Eval Unit :=
  modify fun s => { s with heap := s.heap.set addr b }

/-- An instance of the class `cls`: its position and its fields. -/
def object (cls : Nat) : Value → Eval (Nat × (Nat → Value))
  | .null => throw .nullReference
  | .ref addr => do
    match (← get).heap[addr]? with
    | some (.object cls' fields) => if cls' = cls then pure (addr, fields) else throw .stuck
    | _ => throw .stuck
  | _ => throw .stuck

/-- An array: its position, the type of its elements, and the elements. -/
def array : Value → Eval (Nat × Ty × List Value)
  | .null => throw .nullReference
  | .ref addr => do
    match (← get).heap[addr]? with
    | some (.array elem elems) => pure (addr, elem, elems)
    | _ => throw .stuck
  | _ => throw .stuck

def position (elems : List Value) : Value → Eval Nat
  | .int i =>
    if 0 ≤ i.toInt ∧ i.toInt < elems.length then pure i.toInt.toNat
    else throw (.arrayIndex i.toInt elems.length)
  | _ => throw .stuck

def field (id : MemberId) (o : Value) : Eval Value := do
  let (_, fields) ← object id.cls o
  return fields id.index

def setField (id : MemberId) (o v : Value) : Eval Unit := do
  let (addr, fields) ← object id.cls o
  setBlock addr (.object id.cls fun k => if k = id.index then v else fields k)

def element (o i : Value) : Eval Value := do
  let (_, _, elems) ← array o
  let k ← position elems i
  return elems.getD k .null

def setElement (o i v : Value) : Eval Unit := do
  let (addr, elem, elems) ← array o
  let k ← position elems i
  setBlock addr (.array elem (elems.set k v))

def length (o : Value) : Eval Value := do
  let (_, _, elems) ← array o
  return .int (.ofInt elems.length)

def newArray (elem : Ty) : Value → Eval Value
  | .int n =>
    if 0 ≤ n.toInt then allocate (.array elem (.replicate n.toInt.toNat (initial elem)))
    else throw (.arraySize n.toInt)
  | _ => throw .stuck

def setStatic (id : MemberId) (v : Value) : Eval Unit :=
  modify fun s => { s with statics := fun id' => if id' = id then v else s.statics id' }

/-- Prints the number that is the only one of the arguments. -/
def print : List Value → Eval (Option Value)
  | [.int n] => modifyGet fun s => (none, { s with printed := s.printed ++ [n.toInt] })
  | _ => throw .stuck

/-! ### Variables -/

def expect {α : Type} : Option α → Eval α
  | some a => pure a
  | none => throw .stuck

def boundField : Option Binding → Eval MemberId
  | some (.field id) => pure id
  | _ => throw .stuck

def Activation.setLocal (act : Activation) (d : LocalDecl) (v : Value) : Activation :=
  { act with locals := act.locals.map fun x => if x.1 = d then (d, v) else x }

def Activation.setParam (act : Activation) (i : Nat) (v : Value) : Activation :=
  { act with params := act.params.set i v }

variable (p : Package)

/-- The value of a field; `o` gives the instance if it needs one. -/
def member (id : MemberId) (o : Eval Value) : Eval Value := do
  let f ← expect (p.field? id)
  if f.isStatic then return (← get).statics id else field id (← o)

/-- Sets a field to the value that `v` gives; `o` gives the instance if it needs one. -/
def setMember (id : MemberId) (o v : Eval Value) : Eval Unit := do
  let f ← expect (p.field? id)
  if f.isStatic then setStatic id (← v)
  else
    let o ← o
    setField id o (← v)

def newObject (cls : Nat) : Eval Value := do
  let c ← expect (p.class? cls)
  allocate (.object cls fun k => ((c.fields[k]?).map (initial ·.type)).getD .null)

/-! ### Evaluation -/

mutual

def ref (n : Nat) (act : Activation) (r : Ref) : Eval Value :=
  match n with
  | 0 => throw .outOfFuel
  | n + 1 =>
    match r with
    | .this .. => pure act.this
    | .id _ _ b _ =>
      match b with
      | some (.var d) => expect (act.locals.lookup d)
      | some (.param i) => expect act.params[i]?
      | some (.field id) => member p id (pure act.this)
      | _ => throw .stuck
    | .member base _ _ b isLength _ =>
      if isLength then do length (← ref n act base)
      else do member p (← boundField b) (ref n act base)
    | .elem base index _ => do
      let o ← ref n act base
      let i ← expr n act index
      element o i

def expr (n : Nat) (act : Activation) (e : Expr) : Eval Value :=
  match n with
  | 0 => throw .outOfFuel
  | n + 1 =>
    match e with
    | .ref r => ref n act r
    | .int _ spelling _ => pure (.int (.ofInt (Text.natOfDigits spelling.toList)))
    | .bool _ value _ => pure (.bool value)
    | .unary _ op operand _ => do unary op (← expr n act operand)
    | .binary op lhs rhs _ => do
      let x ← expr n act lhs
      if ← decides op x then return x else binary op x (← expr n act rhs)
    | .newObject _ _ bound _ => do newObject p (← expect bound)
    | .newArray _ elem size _ => do newArray elem (← expr n act size)
    | .call c => do expect (← call n act c)

/-- The values of expressions, evaluated from the last to the first. -/
def args (n : Nat) (act : Activation) (es : List Expr) : Eval (List Value) :=
  match n with
  | 0 => throw .outOfFuel
  | n + 1 =>
    match es with
    | [] => pure []
    | e :: es => do
      let vs ← args n act es
      let v ← expr n act e
      return v :: vs

def receiver (n : Nat) (act : Activation) (method : Ref) : Eval Value :=
  match n with
  | 0 => throw .outOfFuel
  | n + 1 =>
    match method with
    | .id .. => pure act.this
    | .member base .. => ref n act base
    | .this .. | .elem .. => throw .stuck

/-- The result of a call, if it has one. -/
def call (n : Nat) (act : Activation) (c : Call) : Eval (Option Value) :=
  match n with
  | 0 => throw .outOfFuel
  | n + 1 => do
    let id ← expect c.bound
    let m ← expect (p.method? id)
    let vs ← args n act c.args
    if p.println = some id then print vs
    else if m.isStatic then invoke n m .null vs
    else
      let o ← receiver n act c.method
      let _ ← object id.cls o
      invoke n m o vs

/-- The result of a method, if it has one. -/
def invoke (n : Nat) (m : MethodDecl) (this : Value) (vs : List Value) : Eval (Option Value) :=
  match n with
  | 0 => throw .outOfFuel
  | n + 1 => do
    let act ← stmts n ⟨this, vs, []⟩ m.body
    match m.result with
    | some e => return some (← expr n act e)
    | none => return none

def stmt (n : Nat) (act : Activation) (s : Stmt) : Eval Activation :=
  match n with
  | 0 => throw .outOfFuel
  | n + 1 =>
    match s with
    | .block _ body => do
      let after ← stmts n act body
      return { after with locals := after.locals.take act.locals.length }
    | .decl d init => do
      let v ← expr n act init
      return { act with locals := act.locals ++ [(d, v)] }
    | .assign lhs rhs =>
      match lhs with
      | .id _ _ b _ =>
        match b with
        | some (.var d) => return act.setLocal d (← expr n act rhs)
        | some (.param i) => return act.setParam i (← expr n act rhs)
        | some (.field id) => do
          setMember p id (pure act.this) (expr n act rhs)
          return act
        | _ => throw .stuck
      | .member base _ _ b _ _ => do
        setMember p (← boundField b) (ref n act base) (expr n act rhs)
        return act
      | .elem base index _ => do
        let o ← ref n act base
        let i ← expr n act index
        setElement o i (← expr n act rhs)
        return act
      | .this .. => throw .stuck
    | .call c => do
      let _ ← call n act c
      return act
    | .ifThen _ cond body => do
      if ← truth (← expr n act cond) then stmt n act body else return act
    | .ifElse _ cond body other => do
      if ← truth (← expr n act cond) then stmt n act body else stmt n act other
    | .loop span cond body => do
      if ← truth (← expr n act cond) then
        let act ← stmt n act body
        stmt n act (.loop span cond body)
      else return act

def stmts (n : Nat) (act : Activation) (ss : List Stmt) : Eval Activation :=
  match n with
  | 0 => throw .outOfFuel
  | n + 1 =>
    match ss with
    | [] => pure act
    | s :: ss => do
      let act ← stmt n act s
      stmts n act ss

end

def start : Store :=
  ⟨[], fun id => ((p.field? id).map (initial ·.type)).getD .null, []⟩

/-- The run of a package: the method where it starts is called, with nothing as its argument. -/
def run (n : Nat) : EStateM.Result Abort Store (Option Value) :=
  EStateM.run (do invoke p n (← expect (p.entry.bind p.method?)) .null [.null]) (start p)

end Semantics

end MiniJam
