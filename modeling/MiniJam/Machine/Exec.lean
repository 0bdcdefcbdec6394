import MiniJam.Machine.Basic

/-!
# Actions of an instruction

An instruction is carried out by a sequence of actions on the machine.  An action may stop the
instruction: because the program halts, because it fails, or because the data store is accessed
outside its bounds.  What was done before stays done.
-/

namespace MiniJam.Machine

/-- Why an instruction does not go on. -/
inductive Stop where
  | halt
  | failure (why : Failure)
  /-- The data store or the code is accessed outside its bounds. -/
  | fault (f : Fault)
  deriving DecidableEq, Repr

abbrev Exec := EStateM Stop Machine

namespace Exec

def fail {α : Type} (why : Failure) : Exec α :=
  throw (.failure why)

/-- Fails the program unless a condition holds. -/
def require (ok : Bool) (why : Failure) : Exec Unit :=
  if ok then pure () else fail why

def word (addr : Int) : Exec Int := fun m =>
  if addr < 0 then .error (.fault ⟨addr, m.data.size⟩) m
  else match m.data[addr.toNat]? with
    | some w => .ok w.toInt m
    | none => .error (.fault ⟨addr, m.data.size⟩) m

/-- Sets the word at `addr`, which is taken to be in bounds, to the low 32 bits of `value`. -/
def setWord (addr value : Int) : Exec Unit := fun m =>
  if h : 0 ≤ addr ∧ addr.toNat < m.data.size then
    .ok () { m with data := m.data.set addr.toNat (Int32.ofInt value) h.2 }
  else .error (.fault ⟨addr, m.data.size⟩) m

def setST (st : Int) : Exec Unit :=
  modify fun m => { m with st := st }

/-- The address `d[r]` of an instruction. -/
def effective (i : Instr) : Exec Int := do
  match Reg.ofCode? i.r with
  | some r => return wrap64 ((← get).reg r + i.d)
  | none => fail (.register i.r)

/-- Fails the program unless `addr` lies in the data store. -/
def checkAddress (addr : Int) : Exec Unit := do
  let m ← get
  require (0 ≤ addr && addr < m.hb) (.dataAddress addr m.data.size)

/-- The word at `addr`, if that lies in the data store. -/
def read (addr : Int) : Exec Int := do
  checkAddress addr
  word addr

/-- Stores `value` at `addr`, if that lies in the data store. -/
def write (addr value : Int) : Exec Unit := do
  checkAddress addr
  setWord addr value

/-- Fails the program unless the stack can grow by `n` words without meeting the heap. -/
def checkSpace (n : Int) : Exec Unit := do
  let m ← get
  require (n ≤ m.ht - m.st) (.noRoom n m.st m.ht)

def push (value : Int) : Exec Unit := do
  checkSpace 1
  let st := (← get).st
  setWord st value
  setST (st + 1)

def pop : Exec Int := do
  let st := (← get).st
  require (0 < st) .popOfEmptyStack
  setST (st - 1)
  word (st - 1)

/-- Fails the program unless the stack holds `n` words. -/
def need (n : Int) : Exec Int := do
  let st := (← get).st
  require (0 ≤ st - n) (.missingOperands st n)
  return st

def top1 : Exec Int := do
  let st ← need 1
  word (st - 1)

/-- The two words on top of the stack, the deeper one first; they stay there. -/
def top2 : Exec (Int × Int) := do
  let st ← need 2
  let x ← word (st - 2)
  let y ← word (st - 1)
  return (x, y)

/-- The three words on top of the stack, the deepest first; they stay there. -/
def top3 : Exec (Int × Int × Int) := do
  let st ← need 3
  let x ← word (st - 3)
  let y ← word (st - 2)
  let z ← word (st - 1)
  return (x, y, z)

/-- Removes `n` words from the stack. -/
def drop (n : Int) : Exec Unit :=
  modify fun m => { m with st := m.st - n }

def setTop (value : Int) : Exec Unit := do
  setWord ((← get).st - 1) value

/-- Opens a call frame at `addr` for a routine working on the object `ob`. -/
def pushFrame (addr ob : Int) : Exec Unit := do
  let m ← get
  let (callerOb, callerLb, returnAddr) := (m.ob, m.lb, m.cp + 1)
  setWord addr callerOb
  setWord (addr + 1) callerLb
  setWord (addr + 2) returnAddr
  modify fun m => { m with ob := ob, lb := addr, st := addr + linkWords }

/-- Fails the program unless `addr` refers to an object or array in the heap.  An object without
fields may have the address of the heap base. -/
def heapRef (addr : Int) : Exec Unit := do
  require (addr != 0) .nullReference
  let m ← get
  require (m.ht + headerWords ≤ addr && addr ≤ m.hb) (.outsideHeap addr m.ht m.hb)

def print (s : String) : Exec Unit := fun m =>
  match m.output.refuses s with
  | some cause => .error (.failure (.write cause)) m
  | none => .ok () { m with output := m.output.append s }

/-- Reads the characters of the input that satisfy `p`, and one more, which becomes the last
character; it is `-1` at the end of the input. -/
def readAfter (p : UInt8 → Bool) : Exec Int := fun m =>
  match m.input.nextAfter p with
  | (.byte b, input) => .ok b.toNat { m with input := input, lastChar := b.toNat }
  | (.stop, input) => .ok (-1) { m with input := input, lastChar := -1 }
  | (.failed cause, input) => .error (.failure (.read cause)) { m with input := input }

def readChar : Exec Int :=
  readAfter fun _ => false

def readInt : Exec Int := fun m =>
  match m.input.readInt with
  | (.value n after, input) => .ok n { m with input := input, lastChar := after }
  | (.tooLarge, input) => .error (.failure .inputTooLarge) { m with input := input }
  | (.failed cause, input) => .error (.failure (.read cause)) { m with input := input }

end Exec

end MiniJam.Machine
