import MiniJam.Machine.Dump
import MiniJam.Machine.Primitive

/-!
# Steps

`Machine.step` carries out the instruction at the code pointer and moves the pointer on.
-/

namespace MiniJam.Machine

namespace Exec

/-- Writes a dump to the output.  A piece that cannot be written is left out; a fault is met after
the pieces before it. -/
def dumpOut : Exec Unit := fun m =>
  let (pieces, fault) := m.dump.pieces
  let m := { m with output := pieces.foldl Output.write m.output }
  match fault with
  | some f => .error (.fault f) m
  | none => .ok () m

/-- Calls the routine at `addr`, which may be a primitive, and gives the address to go on at. -/
def call (addr next : Int) : Exec Int := do
  let m ← get
  if m.pb ≤ addr ∧ addr < m.pt then
    match Prim.ofCode? (addr - m.pb) with
    | some p => primitive p
    | none => fail (.primitive (addr - m.pb))
    return next
  checkSpace linkWords
  pushFrame (← get).st 0
  return addr

/-- Calls the instance method at `addr`; its frame takes the place of the instance. -/
def callInstance (addr : Int) : Exec Int := do
  let m ← get
  require (0 ≤ addr && addr < m.ct) (.instanceMethodAddress addr)
  let object ← top1
  checkSpace (linkWords - 1)
  pushFrame ((← get).st - 1) object
  return addr

/-- Calls method number `index` of the class of the instance on top of the stack. -/
def callDynamic (index : Int) : Exec Int := do
  let object ← top1
  heapRef object
  let desc ← word (object + headerClass)
  let st := (← get).st
  require (0 ≤ desc && desc + descriptorMethods ≤ st) (.noDescriptor object desc)
  let count ← word (desc + descriptorCount)
  require (0 ≤ index && index < count && desc + descriptorMethods + index < st)
    (.methodIndex index desc count)
  checkSpace (linkWords - 1)
  let addr ← word (desc + descriptorMethods + index)
  pushFrame (st - 1) object
  return addr

/-- Closes the current frame: `n` result words take the place of `d` argument words. -/
def ret (n d : Int) : Exec Int := do
  require (0 ≤ n && n ≤ 1) (.returnWords n)
  let m ← get
  let lb := m.lb
  let addr := wrap64 (lb - d)
  require (0 ≤ addr && lb + linkWords ≤ m.st) (.returnFrame lb)
  let result ← if n = 1 then pop else pure 0
  let ob ← word lb
  modify fun m => { m with ob := ob }
  let next ← word (lb + 2)
  let link ← word (lb + 1)
  modify fun m => { m with lb := link }
  if n = 1 then setWord addr result
  setST (addr + n)
  return next

def operation (op : Opcode) (i : Instr) (next : Int) : Exec Int := do
  match op with
  | .load =>
    push (← read (← effective i))
    return next
  | .loada =>
    push (← effective i)
    return next
  | .loadi =>
    push (← read (← pop))
    return next
  | .loadl =>
    push i.d
    return next
  | .store =>
    let addr ← effective i
    let w ← pop
    write addr w
    return next
  | .storei =>
    let (w, addr) ← top2
    drop 2
    write addr w
    return next
  | .call => call (← effective i) next
  | .calli => callInstance (← effective i)
  | .calld => callDynamic i.d
  | .ret => ret i.n i.d
  | .push =>
    require (0 ≤ i.d) (.pushWords i.d)
    checkSpace i.d
    setST ((← get).st + i.d)
    return next
  | .pop =>
    let st := (← get).st
    require (0 ≤ i.d && i.d ≤ st) (.popWords i.d st)
    drop i.d
    return next
  | .jump => effective i
  | .jumpi => pop
  | .jumpif =>
    let w ← pop
    if w = i.n then effective i else return next
  | .halt =>
    if 0 < i.n then
      dumpOut
      return next
    throw .halt

def instruction (i : Instr) : Exec Unit := do
  let next := (← get).cp + 1
  match Opcode.ofCode? i.op with
  | none => fail (.opcode i.op)
  | some op =>
    let next ← operation op i next
    modify fun m => { m with cp := next }
    let ct := (← get).ct
    require (0 ≤ next && next < ct) (.codeAddress next ct)

end Exec

def stopped (m : Machine) : Stop → Machine × Option Fault
  | .halt => ({ m with state := .halted }, none)
  | .failure why => (m.fail why, none)
  | .fault f => if m.hardCrash then (m, some f) else (m.fail (.internal f), none)

def advance (m : Machine) : Machine × Option Fault :=
  match m.instrAt? m.cp with
  | none => m.stopped (.fault ⟨m.cp, m.program.size⟩)
  | some i =>
    match Exec.instruction i m with
    | .ok _ m => (m, none)
    | .error stop m => m.stopped stop

/-- Carries out one instruction, if the machine is running. -/
def step (m : Machine) : Machine × Option Fault :=
  match m.state with
  | .running => m.advance
  | _ => (m, none)

end MiniJam.Machine
