import MiniJam.Proofs.Machine.Actions

/-!
# Instructions that follow a reference

An `Access` is one of the ways in which an instruction of a compiled program comes to what a reference
refers to.  A machine `Meets` nothing if its next instruction does so, and the reference is the one to
nothing.  What a machine does then is said by `Machine.Catches`.
-/

namespace MiniJam

/-- A way to come to what a reference refers to. -/
inductive Access
  /-- A routine reads or writes a field or an element; the reference lies under `above` words. -/
  | word (above : Nat)
  /-- The length of an array is loaded from the address before the reference. -/
  | length
  /-- A field of the current object is loaded or stored. -/
  | own
  /-- A method of an instance is called by its address. -/
  | call
  /-- A method of an instance is called by its position in the descriptor. -/
  | dispatch
  deriving DecidableEq, Repr

/-- How an instruction follows a reference, if it does. -/
def Instr.access? (i : Instr) : Option Access :=
  match Opcode.ofCode? i.op with
  | some .call =>
    if i = .ofPrim .fieldref ∨ i = .ofPrim .arrayref then some (.word 1)
    else if i = .ofPrim .fieldupd ∨ i = .ofPrim .arrayupd then some (.word 2)
    else none
  | some .loadi => some .length
  | some .load | some .store => if i.r = Reg.ob.code then some .own else none
  | some .calli => some .call
  | some .calld => some .dispatch
  | _ => none

theorem Instr.access?_callOf (addr : Int) : (Instr.make .call 0 .cb addr).access? = none := by
  have hne : ∀ q : Prim, Instr.make .call 0 .cb addr ≠ .ofPrim q := fun q h =>
    absurd (congrArg Instr.r h) (show Reg.cb.code ≠ Reg.pb.code by decide)
  simp [Instr.access?, hne, show Opcode.ofCode? (Instr.make .call 0 .cb addr).op = some .call from rfl]

namespace Machine

def reference (m : Machine) : Access → Int
  | .word above => m.peek (m.st - 1 - above)
  | .length => m.peek (m.st - 1) - headerSize
  | .own => m.ob
  | .call | .dispatch => m.peek (m.st - 1)

/-- The next instruction of a running machine follows the reference to nothing. -/
structure Meets (m : Machine) (a : Access) : Prop where
  state : m.state = .running
  access : (m.instrAt? m.cp).bind Instr.access? = some a
  reference : m.reference a = nullWord

instance (m : Machine) (a : Access) : Decidable (m.Meets a) :=
  decidable_of_iff (m.state = .running ∧ (m.instrAt? m.cp).bind Instr.access? = some a ∧
    m.reference a = nullWord) ⟨fun h => ⟨h.1, h.2.1, h.2.2⟩, fun h => ⟨h.1, h.2, h.3⟩⟩

/-- The next step fails the program, and changes neither a word of the data store nor a register but,
for the length of an array, the stack top.  There is no such step for the other ways to follow a
reference. -/
def Catches (m : Machine) : Access → Prop
  | .word _ | .dispatch => m.step = (m.fail .nullReference, none)
  | .length =>
    m.step = ((m.withST (m.st - 1)).fail (.dataAddress (nullWord + headerSize) m.data.size), none)
  | .own | .call => False

variable {m : Machine} {a : Access}

theorem Catches.state_ne (h : m.Catches a) : m.step.1.state ≠ .running := by
  cases a with
  | word | dispatch | length =>
    rw [show m.step = _ from h]
    exact nofun
  | own | call => exact h.elim

theorem step_eq_fail {op : Opcode} {n d : Int} {r : Reg}
    (hrun : m.state = .running) (hi : m.instrAt? m.cp = some (.make op n r d))
    (h : Exec.Ensures (Exec.operation op (.make op n r d) (m.cp + 1)) m (fun _ _ => False)
      fun e m₁ => e = .failure why ∧ m₁ = m') : m.step = (m'.fail why, none) := by
  refine (step_iff hrun hi fun r => r = (m'.fail why, none)).2 ?_
  rw [Exec.ensures_instruction (Opcode.ofCode?_code op)]
  refine h.mono (fun _ _ => False.elim) ?_
  rintro e m₁ ⟨rfl, rfl⟩
  rfl

end Machine

end MiniJam
