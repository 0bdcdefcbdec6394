import MiniJam.Proofs.Machine.Alike
import MiniJam.Proofs.Simulation.Sound

/-!
# The two ways to call methods agree

A source has one program that calls the methods of instances by their addresses, and one that calls
them through the descriptors of the classes.  They differ in these calls only, and the descriptor of
the class has the address of the method (`Assembly.differs_dynamic`).  Two machines that run them are
alike after every step, until a method of nothing is called (`Compiler.dispatch_agrees`): while a
program runs, every instance has the descriptor of its class, and the descriptors stay as they are.
-/

namespace MiniJam

open Option Opcode

open Assembly (ofPackage)

namespace Machine.Exec

theorem eq_of_ensures {α : Type} {x y : Exec α} {m : Machine}
    (h : ∀ ok stop, Ensures x m ok stop ↔ Ensures y m ok stop) : x m = y m := by
  have hy : Ensures y m (fun a m' => y m = .ok a m') fun e m' => y m = .error e m' := by
    unfold Ensures
    cases y m <;> rfl
  have hx := (h _ _).2 hy
  unfold Ensures at hx
  cases hxm : x m with
  | ok a m' =>
    rw [hxm] at hx
    exact hx.symm
  | error e m' =>
    rw [hxm] at hx
    exact hx.symm

end Machine.Exec

/-- The addresses and the operands of a program are words. -/
structure Program.InWords (p : Program) : Prop where
  size_le : (p.size : Int) ≤ maxWord
  operands : ∀ i ∈ p, minWord ≤ i.d ∧ i.d ≤ maxWord

namespace Simulation

open Semantics Machine.Exec

variable {X : Target} {R : Routine X} {K : View} {σ : List Code.Slot} {ops : List Cell} {s : Store} {x : Nat}
  {m n : Machine} {c : Config}

theorem Target.sized_of_inWords (h : Program.InWords X.assembly.program) : X.Sized := by
  intro cls c hc
  obtain ⟨part, hpart, rfl⟩ := Assembly.exists_part X.dynamic X.entry hc
  have hcode := (Assembly.codeAt_part (List.mem_of_getElem? hpart)).right.left.left.right
  exact (h.operands _ (Array.mem_of_getElem? hcode.one.get)).2

/-- The call of a method of an instance through the descriptor of its class ends as the call of the
method by its address. -/
theorem At.ensures_dispatch {id : MemberId} {d : ClassDecl} {b : Code.Body} {a : Nat}
    {fields : Nat → Value} {ok : Int → Machine → Prop} {stop : Machine.Stop → Machine → Prop}
    (h : At R σ K (.val (.ref a) :: ops) s) (hm : Shows X m (K.config x (.val (.ref a) :: ops) s))
    (hd : X.package.class? id.cls = some d) (hb : X.assembly.body? id = some b)
    (hstat : b.decl.isStatic = false) (hobj : s.heap[a]? = some (.object id.cls fields)) :
    Ensures (callDynamic (Layout.methodSlot d id.index)) m ok stop ↔
      Ensures (callInstance b.addr) m ok stop := by
  obtain ⟨words, lb, this, rfl⟩ := h.runs.viewOf
  obtain ⟨count, _, below, _, below', hlt, hspl, hbel, hspl', hbel'⟩ :=
    X.split_slot hd hb hstat ops words lb this s
  rw [ensures_callInstance hm (X.addr_lt hb),
    ensures_callDynamic hm hobj rfl hspl hbel hspl' hbel' hlt]

theorem ensures_calli {addr : Nat} {next : Int} {ok : Int → Machine → Prop}
    {stop : Machine.Stop → Machine → Prop} (haddr : addr < X.assembly.program.size) :
    Ensures (operation .calli (.make .calli 0 .cb addr) next) m ok stop ↔
      Ensures (callInstance addr) m ok stop := by
  have hreg : m.reg .cb + (addr : Int) = addr := Int.zero_add _
  exact (ensures_bind _ _).trans (ensures_effective hreg (X.addr_mem haddr).1)

theorem Turns.exists_invoke {p : Package} {Γ : Site} {item : Item} {σ τ : List Code.Slot}
    (h : Code.Turns p Γ item σ τ) (hop : item.instr.op = calli.code) :
    ∃ line id d name ρ, item = ⟨.make .calli 0 .cb 0, line, some id⟩ ∧ p.method? id = some d ∧
      d.isStatic = false ∧ p.signature.className id.cls = some name ∧
      σ = .value (.cls name) :: (Code.Slot.ofParams d ++ ρ) := by
  cases h with
  | invoke hd hstat hname => exact ⟨_, _, _, _, _, rfl, hd, hstat, hname, rfl⟩
  | _ => exact nomatch hop

section

variable (hX : X.dynamic = false)

include hX

theorem Target.op_eq {item : Item} {i : Instr}
    (hitem : (ofPackage X.package false X.entry).code.items[x]? = some item)
    (hi : X.assembly.program[x]? = some i) : item.instr.op = i.op := by
  rw [Target.assembly, hX, Assembly.getElem?_program, hitem] at hi
  cases hi
  unfold Assembly.link
  split <;> rfl

/-- In a sound configuration, both instructions for the call of a method of an instance that is there
do the same. -/
theorem Sound.instruction_eq (h : Sound X c) (hm : Shows X m c)
    (hnull : ¬ m.CallsNull) {item : Item}
    (hitem : (ofPackage X.package false X.entry).code.items[c.cp]? = some item)
    (hop : item.instr.op = calli.code) :
    instruction (Assembly.instrOf X.package true X.entry item) m =
      instruction (Assembly.instrOf X.package false X.entry item) m := by
  cases h with
  | done => exact absurd (hop.symm.trans (X.op_eq hX hitem X.halt_start)) (by decide)
  | @running R x _ hx h =>
    obtain ⟨K, ops, s, rfl, hat⟩ := h
    obtain hlt | rfl := Nat.lt_or_eq_of_le hx.2
    · obtain ⟨item', hitem', hmov⟩ := R.shape.moves x hx.1 hlt
      cases hitem.symm.trans hitem'
      have hi := R.instrAt hx.2 hitem
      cases hmov with
      | jump | branch => cases hop
      | turn htur =>
        obtain ⟨line, id, d, name, ρ, rfl, hd, hstat, hname, hσ⟩ := Turns.exists_invoke htur hop
        rw [hσ] at hat
        obtain ⟨o, rest, rfl, ho, -⟩ := hat.pop_value
        obtain ⟨b, hb, hdecl, -⟩ := Assembly.exists_body false X.entry hd
        obtain ⟨cd, hc, -⟩ := bind_eq_some_iff.1 hd
        have hb' : X.assembly.body? id = some b := by rw [Target.assembly, hX, hb]
        have hne : o ≠ .null := by
          refine hm.ne_null hi ?_ hnull
          rw [hX, Assembly.instrOf_calli hb hc]
          exact .inl rfl
        obtain ⟨a, fields, rfl, hobj⟩ := (instance_of_hasType hname ho hne).exists_object
        rw [Assembly.instrOf_calli hb hc, Assembly.instrOf_calli hb hc]
        refine eq_of_ensures fun ok stop => ?_
        rw [cond_true, cond_false, ensures_instruction (ofCode?_code .calld),
          ensures_instruction (ofCode?_code .calli), ensures_calli (X.addr_lt hb')]
        exact hat.ensures_dispatch hm hc hb' (by rw [hdecl, hstat]) hobj
    · obtain ⟨line, hret⟩ := R.shape.ret
      cases hitem.symm.trans hret
      cases hop

theorem alike_step_of_instruction (hm : Shows X m c) (hal : Machine.Alike Eq m n)
    (hprog : n.program = (ofPackage X.package true X.entry).program)
    (heq : ∀ item, (ofPackage X.package false X.entry).code.items[c.cp]? = some item →
      item.instr.op = calli.code →
      instruction (Assembly.instrOf X.package true X.entry item) m =
        instruction (Assembly.instrOf X.package false X.entry item) m) :
    Machine.Alike Eq m.step.1 n.step.1 := by
  have hget : ∀ dynamic, (ofPackage X.package dynamic X.entry).program[c.cp]? =
      (ofPackage X.package false X.entry).code.items[c.cp]?.map
        (Assembly.instrOf X.package dynamic X.entry) := fun dynamic => Assembly.getElem?_dynamic c.cp
  have hpos : ¬ (c.cp : Int) < 0 := by omega
  have hi : m.instrAt? m.cp = (ofPackage X.package false X.entry).program[c.cp]? := by
    simp [Machine.instrAt?, hm.cp, hm.program, hpos, Target.assembly, hX]
  have hj : n.instrAt? n.cp = (ofPackage X.package true X.entry).program[c.cp]? := by
    simp [Machine.instrAt?, hal.cp, hm.cp, hprog, hpos]
  rw [hget] at hi hj
  cases hitem : (ofPackage X.package false X.entry).code.items[c.cp]? with
  | none =>
    rw [hitem] at hi hj
    exact (hal.step Output.tracks_eq (hj.trans hi.symm)).1
  | some item =>
    rw [hitem] at hi hj
    refine (hal.step_of Output.tracks_eq hi hj fun _ => ?_).1
    by_cases hop : item.instr.op = calli.code
    · exact heq item hitem hop
    · have hsame : item.dispatched X.package = item := Item.dispatched_eq (.inr hop)
      simp [Assembly.instrOf, hsame]

/-- Machines that are alike and run the two programs make the same step, unless a method of nothing is
called. -/
theorem Underway.step_alike (h : Underway X m) (hal : Machine.Alike Eq m n)
    (hprog : n.program = (ofPackage X.package true X.entry).program)
    (hnull : ¬ m.CallsNull) : Machine.Alike Eq m.step.1 n.step.1 := by
  cases h with
  | fresh hm =>
    refine alike_step_of_instruction hX hm hal hprog fun item hitem hop => ?_
    exact nomatch hop.symm.trans (X.op_eq hX hitem X.codeAt_start.left.left.one.get)
  | started top hm hpath hsnd =>
    refine alike_step_of_instruction hX hm hal hprog fun item hitem hop => ?_
    cases hpath with
    | refl => exact hsnd.instruction_eq hX hm hnull hitem hop
    | step hi hop' =>
      have hcode : calli.code = _ := hop.symm.trans (X.op_eq hX hitem hi.get)
      have hcal := congrArg ofCode? hcode
      cases hcal.trans (ofCode?_code _)
      exact nomatch hop'

theorem Underway.after_alike (hsiz : X.Sized)
    (hcmp : X.package.comparesValues = true) (h : Underway X m) (hal : Machine.Alike Eq m n)
    (hprog : n.program = (ofPackage X.package true X.entry).program) (k : Nat)
    (hn : ∀ j < k, ¬ (m.after j).CallsNull) :
    Machine.Alike Eq (m.after k) (n.after k) ∧
      ((m.after k).state = .running → Underway X (m.after k)) := by
  induction k with
  | zero => exact ⟨hal, fun _ => h⟩
  | succ k ih =>
    obtain ⟨hal', hund⟩ := ih fun j hj => hn j (Nat.lt_succ_of_lt hj)
    have hn' := hn k (Nat.lt_succ_self k)
    by_cases hrun : (m.after k).state = .running
    · have hprog' := (congrArg Machine.Setting.program (n.setting_after k)).trans hprog
      exact ⟨(hund hrun).step_alike hX hal' hprog' hn',
        fun hrun' => (hund hrun).step hsiz hcmp hn' hrun'⟩
    · have hs : m.after (k + 1) = m.after k := congrArg Prod.fst (Machine.step_of_not_running hrun)
      have hrun' : (n.after k).state ≠ .running := hal'.state ▸ hrun
      have hs' : n.after (k + 1) = n.after k := congrArg Prod.fst (Machine.step_of_not_running hrun')
      rw [hs, hs']
      exact ⟨hal', fun h => absurd h hrun⟩

end

end Simulation

/-! ### Compiled sources -/

namespace Machine

theorem load_alike {name : String} {S D : Object} {input : Input} {output : Output}
    (hs : D.program.size = S.program.size) (hsym : D.symbols = S.symbols)
    (h : load name S o input output = .ok m) :
    ∃ n, load name D o input output = .ok n ∧ n.program = D.program ∧ Alike Eq m n := by
  obtain ⟨hsto, hcap, hfits, bs, hbs, rfl⟩ := load_ok_iff.1 h
  have hct : (blank name D o input output).ct = (blank name S o input output).ct :=
    congrArg Nat.cast hs
  have hbs' := setBreakpoints_of_ct hct rfl hbs
  refine ⟨_, load_ok_iff.2 ⟨hsto, hcap, hs ▸ hfits, bs, hbs', rfl⟩, program_reset _, ?_⟩
  refine alike_reset hct ?_ rfl rfl rfl rfl rfl
  simp [blank, withBreakpoints, hsym]

end Machine

namespace Assembly

/-- The word in a slot of the descriptor of the class at a position. -/
def slot? (a : Assembly) (cls k : Nat) : Option Int :=
  a.parts[cls]?.bind fun part => part.descriptor[3 + k]?

/-- Where the two programs of a package differ, one calls a method of an instance by its address, and
the other one by the slot of the descriptor that has this address. -/
theorem differs_dynamic {p : Package} {entry : MemberId} (hp : p.Typed)
    (hent : p.entry = some entry) (hi : (ofPackage p false entry).program[x]? = some i) :
    (ofPackage p true entry).program[x]? = some i ∨
      ∃ id k addr, calleeAt p entry x = some id ∧ i = .make .calli 0 .cb addr ∧
        (ofPackage p true entry).program[x]? = some (.make .calld 0 .zr (k : Nat)) ∧
        (ofPackage p false entry).slot? id.cls k = some addr := by
  rw [getElem?_dynamic, map_eq_some_iff] at hi
  obtain ⟨item, hitem, rfl⟩ := hi
  rw [getElem?_dynamic, hitem, calleeAt, hitem]
  by_cases hop : item.instr.op = calli.code
  · cases hcal : item.callee with
    | none =>
      left
      simp only [map_some, instrOf, cond_true, cond_false, Item.dispatched_eq (.inl hcal)]
    | some id =>
      right
      obtain ⟨-, d, op, hd, hins, hstat⟩ := ((sealed_ofPackage false hp hent).forms item
        (List.mem_of_getElem? hitem)).callee hcal
      obtain rfl : op = .calli := by
        rw [hins] at hop
        have hcode := congrArg ofCode? (show op.code = calli.code from hop)
        rw [ofCode?_code, ofCode?_code] at hcode
        exact some.inj hcode
      obtain ⟨b, hb, hdecl, -⟩ := exists_body false entry hd
      obtain ⟨c, hc, -⟩ := bind_eq_some_iff.1 hd
      obtain ⟨part, hpart, rfl⟩ := exists_part false entry hc
      obtain ⟨_, line, _⟩ := item
      obtain rfl := hins
      obtain rfl := hcal
      refine ⟨id, Layout.methodSlot part.decl id.index, b.addr, rfl, instrOf_calli hb hc, ?_, ?_⟩
      · exact congrArg some (instrOf_calli hb hc)
      · have hslot := getElem?_instanceBodies hpart hb (by rw [hdecl, hstat rfl])
        simp only [slot?, hpart, bind_some, Code.Part.descriptor, Nat.add_comm 3]
        exact (List.getElem?_map ..).trans (congrArg (Option.map _) hslot)
  · left
    simp only [map_some, instrOf, cond_true, cond_false, Item.dispatched_eq (.inr hop)]

end Assembly

end MiniJam
