import MiniJam.Proofs.Code.Heights
import MiniJam.Proofs.Simulation.Program

/-!
# What a program does before its first call

The addresses of the static fields and of the descriptors are computed from the declarations of a
package (`Package.LaidOut`).  The words come there only when the program runs: it makes room for the
static fields, and pushes the descriptor of one class after the other.  `Compiler.prologue_prepares`
says that a machine that is reset makes one step for the static fields and one for each jump and each
word of a descriptor, and has then these words at these addresses.

The machine is followed by the words on its stack (`Laid`).  No bound on its data store is needed,
since a word of it always holds the low 32 bits of what is pushed.
-/

namespace MiniJam

open List Machine Layout Code

/-! ### Addresses -/

/-- The static fields have addresses of their own below those of the descriptors, which lie one behind
the other. -/
structure Package.LaidOut (p : Package) : Prop where
  static_lt : ∀ id f, p.field? id = some f → f.isStatic = true →
    ∃ e k, fieldEntity? p id = some e ∧ e.base = .sb ∧ e.addr = (k : Nat) ∧ k < staticSize p
  static_inj : ∀ id id' f f' e e', p.field? id = some f → f.isStatic = true →
    p.field? id' = some f' → f'.isStatic = true → fieldEntity? p id = some e →
    fieldEntity? p id' = some e' → e.addr = e'.addr → id = id'
  class_ge : ∀ cls e, classEntity? p cls = some e →
    e.base = .sb ∧ (staticSize p : Int) ≤ e.addr
  class_next : ∀ cls cls' c e e', p.class? cls = some c → classEntity? p cls = some e →
    classEntity? p cls' = some e' → cls < cls' →
    e.addr + (3 + c.instanceMethods.length) ≤ e'.addr

theorem Package.Typed.laidOut {p : Package} (hp : p.Typed) : p.LaidOut where
  static_lt := by
    intro id f hf hstat
    obtain ⟨k, he, hk⟩ := Simulation.exists_static hp hf hstat
    refine ⟨_, k, he, rfl, rfl, ?_⟩
    rw [← Simulation.length_staticIds hp]
    exact (List.getElem?_eq_some_iff.1 hk).1
  static_inj := by
    intro id id' f f' e e' hf hstat hf' hstat' he he' ha
    obtain ⟨k, he₁, hk⟩ := Simulation.exists_static hp hf hstat
    obtain ⟨k', he₂, hk'⟩ := Simulation.exists_static hp hf' hstat'
    cases he.symm.trans he₁
    cases he'.symm.trans he₂
    obtain rfl : k = k' := Int.ofNat.inj ha
    exact Option.some.inj (hk.symm.trans hk')
  class_ge := by
    intro cls e he
    obtain ⟨c, -, rfl⟩ := Option.map_eq_some_iff.1 he
    refine ⟨rfl, ?_⟩
    simp only [descriptorAddr]
    omega
  class_next := by
    intro cls cls' c e e' hc he he' hlt
    obtain ⟨c₁, -, rfl⟩ := Option.map_eq_some_iff.1 he
    obtain ⟨c₂, -, rfl⟩ := Option.map_eq_some_iff.1 he'
    have hget : (p.classes.map descriptorWords)[cls]? = some (descriptorWords c) := by
      rw [getElem?_map]
      exact congrArg (Option.map _) hc
    have hnext := Simulation.total_take_succ hget
    have hmono := Simulation.total_take_mono (p.classes.map descriptorWords) (Nat.succ_le_of_lt hlt)
    have hws : descriptorWords c = 3 + c.instanceMethods.length := rfl
    simp only [descriptorAddr, map_take]
    rw [Nat.succ_eq_add_one] at hmono
    omega

/-! ### The words on the stack -/

namespace Simulation

open Machine.Exec

/-- The machine has made a number of steps of a program, and has the low bits of numbers on its
stack. -/
structure Laid (a : Assembly) (size pc : Nat) (ws : List Int) (m : Machine) : Prop where
  program : m.program = a.program
  state : m.state = .running
  cp : m.cp = pc
  lb : m.lb = 0
  st : m.st = ws.length
  ht : m.ht = size
  hb : m.hb = size
  words : ∀ (k : Nat) (d : Int), ws[k]? = some d → m.peek k = (Int32.ofInt d).toInt

variable {a : Assembly} {size pc : Nat} {ws : List Int} {m : Machine}

section

variable (h : Laid a size pc ws m)

include h

theorem Laid.instrAt? (hi : a.program[pc]? = some i) : m.instrAt? m.cp = some i := by
  have hcp : ¬ (pc : Int) < 0 := by omega
  simp [Machine.instrAt?, h.cp, h.program, hcp, hi]

theorem Laid.step {op : Opcode} {n d : Int} {r : Reg} (hi : a.program[pc]? = some (.make op n r d))
    (hlt : pc' < a.program.size) (hop : Ensures (operation op (.make op n r d) (pc + 1)) m
      (fun next m' => next = pc' ∧ Laid a size pc' ws' (m'.withCP pc')) fun _ _ => False) :
    Laid a size pc' ws' m.step.1 := by
  refine (step_iff h.state (h.instrAt? hi) fun r => Laid a size pc' ws' r.1).2 ?_
  rw [ensures_instruction (Opcode.ofCode?_code op), h.cp]
  refine hop.mono ?_ fun _ _ => False.elim
  rintro next m' ⟨rfl, hm'⟩
  have hct : m'.ct = a.program.size := congrArg (fun p : Program => (p.size : Int)) hm'.program
  rw [if_pos ⟨by omega, by omega⟩]
  exact hm'

theorem Laid.jump {target : Nat} (hi : a.program[pc]? = some (.make .jump 0 .cb target)) (hlt : target < a.program.size)
    (hsize : (a.program.size : Int) ≤ maxInt64) : Laid a size target ws m.step.1 := by
  refine h.step hi hlt ?_
  have hreg : m.reg .cb + (target : Int) = target := Int.zero_add _
  have hmem : minInt64 ≤ (target : Int) ∧ (target : Int) ≤ maxInt64 := by
    simp only [minInt64] at *
    omega
  simp only [operation, ensures_effective hreg hmem, true_and]
  exact { h with cp := rfl, words := h.words }

theorem peek_push (hroom : ws.length < size) (d : Int) (k : Nat) (d' : Int)
    (hk : (ws ++ [d])[k]? = some d') :
    (m.poke ws.length d).peek k = (Int32.ofInt d').toInt := by
  have hin : ws.length < m.data.size := by
    have := h.hb
    simp only [hb] at this
    omega
  by_cases hlast : k = ws.length
  · subst hlast
    obtain rfl : d = d' := by simpa using hk
    simp [peek, poke, hin]
  · have hlt := (List.getElem?_eq_some_iff.1 hk).1
    rw [length_append, length_singleton] at hlt
    rw [getElem?_append_left (by omega)] at hk
    rw [m.peek_poke_of_ne d (Int.natCast_nonneg _) (Int.natCast_nonneg _) (by omega)]
    exact h.words k d' hk

theorem Laid.literal {d : Int} (hi : a.InstrAt pc (.make .loadl 0 .zr d)) (hroom : ws.length < size) :
    Laid a size (pc + 1) (ws ++ [d]) m.step.1 := by
  refine h.step hi.get hi.lt ?_
  have hsp : (1 : Int) ≤ m.ht - m.st := by
    rw [h.ht, h.st]
    omega
  have hin : 0 ≤ m.st ∧ m.st < m.hb := by
    rw [h.hb, h.st]
    omega
  have hd : (Instr.make .loadl 0 .zr d).d = d := rfl
  simp only [operation, push, checkSpace, hd, ensures_bind, ensures_get, ensures_require, hsp,
    decide_true, ↓reduceIte, ensures_setWord, hin, and_self, ensures_setST, ensures_pure]
  refine ⟨by omega, h.program, h.state, rfl, h.lb, ?_, h.ht, ?_, ?_⟩
  · simp [h.st]
  · simp [h.hb]
  · intro k d' hk
    rw [h.st]
    exact peek_push h hroom d k d' hk

theorem Laid.after {n pc' : Nat} (hpus : a.Pushes n pc ds pc')
    (hr : ws.length + ds.length ≤ size) (hsize : (a.program.size : Int) ≤ maxInt64) :
    Laid a size pc' (ws ++ ds) (m.after n) := by
  induction hpus generalizing ws m with
  | done => rwa [append_nil]
  | @literal n pc pc' d ds hi _ ih =>
    rw [length_cons] at hr
    have hrest := ih (h.literal hi (by omega)) (by rw [length_append, length_singleton]; omega)
    rw [append_assoc, singleton_append] at hrest
    rw [Nat.add_comm, after_add]
    exact hrest
  | jump hi htgt _ ih =>
    rw [Nat.add_comm, after_add]
    exact ih (h.jump hi.get htgt hsize) hr

end

theorem laid_statics {n : Nat} (h : Laid a size pc [] m) (hzero : ∀ x, m.peek x = 0)
    (hi : a.InstrAt pc (.make .push 0 .zr n)) (hroom : n ≤ size) :
    Laid a size (pc + 1) (List.replicate n 0) m.step.1 := by
  refine h.step hi.get hi.lt ?_
  have hst : m.st = 0 := h.st
  have hsp : (n : Int) ≤ m.ht - 0 := by
    rw [h.ht]
    omega
  have hd : (Instr.make .push 0 .zr n).d = n := rfl
  simp only [operation, checkSpace, hd, ensures_bind, ensures_get, ensures_require, hsp, hst,
    Int.natCast_nonneg, decide_true, ↓reduceIte, ensures_setST, ensures_pure, Int.zero_add]
  refine ⟨by omega, h.program, h.state, rfl, h.lb, ?_, h.ht, h.hb, ?_⟩
  · simp
  · intro k d hk
    obtain ⟨-, rfl⟩ : k < n ∧ 0 = d := by simpa [getElem?_replicate] using hk
    exact hzero k

theorem laid_reset (hm : m.program = a.program) (hpos : 0 < a.program.size) :
    Laid a m.data.size 0 [] m.reset ∧ ∀ x, m.reset.peek x = 0 := by
  have hemp : m.program.isEmpty = false := by
    rw [hm, Array.isEmpty, decide_eq_false_iff_not]
    omega
  have hres : m.reset = { m with
      data := Array.replicate m.data.size 0, cp := 0, st := 0, lb := 0, ht := m.data.size, ob := 0
      state := .running, lastChar := 0, paused := false } := by
    simp [reset, hemp]
  rw [hres]
  refine ⟨⟨hm, rfl, rfl, rfl, rfl, rfl, ?_, fun _ _ h => by cases h⟩, fun x => ?_⟩
  · simp [hb]
  · simp only [peek, Array.getD_eq_getD_getElem?, Array.getElem?_replicate]
    split <;> rfl

end Simulation

/-! ### Programs -/

def Machine.HasWords (m : Machine) (addr : Int) (ds : List Int) : Prop :=
  ∀ (k : Nat) (d : Int), ds[k]? = some d → m.peek (addr + k) = (Int32.ofInt d).toInt

/-- The addresses are those of the code of the methods of instances of a class, in the order of the
declarations. -/
structure Assembly.Entries (a : Assembly) (cls : Nat) (c : ClassDecl) (addrs : List Int) : Prop where
  length : addrs.length = c.instanceMethods.length
  get : ∀ i d, c.methods[i]? = some d → d.isStatic = false →
    ∃ b, a.body? ⟨cls, i⟩ = some b ∧ b.decl = d ∧ a.CodeAt b.addr b.code ∧
      addrs[methodSlot c i]? = some (b.addr : Int)

/-- The machine is about to call the method where the program starts: the static fields are zero, and
the descriptors lie at the addresses of their classes. -/
structure Assembly.Prepared (a : Assembly) (m : Machine) : Prop where
  state : m.state = .running
  cp : m.cp = a.program.size - 3
  lb : m.lb = 0
  st : m.st = staticSize a.package +
    total (a.package.classes.map fun c => 3 + c.instanceMethods.length)
  statics : ∀ x : Nat, x < staticSize a.package → m.peek x = 0
  descriptors : ∀ cls c e, a.package.class? cls = some c →
    classEntity? a.package cls = some e → ∃ addrs, a.Entries cls c addrs ∧
      m.HasWords e.addr (-1 :: instanceWords c :: c.instanceMethods.length :: addrs)

namespace Assembly

variable {p : Package} {dynamic : Bool} {entry : MemberId} {cls : Nat} {part : Code.Part}

theorem entries_part (hp : (ofPackage p dynamic entry).parts[cls]? = some part) :
    (ofPackage p dynamic entry).Entries cls part.decl (part.instanceBodies.map fun b => (b.addr : Int)) where
  length := by
    rw [length_map, Code.Part.length_instanceBodies (part_decl hp).2.2]
  get := by
    intro i d hd hstat
    have hcls := (part_decl hp).1
    have hmeth : p.method? ⟨cls, i⟩ = some d := by
      simp only [Package.method?, hcls]
      exact hd
    obtain ⟨b, hb, rfl, -⟩ := exists_body dynamic entry hmeth
    refine ⟨b, hb, rfl, codeAt_body hb, ?_⟩
    have hslot := getElem?_instanceBodies hp hb hstat
    rw [getElem?_map, hslot]
    rfl

theorem total_steps (p : Package) (dynamic : Bool) (entry : MemberId) :
    total ((ofPackage p dynamic entry).parts.map fun part => part.descriptor.length + 1) =
      total (p.classes.map fun c => 4 + c.instanceMethods.length) := by
  have hlen := map_length_descriptor p dynamic entry
  have hmap := congrArg (List.map (· + 1)) hlen
  rw [map_map, map_map] at hmap
  refine congrArg total (hmap.trans (map_congr_left fun c _ => ?_))
  simp only [Function.comp, descriptorWords, descriptorMethods]
  omega

theorem prepared_of_laid {size : Nat} (h : Simulation.Laid (ofPackage p dynamic entry) size
      (1 + (join ((ofPackage p dynamic entry).parts.map (·.code))).size)
      (List.replicate (staticSize p) 0 ++
        (ofPackage p dynamic entry).parts.flatMap Code.Part.descriptor) m) :
    (ofPackage p dynamic entry).Prepared m where
  state := h.state
  cp := by
    rw [h.cp, size_ofPackage]
    simp only [startCode, size_append, size_one, size_literal, size_callOf]
    omega
  lb := h.lb
  st := by
    have hlen := map_length_descriptor p dynamic entry
    rw [h.st, length_append, length_replicate, length_flatMap, hlen, Int.natCast_add]
    rfl
  statics := by
    intro k (hk : k < staticSize p)
    refine h.words k 0 ?_
    rw [getElem?_append_left (by rwa [length_replicate])]
    simp [hk]
  descriptors := by
    intro cls c e hc he
    obtain ⟨part, hp, rfl⟩ := exists_part dynamic entry hc
    obtain ⟨c', -, rfl⟩ := Option.map_eq_some_iff.1 he
    refine ⟨_, entries_part hp, fun k d hk => ?_⟩
    rw [← Code.Part.length_instanceBodies (part_decl hp).2.2] at hk
    have hget := getElem?_flatMap hp (f := Code.Part.descriptor) (k := k) (y := d) hk
    rw [map_take, map_length_descriptor, ← map_take] at hget
    have hword := h.words (descriptorAddr p cls + k) d (by
      rw [getElem?_append_right (by rw [length_replicate, descriptorAddr]; omega),
        length_replicate, descriptorAddr, Nat.add_assoc, Nat.add_sub_cancel_left]
      exact hget)
    rwa [Int.natCast_add] at hword

end Assembly

/-- A program lays out its data before it calls the method where it starts.  The addresses of static
fields and descriptors are apart, and a machine with room for them that was reset makes one step and
`4 + k` for each class with `k` methods of instances, until the words are at these addresses. -/
theorem Compiler.prologue_prepares {c : Compiler} {name : String} {source : List UInt8}
    {object : Object} (h : c.compile name source = .ok object) (hlimit : c.maxCodeSize ≤ maxInt64) :
    ∃ p entry, Package.checked? (Path.base name) source = some p ∧ p.entry = some entry ∧
      object.program = (Assembly.ofPackage p c.dynamic entry).program ∧ p.LaidOut ∧
      ∀ m : Machine, m.program = object.program →
        Layout.staticSize p + total (p.classes.map fun c => 3 + c.instanceMethods.length) ≤
          m.data.size →
        (Assembly.ofPackage p c.dynamic entry).Prepared
          (m.reset.after (1 + total (p.classes.map fun c => 4 + c.instanceMethods.length))) := by
  obtain ⟨p, entry, hchecked, hp, hentry, hprogram, hfits⟩ := Compiler.exists_checked h
  refine ⟨p, entry, hchecked, hentry, hprogram, hp.laidOut, fun m hm hroom => ?_⟩
  have hsize : ((Assembly.ofPackage p c.dynamic entry).program.size : Int) ≤ maxInt64 := by
    rw [← hprogram]
    omega
  have hpos : 0 < (Assembly.ofPackage p c.dynamic entry).program.size := by
    rw [Assembly.size_ofPackage]
    omega
  have hlength := Assembly.map_length_descriptor p c.dynamic entry
  obtain ⟨hlaid, hzero⟩ := Simulation.laid_reset (hm.trans hprogram) hpos
  have hstart := (Assembly.codeAt_start p c.dynamic entry).left.left.one
  have hstatics := Simulation.laid_statics hlaid hzero hstart (by omega)
  have hpushed := hstatics.after (Assembly.pushes_parts p c.dynamic entry) (by
    rw [List.length_replicate, length_flatMap, hlength]
    exact hroom) hsize
  rw [Machine.after_add, ← Assembly.total_steps p c.dynamic entry]
  exact Assembly.prepared_of_laid hpushed

/-- The program that calls a method has its data in place before it starts. -/
theorem Compiler.prologue_prepares_callsMethod : ∃ object p entry size m,
    Compiler.compile ⟨true, 1024⟩ "M" callsMethod = .ok object ∧
    Package.checked? "M" callsMethod = some p ∧ p.LaidOut ∧
    Machine.load "M" object ⟨some size, some 1024, true, false, []⟩ .empty .empty = .ok m ∧
    (Assembly.ofPackage p true entry).Prepared
      (m.reset.after (1 + total (p.classes.map fun c => 4 + c.instanceMethods.length))) := by
  obtain ⟨p, object, -, hp, -, hobject, -, -, -, hcode⟩ := callsMethod_evaluated true
  have hcompile := (Compiler.compile_of_checked (c := ⟨true, 1024⟩) "M" hp).trans hobject
  obtain ⟨q, entry, hq, -, -, hlaid, hprepared⟩ := Compiler.prologue_prepares hcompile (by decide)
  cases hp.symm.trans hq
  have hsize : object.program.size = 32 := congrArg List.length hcode
  let room := Layout.staticSize p + total (p.classes.map fun c => 3 + c.instanceMethods.length)
  have hload : ∃ m, Machine.load "M" object ⟨some (room + 4 : Nat), some 1024, true, false, []⟩ .empty
      .empty = .ok m :=
    Simulation.exists_load "M" true false .empty .empty
      (by simp only [Machine.linkWords]; omega) (by decide) (by omega)
  obtain ⟨m, hm⟩ := hload
  have hfresh := Machine.fresh_of_load hm
  refine ⟨object, p, entry, _, m, hcompile, hp, hlaid, hm, hprepared m hfresh.program_eq ?_⟩
  rw [hfresh.data_eq, Array.size_replicate]
  show room ≤ _
  simp only [Option.getD_some]
  omega

end MiniJam
