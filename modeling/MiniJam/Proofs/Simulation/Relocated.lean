import MiniJam.Proofs.Code.Heights
import MiniJam.Proofs.Machine.Alike

/-!
# Where the primitive routines lie

The primitive routines have the addresses that follow the capacity of the code segment, and a call is
one of a primitive routine if its address is one of these.  Compiled code does not depend on where
they lie: an instruction calls a primitive routine by its number, and a method by an address of the
program (`Instr.Portable`).  So machines that run the same compiled program with code segments of
different capacities are in the same state after every step (`Compiler.capacity_unseen`).

The sum of the capacity and the number of the primitive routines must be a 64 bit integer.  Behind a
code segment that is larger the routines have no addresses (`Compiler.capacity_seen`).
-/

namespace MiniJam

/-- The instruction does the same wherever the primitive routines lie behind a program of `top`
instructions. -/
inductive Instr.Portable (top : Int) : Instr → Prop
  | prim (q : Prim) : Portable top (.ofPrim q)
  | call {n d : Int} (h : 0 ≤ d ∧ d < top) : Portable top (.make .call n .cb d)
  | other {op : Opcode} {n d : Int} {r : Reg} (hop : op ≠ .call) (hr : r ≠ .pb ∧ r ≠ .pt) :
    Portable top (.make op n r d)

namespace Machine

namespace Exec

variable {O : Output → Output → Prop} {m : Machine} {top c c' next : Int}

theorem operation_call {n d : Int} (hm : Addresses top m.capacity) (hd : 0 ≤ d ∧ d < top) :
    operation .call (.make .call n .cb d) next m =
      (do checkSpace linkWords; pushFrame (← get).st 0; return d : Exec Int) m := by
  obtain ⟨hle, hmax⟩ := hm
  have haddr : wrap64 (0 + d) = d := by
    rw [Int.zero_add]
    refine wrap64_of_mem ?_
    simp only [minInt64, Prim.count] at *
    omega
  have heff : effective (.make .call n .cb d) m = .ok d m := by
    nth_rewrite 2 [← haddr]
    rfl
  have hprim : ¬ (m.pb ≤ d ∧ d < m.pt) := by
    simp only [pb]
    omega
  have hcall : call d next m =
      (do checkSpace linkWords; pushFrame (← get).st 0; return d : Exec Int) m := by
    show (if m.pb ≤ d ∧ d < m.pt then _ else _ : Exec Int) m = _
    rw [if_neg hprim]
  show (effective (.make .call n .cb d) >>= fun a => call a next) m = _
  simp only [Bind.bind, EStateM.bind, heff]
  exact hcall

theorem agrees_portable (hO : Output.Tracks O) (htop : 0 ≤ top) (hc : Addresses top c)
    (hc' : Addresses top c') {i : Instr} (hi : i.Portable top) : Agrees c c' O (instruction i) := by
  cases hi with
  | prim q =>
    refine agrees_instruction_of hO (fun h => absurd (Opcode.ofCode?_code .call) h) fun _ next => ?_
    rintro m n h rfl rfl
    rw [operation_prim htop hc, operation_prim htop hc']
    exact ((agrees_primitive hO q).bind fun _ => agrees_pure next) m n h rfl rfl
  | call hd =>
    refine agrees_instruction_of hO (fun h => absurd (Opcode.ofCode?_code .call) h) fun _ next => ?_
    rintro m n h rfl rfl
    rw [operation_call hc hd, operation_call hc' hd]
    exact agrees_enter _ m n h rfl rfl
  | @other op n d r hop hr =>
    refine agrees_instruction_of hO (fun _ => agrees_effective (.inr fun r' hr' => ?_)) fun h => ?_
    · cases (Reg.ofCode?_code r).symm.trans hr'
      exact hr
    · exact absurd (Option.some.inj ((Opcode.ofCode?_code op).symm.trans h)) hop

end Exec

variable {O : Output → Output → Prop} {m n : Machine}

theorem Akin.step_portable (hO : Output.Tracks O) (h : Akin O m n) (hprog : n.program = m.program)
    (hpor : ∀ i ∈ m.program, i.Portable m.ct) (hm : Addresses m.ct m.capacity)
    (hn : Addresses m.ct n.capacity) : Akin O m.step.1 n.step.1 := by
  have hs : n.instrAt? n.cp = m.instrAt? m.cp := by simp only [instrAt?, h.cp, hprog]
  cases hi : m.instrAt? m.cp with
  | none => exact (h.step_none hi (hs.trans hi)).1
  | some i =>
    have hct : 0 ≤ m.ct := Int.natCast_nonneg _
    refine (h.step_of hi (hs.trans hi) fun _ => ?_).1
    exact Exec.agrees_portable hO hct hm hn (hpor i (instrAt?_mem hi)) m n h rfl rfl

theorem Akin.after_portable (hO : Output.Tracks O) (h : Akin O m n)
    (hprog : n.program = m.program) (hpor : ∀ i ∈ m.program, i.Portable m.ct)
    (hm : Addresses m.ct m.capacity) (hn : Addresses m.ct n.capacity) (k : Nat) :
    Akin O (m.after k) (n.after k) := by
  induction k with
  | zero => exact h
  | succ k ih =>
    have hmk := congrArg Setting.program (m.setting_after k)
    have hnk := congrArg Setting.program (n.setting_after k)
    have hcm := congrArg Setting.capacity (m.setting_after k)
    have hcn := congrArg Setting.capacity (n.setting_after k)
    simp only [setting] at hmk hnk hcm hcn
    have hct : (m.after k).ct = m.ct := by simp only [Machine.ct, hmk]
    refine ih.step_portable hO ?_ ?_ ?_ ?_
    · rw [hmk, hnk, hprog]
    · rwa [hmk, hct]
    · rwa [hct, hcm]
    · rwa [hct, hcn]

def Options.withCapacity (o : Options) (capacity : Int) : Options :=
  { o with capacity := some capacity }

/-- A program that can be loaded can be loaded into a code segment of another capacity, and the
machines start in the same state. -/
theorem load_capacity {name : String} {object : Object} {o : Options} {input : Input}
    {output : Output} {a b : Int} (hb : 0 < b) (hfits : object.program.size ≤ b)
    (h : load name object (o.withCapacity a) input output = .ok m) :
    ∃ n, load name object (o.withCapacity b) input output = .ok n ∧ Akin Eq m n ∧
      m.program = object.program ∧ n.program = object.program ∧ m.capacity = a ∧ n.capacity = b := by
  obtain ⟨hsto, -, -, bs, hbs, rfl⟩ := load_ok_iff.1 h
  have hct : (blank name object (o.withCapacity b) input output).ct =
      (blank name object (o.withCapacity a) input output).ct := rfl
  exact ⟨_, load_ok_iff.2 ⟨hsto, hb, hfits, bs, setBreakpoints_of_ct hct rfl hbs, rfl⟩,
    akin_reset rfl rfl rfl rfl rfl rfl, program_reset _, program_reset _, capacity_reset _,
    capacity_reset _⟩

end Machine

/-! ### Compiled sources -/

namespace Assembly

variable {p : Package} {dynamic : Bool} {entry : MemberId}

theorem portable_program (hp : p.Typed) (hent : p.entry = some entry) :
    ∀ i ∈ (ofPackage p dynamic entry).program,
      i.Portable (ofPackage p dynamic entry).program.size := by
  intro i hi
  obtain ⟨item, hitem, rfl⟩ : ∃ item ∈ (ofPackage p dynamic entry).code.items,
      (ofPackage p dynamic entry).link item = i := by simpa [program] using hi
  have hoth : ∀ {op : Opcode} {ops : List Opcode}, op ∈ ops → .call ∉ ops → op ≠ .call := by
    rintro op ops hop hc rfl
    exact hc hop
  have hform := (sealed_ofPackage dynamic hp hent).forms item hitem
  cases hform with
  | stack hop | jump hop => exact .other (hoth hop (by decide)) (by decide)
  | @access line n d op r hop hr =>
    refine .other (hoth hop (by decide)) ⟨?_, ?_⟩ <;> (rintro rfl; exact absurd hr (by decide))
  | prim q => exact .prim q
  | @call line op id _ hop _ hm =>
    obtain ⟨b, hb, -⟩ := exists_body dynamic entry hm
    have hlink : (ofPackage p dynamic entry).link ⟨.make op 0 .cb 0, line, some id⟩ =
        .make op 0 .cb b.addr := by simp [link, hb, Instr.make]
    have hlt := (codeAt_body hb).lt
    rw [hlink]
    by_cases hc : op = .call
    · rw [hc]
      exact .call (by omega)
    · exact .other hc (by decide)

end Assembly

/-- Machines that run the same compiled program with code segments of different capacities are in the
same state after every step, if the primitive routines have addresses behind both of them. -/
theorem Compiler.capacity_unseen {c : Compiler} {name : String} {source : List UInt8}
    {object : Object} (h : c.compile name source = .ok object) {machine : String}
    {o : Machine.Options} {input : Input} {output : Output} {a b : Int}
    (ha : Machine.Addresses object.program.size a) (hb : Machine.Addresses object.program.size b)
    {m : Machine} (hm : Machine.load machine object (o.withCapacity a) input output = .ok m) :
    ∃ n, Machine.load machine object (o.withCapacity b) input output = .ok n ∧
      ∀ k, Machine.Akin Eq (m.after k) (n.after k) := by
  obtain ⟨p, entry, -, htyped, hentry, hprogram, -⟩ := Compiler.exists_checked h
  have hsize : 0 < object.program.size := by
    rw [hprogram, Assembly.size_ofPackage]
    omega
  have hle := hb.1
  obtain ⟨n, hn, hakin, hm', hn', hma, hnb⟩ := Machine.load_capacity (by omega) hb.1 hm
  have hct : m.ct = object.program.size := by rw [Machine.ct, hm']
  refine ⟨n, hn, fun k => hakin.after_portable Output.tracks_eq (hn'.trans hm'.symm) ?_ ?_ ?_ k⟩
  · rw [hct, hm', hprogram]
    exact Assembly.portable_program htyped hentry
  · rwa [hct, hma]
  · rwa [hct, hnb]

def smallMachine : Machine.Options := ⟨some 40, none, true, false, []⟩

theorem callsMethod_halts (symbols : Option Symbols) : ∃ m,
    Machine.load "M" ⟨(callsMethodCode false).toArray, symbols⟩ (smallMachine.withCapacity 32) .empty
      .empty = .ok m ∧ (m.after 31).state = .halted := by
  have h : ((Machine.load "M" ⟨(callsMethodCode false).toArray, none⟩ (smallMachine.withCapacity 32)
      .empty .empty).toOption.any fun m => decide ((m.after 31).state = .halted)) = true := by
    decide +kernel
  obtain ⟨m, hm, h⟩ := (Option.any_eq_true _ _).1 h
  exact ⟨m, eq_ok_of_toOption hm, of_decide_eq_true h⟩

/-- The program that calls a method halts also in the largest code segment behind which the primitive
routines have addresses. -/
theorem Compiler.capacity_unseen_callsMethod : ∃ object n,
    Compiler.compile ⟨false, 1024⟩ "M" callsMethod = .ok object ∧
    Machine.Addresses object.program.size 9223372036854775772 ∧
    Machine.load "M" object (smallMachine.withCapacity 9223372036854775772) .empty .empty = .ok n ∧
    (n.after 31).state = .halted := by
  obtain ⟨p, ⟨program, symbols⟩, -, hp, -, hobject, -, -, -, hcode⟩ := callsMethod_evaluated false
  obtain rfl : program = (callsMethodCode false).toArray := Array.toList_inj.1 hcode
  have hcompile := (Compiler.compile_of_checked (c := ⟨false, 1024⟩) "M" hp).trans hobject
  obtain ⟨m, hm, hhalt⟩ := callsMethod_halts symbols
  have hsmall : Machine.Addresses (callsMethodCode false).toArray.size 32 := ⟨by decide, by decide⟩
  have hlarge : Machine.Addresses (callsMethodCode false).toArray.size 9223372036854775772 :=
    ⟨by decide, by decide⟩
  obtain ⟨n, hn, hakin⟩ := Compiler.capacity_unseen hcompile hsmall hlarge hm
  exact ⟨_, n, hcompile, hlarge, hn, (hakin 31).state.trans hhalt⟩

/-- In a code segment with room for one more instruction, the first call of a primitive routine leads
to an address outside the code. -/
theorem Compiler.capacity_seen : ∃ object m n,
    Compiler.compile ⟨false, 1024⟩ "M" callsMethod = .ok object ∧
    Machine.load "M" object (smallMachine.withCapacity 32) .empty .empty = .ok m ∧
    Machine.load "M" object (smallMachine.withCapacity 9223372036854775773) .empty .empty = .ok n ∧
    (m.after 31).state = .halted ∧
    (n.after 31).state = .failed (.codeAddress 9223372036854775802 32) := by
  obtain ⟨p, ⟨program, symbols⟩, -, hp, -, hobject, -, -, -, hcode⟩ := callsMethod_evaluated false
  obtain rfl : program = (callsMethodCode false).toArray := Array.toList_inj.1 hcode
  have hcompile := (Compiler.compile_of_checked (c := ⟨false, 1024⟩) "M" hp).trans hobject
  obtain ⟨m, hm, hhalt⟩ := callsMethod_halts symbols
  have h : ((Machine.load "M" ⟨(callsMethodCode false).toArray, none⟩
      (smallMachine.withCapacity 9223372036854775773) .empty .empty).toOption.any fun n =>
        decide ((n.after 31).state = .failed (.codeAddress 9223372036854775802 32))) = true := by
    decide +kernel
  obtain ⟨n, hn, h⟩ := (Option.any_eq_true _ _).1 h
  exact ⟨_, m, n, hcompile, hm, eq_ok_of_toOption hn, hhalt, of_decide_eq_true h⟩

end MiniJam
