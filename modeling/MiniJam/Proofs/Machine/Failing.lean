import MiniJam.Proofs.Machine.Rooted
import MiniJam.Proofs.Machine.Use

/-!
# Steps that fail

A step that fails writes nothing to the data store and leaves the code pointer where it is, unless it
fails because it leaves the code.  A call of code, or of a primitive that computes with words or with
the heap, leaves the registers as they are, too (`Machine.failing_step_writes_nothing`).

Nothing is assumed of the stack top here: the footing of the machine is not tidy, which lets a return
be as any other instruction.
-/

namespace MiniJam

open Option

namespace Machine

/-- Whether an instruction is a call of code, or of a primitive that computes. -/
def plainCall (m : Machine) (i : Instr) : Bool :=
  match Opcode.ofCode? i.op with
  | some .call => (m.callee? i).all Prim.computes
  | some .calli | some .calld => true
  | _ => false

namespace Exec

variable {c : Footing} {m : Machine}

theorem refuses_plainCall (hm : m.Rooted c) {op : Opcode} {i : Instr}
    (hop : Opcode.ofCode? i.op = some op) (h : m.plainCall i = true) (next : Int) :
    Refuses Eq c (operation op i next) m := by
  rw [plainCall, hop] at h
  cases op with
  | call =>
    rw [operation, effective]
    cases hr : Reg.ofCode? i.r with
    | none => exact ⟨hm, rfl, fun _ => trivial⟩
    | some r =>
      rw [callee?, hr, bind_some] at h
      refine refuses_call hm _ next fun q hq => refuses_computing hm ?_
      rwa [hq] at h
  | calli => exact (looks_effective i).andThen hm fun addr _ => refuses_callInstance hm addr
  | calld => exact refuses_callDynamic hm i.d
  | load | loada | loadi | loadl | store | storei | ret | push | pop | jump | jumpi | jumpif | halt =>
    cases h

theorem ensures_instruction_unwritten (hc : c.tidy = false) (hm : m.Rooted c) (i : Instr) :
    Ensures (instruction i) m (fun _ m' => m'.Rooted c ∧ 0 ≤ m'.cp ∧ m'.cp < m'.ct) fun e m' =>
      m'.Rooted c ∧ ((∃ addr top, e = .failure (.codeAddress addr top)) ∨
        Unwritten m m' ∧ (m.plainCall i = true → m = m')) := by
  cases hop : Opcode.ofCode? i.op with
  | none =>
    simp only [instruction, hop, ensures_bind, ensures_get]
    exact ⟨hm, .inr ⟨Std.Refl.refl m, fun _ => rfl⟩⟩
  | some op =>
    refine ensures_instruction_rooted hop ?_ fun _ _ _ hm' => ⟨hm', .inl ⟨_, _, rfl⟩⟩
    have hret : c.tidy = true → op ≠ .ret := by
      rw [hc]
      intro h
      cases h
    by_cases hplai : m.plainCall i = true
    · refine (refuses_plainCall hm hop hplai _).mono (fun _ _ => id) fun e m' h => ⟨h.1, .inr ?_⟩
      exact h.2.1 ▸ ⟨Std.Refl.refl m, fun _ => rfl⟩
    · refine (refuses_operation hm hret i _).mono (fun _ _ => id) fun e m' h => ⟨h.1, .inr ⟨h.2.1, ?_⟩⟩
      exact fun h => absurd h hplai

end Exec

/-! ### Steps -/

/-- Carries out an instruction, be it the one at the code pointer or not. -/
def perform (m : Machine) (i : Instr) : Machine × Option Fault :=
  match Exec.instruction i m with
  | .ok _ m => (m, none)
  | .error stop m => m.stopped stop

/-- The registers that lead to the stack, to the heap and to the current object are the same. -/
structure SameRegisters (m m' : Machine) : Prop where
  st : m'.st = m.st
  lb : m'.lb = m.lb
  ht : m'.ht = m.ht
  ob : m'.ob = m.ob

variable {m : Machine}

theorem perform_iff (i : Instr) (Q : Machine × Option Fault → Prop) :
    Q (m.perform i) ↔ Exec.Ensures (Exec.instruction i) m (fun _ m => Q (m, none))
      (fun e m => Q (m.stopped e)) := by
  simp only [perform, Exec.Ensures]
  cases Exec.instruction i m <;> exact Iff.rfl

theorem step_eq_perform (hrun : m.state = .running) (hi : m.instrAt? m.cp = some i) :
    m.step = m.perform i := by
  simp only [step, hrun, advance, hi]
  rfl

/-- The machine is rooted, and it is at an instruction if it can go on. -/
structure Live (m : Machine) : Prop where
  rooted : m.Rooted ⟨false, m.program, m.hb, m.state⟩
  cp_mem : m.state = .running → 0 ≤ m.cp ∧ m.cp < m.ct

theorem Live.instrAt? (h : m.Live) (hrun : m.state = .running) : ∃ i, m.instrAt? m.cp = some i := by
  obtain ⟨h₀, h₁⟩ := h.cp_mem hrun
  have hlt : m.cp.toNat < m.program.size := by
    simp only [ct] at h₁
    omega
  exact ⟨m.program[m.cp.toNat], by simp [Machine.instrAt?, Int.not_lt.2 h₀, hlt]⟩

theorem Live.unwritten_of_failed (h : m.Live) (hrun : m.state = .running)
    (hfail : (m.perform i).1.state = .failed why) (hwhy : why.condition ≠ .invalidCodeAddress) :
    Unwritten m (m.perform i).1 ∧ (m.plainCall i = true → SameRegisters m (m.perform i).1) := by
  revert hfail
  refine (perform_iff i fun r => r.1.state = .failed why → Unwritten m r.1 ∧
    (m.plainCall i = true → SameRegisters m r.1)).2 ?_
  refine (Exec.ensures_instruction_unwritten rfl h.rooted i).mono (fun _ m' hm' hfail => ?_) ?_
  · rw [hm'.1.state_eq, hrun] at hfail
    cases hfail
  · rintro e m' ⟨hm', hout | ⟨hsame, hplai⟩⟩ hfail
    · obtain ⟨addr, top, rfl⟩ := hout
      cases hfail
      exact absurd rfl hwhy
    · -- What makes a machine stop touches neither its data nor its registers.
      have hstop : Unwritten m' (m'.stopped e).1 ∧ SameRegisters m' (m'.stopped e).1 := by
        cases e with
        | halt | failure => exact ⟨⟨rfl, rfl⟩, rfl, rfl, rfl, rfl⟩
        | fault f =>
          unfold stopped
          split_ifs <;> exact ⟨⟨rfl, rfl⟩, rfl, rfl, rfl, rfl⟩
      refine ⟨hsame.trans hstop.1, fun hcall => ?_⟩
      obtain rfl := hplai hcall
      exact hstop.2

/-- What is said of a machine that need not be tidy, by the numbers in its registers. -/
theorem rooted_untidy_iff : m.Rooted ⟨false, m.program, m.hb, m.state⟩ ↔
    0 ≤ m.st ∧ 0 ≤ m.ht ∧ m.ht ≤ m.hb :=
  ⟨fun h => ⟨h.st_nonneg, h.ht_nonneg, h.ht_le⟩, fun h => ⟨h.1, h.2.1, h.2.2, nofun, rfl, rfl, rfl⟩⟩

theorem Rooted.stopped {c : Footing} (hm : m.Rooted c) (e : Stop) :
    (m.stopped e).1.Rooted ⟨false, (m.stopped e).1.program, (m.stopped e).1.hb,
      (m.stopped e).1.state⟩ := by
  have hs : (m.stopped e).1.st = m.st ∧ (m.stopped e).1.ht = m.ht ∧
      (m.stopped e).1.hb = m.hb := by
    cases e with
    | halt | failure => exact ⟨rfl, rfl, rfl⟩
    | fault f =>
      unfold Machine.stopped
      split_ifs <;> exact ⟨rfl, rfl, rfl⟩
  rw [rooted_untidy_iff, hs.1, hs.2.1, hs.2.2]
  exact ⟨hm.st_nonneg, hm.ht_nonneg, hm.ht_le⟩

/-! ### Reachable states -/

theorem Live.step (h : m.Live) : m.step.1.Live := by
  by_cases hrun : m.state = .running
  · obtain ⟨i, hi⟩ := h.instrAt? hrun
    have hct : m.step.1.ct = m.ct := congrArg (fun p : Program => (p.size : Int)) m.program_step
    revert hct
    refine (step_iff hrun hi fun r => r.1.ct = m.ct → r.1.Live).2 ?_
    refine (Exec.ensures_instruction_unwritten rfl h.rooted i).mono (fun _ m' hm' _ => ?_) ?_
    · exact ⟨rooted_untidy_iff.2 ⟨hm'.1.st_nonneg, hm'.1.ht_nonneg, hm'.1.ht_le⟩, fun _ => hm'.2⟩
    · rintro e m' ⟨hm', hstop⟩ hct
      refine ⟨hm'.stopped e, fun hrun' => ?_⟩
      -- Only a fault that leaves the machine lets the program go on.
      cases e with
      | halt | failure => cases hrun'
      | fault f =>
        have hcp : (m'.stopped (.fault f)).1.cp = m.cp := by
          obtain ⟨addr, top, hout⟩ | ⟨hsame, -⟩ := hstop
          · cases hout
          · rw [← hsame.cp]
            unfold stopped
            split_ifs <;> rfl
        rw [hcp, hct]
        exact h.cp_mem hrun
  · rwa [step_of_not_running hrun]

theorem Live.paused (h : m.Live) (b : Bool) : Live { m with paused := b } :=
  ⟨rooted_untidy_iff.2 ((rooted_untidy_iff (m := m)).1 h.rooted), h.cp_mem⟩

theorem Live.runFrom (h : m.Live) (hrun : m.state = .running) {e : Nat} {r : Run}
    (hr : m.runFrom e = some r) : r.machine.Live := by
  refine runFrom.partial_correctness (fun _ m r => m.Live → m.state = .running → r.machine.Live)
    ?_ e m r hr h hrun
  intro f ih e m r hr h hrun
  have hadv : m.advance = m.step := by simp only [Machine.step, hrun]
  have hs := h.step
  rw [hadv] at hr
  generalize m.step = x at hr hs
  obtain ⟨m', _ | fault⟩ := x
  · simp only at hr
    split_ifs at hr with hstop hbrea
    · exact some.inj hr ▸ hs
    · exact some.inj hr ▸ hs.paused true
    · exact ih _ _ _ hr hs (not_not.1 hstop)
  · exact some.inj hr ▸ hs

theorem Live.run (h : m.Live) {r : Run} (hr : m.run = some r) : r.machine.Live := by
  rw [run_eq] at hr
  split_ifs at hr with hrun
  · exact (h.paused false).runFrom hrun hr
  · exact some.inj hr ▸ h.paused false

theorem live_reset (m : Machine) : m.reset.Live := by
  have hs : (m.data.size : Int) ≤ (Array.replicate m.data.size (0 : Int32)).size := by simp
  simp only [reset]
  split_ifs with hemp
  · exact ⟨rooted_untidy_iff.2 ⟨Int.le_refl 0, Int.natCast_nonneg _, hs⟩, fun h => by cases h⟩
  · refine ⟨rooted_untidy_iff.2 ⟨Int.le_refl 0, Int.natCast_nonneg _, hs⟩,
      fun _ => ⟨Int.le_refl 0, ?_⟩⟩
    simp only [Array.isEmpty_iff_size_eq_zero] at hemp
    simp only [ct]
    omega

theorem Live.withBreakpoints (h : m.Live) (bs : List Int) : (m.withBreakpoints bs).Live :=
  ⟨rooted_untidy_iff.2 ((rooted_untidy_iff (m := m)).1 h.rooted), h.cp_mem⟩

namespace Use

variable {u u' : Use}

theorem live_call (h : u.machine.Live) {c : Call} (hc : u.call c = some u') : u'.machine.Live := by
  cases c with
  | step =>
    cases hc
    exact h.step
  | run =>
    obtain ⟨r, hr, rfl⟩ := map_eq_some_iff.1 hc
    exact h.run hr
  | setBreakpoint addr =>
    simp only [Use.call, setBreakpoint] at hc
    split_ifs at hc
    · cases hc
      exact h.withBreakpoints _
    · cases hc
      exact h
  | clearBreakpoint addr =>
    cases hc
    exact h.withBreakpoints _
  | reset =>
    cases hc
    exact live_reset _

theorem live_calls (h : u.machine.Live) (hcs : u.calls cs = some u') : u'.machine.Live := by
  induction cs generalizing u with
  | nil =>
    cases hcs
    exact h
  | cons c cs ih =>
    obtain ⟨u₁, hc, hrest⟩ := bind_eq_some_iff.1 hcs
    exact ih (live_call h hc) hrest

/-- A machine that has stopped answers steps and runs, and nothing about it changes but whether it is
paused. -/
theorem calls_of_not_running (h : u.machine.state ≠ .running)
    (hcs : ∀ c ∈ cs, c = .step ∨ c = .run) :
    ∃ u' b, u.calls cs = some u' ∧ u'.machine = { u.machine with paused := b } := by
  induction cs generalizing u with
  | nil => exact ⟨u, u.machine.paused, rfl, rfl⟩
  | cons c cs ih =>
    obtain ⟨hc, hcs⟩ := List.forall_mem_cons.1 hcs
    -- One call keeps the state, so that the calls after it find a machine that has stopped.
    obtain ⟨u₁, b₁, hcall, hm⟩ : ∃ u₁ b₁, u.call c = some u₁ ∧
        u₁.machine = { u.machine with paused := b₁ } := by
      rcases hc with rfl | rfl
      · exact ⟨_, u.machine.paused, rfl, congrArg Prod.fst (step_of_not_running h)⟩
      · refine ⟨{ u with machine := u.machine.resumed }, false, ?_, rfl⟩
        rw [Use.call, run_of_not_running h]
        rfl
    obtain ⟨u', b, hrest, hm'⟩ := ih (by rwa [hm]) hcs
    refine ⟨u', b, ?_, by rw [hm', hm]⟩
    rw [Use.calls, List.foldlM_cons, hcall]
    exact hrest

end Use

/-- A step that fails writes nothing.  In every state that a loaded machine can be brought to, an
instruction that makes the program fail leaves the data store and the code pointer as they are,
unless it leaves the code; a call of code, or of a primitive that computes, leaves the registers as
they are, too.  A program that has stopped stays as it is. -/
theorem failing_step_writes_nothing {name : String} {object : Object} {o : Options} {input : Input}
    {output : Output} (hload : load name object o input output = .ok m) {cs : List Call} {u : Use}
    (hcs : (Use.start m).calls cs = some u) :
    (u.machine.state = .running →
      (∃ i, u.machine.instrAt? u.machine.cp = some i ∧ u.machine.step = u.machine.perform i) ∧
      ∀ i why, (u.machine.perform i).1.state = .failed why → why.condition ≠ .invalidCodeAddress →
        (u.machine.perform i).1.data = u.machine.data ∧
        (u.machine.perform i).1.cp = u.machine.cp ∧
        (u.machine.plainCall i = true → SameRegisters u.machine (u.machine.perform i).1)) ∧
    (u.machine.state ≠ .running → ∀ cs', (∀ c ∈ cs', c = .step ∨ c = .run) →
      ∃ u' b, u.calls cs' = some u' ∧ u'.machine = { u.machine with paused := b }) := by
  obtain ⟨-, -, -, bs, -, rfl⟩ := load_ok_iff.1 hload
  have hlive : u.machine.Live := Use.live_calls (live_reset _) hcs
  refine ⟨fun hrun => ⟨?_, fun i why hfailed hwhy => ?_⟩, fun hstop cs' hcs' => ?_⟩
  · obtain ⟨i, hi⟩ := hlive.instrAt? hrun
    exact ⟨i, hi, step_eq_perform hrun hi⟩
  · obtain ⟨hsame, hcall⟩ := hlive.unwritten_of_failed hrun hfailed hwhy
    exact ⟨hsame.data, hsame.cp, hcall⟩
  · exact Use.calls_of_not_running hstop hcs'

/-- A program that puts its stack top beyond the data store and divides there. -/
def dividesAbove : Object :=
  ⟨#[.make .loadl 0 .zr 0, .make .loadl 0 .zr 0, .make .loadl 0 .zr 4, .make .ret 0 .zr (-40),
    .ofPrim .div], none⟩

theorem reached_dividesAbove
    (hload : load "p" dividesAbove ⟨some 16, none, false, false, []⟩ .empty .empty = .ok m)
    (hcs : (Use.start m).calls [.step, .step, .step, .step] = some u) :
    u.machine.state = .running ∧ u.machine.st = 40 ∧ u.machine.plainCall (.ofPrim .div) = true ∧
    (u.machine.perform (.ofPrim .div)).1.state = .failed (.internal ⟨38, 16⟩) := by
  cases hload
  cases hcs
  decide +kernel

theorem failing_step_dividesAbove : ∃ m u,
    load "p" dividesAbove ⟨some 16, none, false, false, []⟩ .empty .empty = .ok m ∧
    (Use.start m).calls [.step, .step, .step, .step] = some u ∧ u.machine.state = .running ∧
    (u.machine.perform (.ofPrim .div)).1.state = .failed (.internal ⟨38, 16⟩) ∧
    (u.machine.perform (.ofPrim .div)).1.data = u.machine.data ∧
    (u.machine.perform (.ofPrim .div)).1.st = 40 := by
  obtain ⟨m, hload⟩ : ∃ m, load "p" dividesAbove ⟨some 16, none, false, false, []⟩ .empty .empty =
      .ok m := ⟨_, rfl⟩
  obtain ⟨u, hcs⟩ : ∃ u, (Use.start m).calls [.step, .step, .step, .step] = some u := by
    cases hload
    exact ⟨_, rfl⟩
  obtain ⟨hrun, hst, hcall, hfailed⟩ := reached_dividesAbove hload hcs
  obtain ⟨hdata, -, hregisters⟩ := ((failing_step_writes_nothing hload hcs).1 hrun).2 _ _ hfailed
    (by decide)
  exact ⟨m, u, hload, hcs, hrun, hfailed, hdata, (hregisters hcall).st.trans hst⟩

end Machine

end MiniJam
