import MiniJam.Proofs.Machine.Bounds

/-!
# Machines without faults

A fault is an access outside the data store or the code.  A return computes an address from the
base of the local frame, which is a word that the program can choose, and from a displacement of
64 bits; only there can a program make the machine fault.  It cannot as long as the difference of
the two does not wrap around (`Machine.faultFree_iff`).
-/

namespace MiniJam

namespace Machine

variable {p : Program} {n : Int} {m : Machine}

/-- No access outside the data store or the code has been made, none is made by the next step, and
none by showing the state. -/
structure FaultFree (m : Machine) : Prop where
  state_ne : ∀ f, m.state ≠ .failed (.internal f)
  step_eq : m.step.2 = none
  dump_eq : m.dump.pieces.2 = none
  showStatus_eq : m.showStatus.pieces.2 = none

/-- A tidy machine that has been stopped by its program or is at an instruction of it. -/
structure Clean (p : Program) (n : Int) (m : Machine) : Prop extends m.Tidy p n m.state where
  state_ne : ∀ f, m.state ≠ .failed (.internal f)
  cp_mem : m.state = .running → 0 ≤ m.cp ∧ m.cp < m.ct

theorem Clean.instrAt? (hm : m.Clean p n) (hrun : m.state = .running) :
    ∃ i ∈ p, m.instrAt? m.cp = some i := by
  obtain ⟨h₀, h₁⟩ := hm.cp_mem hrun
  have hlt : m.cp.toNat < m.program.size := by
    simp only [ct] at h₁
    omega
  have hi : m.instrAt? m.cp = some m.program[m.cp.toNat] := by
    simp [Machine.instrAt?, Int.not_lt.2 h₀, hlt]
  exact ⟨_, hm.program_eq ▸ instrAt?_mem hi, hi⟩

theorem Tidy.clean_stopped (hm : m.Tidy p n s) {e : Stop} (he : e.Orderly) :
    (m.stopped e).1.Clean p n ∧ (m.stopped e).2 = none := by
  cases e with
  | halt => exact ⟨⟨hm.stopped .halt, nofun, nofun⟩, rfl⟩
  | failure why =>
    refine ⟨⟨hm.stopped (.failure why), fun f hf => ?_, nofun⟩, rfl⟩
    exact (orderly_failure_iff why).1 he f (MachineState.failed.inj hf)
  | fault f => exact he.elim

/-- Every return of the program is over at most `b` argument words. -/
def ReturnsWithin (b : Int) (p : Program) : Prop :=
  ∀ i ∈ p, Opcode.ofCode? i.op = some .ret → 0 ≤ i.d ∧ i.d ≤ b

theorem Clean.step (hm : m.Clean p n) (hp : ReturnsWithin (maxInt64 - maxWord) p) :
    m.step.1.Clean p n ∧ m.step.2 = none := by
  by_cases hrun : m.state = .running
  · obtain ⟨i, hmem, hi⟩ := hm.instrAt? hrun
    have hw : Opcode.ofCode? i.op = some .ret → wrap64 (m.lb - i.d) ≤ m.lb := by
      intro hop
      have hd := hp i hmem hop
      have hlb := hm.lb_ge
      have hle : wrap64 (m.lb - i.d) ≤ m.lb - i.d := wrap64_le (by
        simp only [minInt64, maxInt64, minWord, maxWord] at hd hlb ⊢
        omega)
      omega
    have hret : Opcode.ofCode? i.op = some .ret → m.Returns i.n i.d →
        wrap64 (m.lb - i.d) + i.n ≤ m.ht := by
      rintro hop ⟨hk, ⟨-, hfr⟩, -, -⟩
      have := hw hop
      have := hm.st_le
      simp only [linkWords] at hfr
      omega
    rw [step_iff hrun hi fun r => r.1.Clean p n ∧ r.2 = none]
    refine (Exec.ensures_instruction_tidy hm.toTidy i hret).mono (fun _ m' h => ?_) fun e m' h => ?_
    · have hsta := h.1.state_eq
      exact ⟨⟨hsta ▸ h.1, fun f => hsta ▸ hm.state_ne f, fun _ => h.2⟩, rfl⟩
    · obtain ⟨hm', he | ⟨hop, hlt⟩⟩ := h
      · exact hm'.clean_stopped he
      · exact absurd (hw hop) (Int.not_le.2 hlt)
  · rw [step_of_not_running hrun]
    exact ⟨hm, rfl⟩

theorem Clean.after (hm : m.Clean p n) (hp : ReturnsWithin (maxInt64 - maxWord) p) (k : Nat) :
    (m.after k).Clean p n := by
  induction k with
  | zero => exact hm
  | succ k ih => exact (ih.step hp).1

theorem Clean.faultFree (hm : m.Clean p n) (hp : ReturnsWithin (maxInt64 - maxWord) p) :
    m.FaultFree where
  state_ne := hm.state_ne
  step_eq := (hm.step hp).2
  dump_eq := hm.toBounded.completes_dump.pieces
  showStatus_eq := hm.toBounded.completes_showStatus.pieces

theorem Fresh.clean {capacity : Int} {output : Output} (h : m.Fresh p n capacity output) :
    m.Clean p n where
  toTidy := h.tidy
  state_ne f := by
    rw [h.state_eq]
    split <;> exact nofun
  cp_mem hrun := by
    rw [h.state_eq] at hrun
    split at hrun
    · cases hrun
    · simp_all [ct, h.cp_eq, h.program_eq, Nat.pos_iff_ne_zero]

/-- A program that returns into a frame at the least word, and from there over `d` words. -/
def farReturn (d : Int) : Object :=
  ⟨#[.make .loadl 0 .zr 0, .make .loadl 0 .zr minWord, .make .loadl 0 .zr 4, .make .ret 0 .zr 0,
    .make .ret 0 .zr d], none⟩

theorem returnsWithin_farReturn {d b : Int} (hd : 0 ≤ d ∧ d ≤ b) :
    ReturnsWithin b (farReturn d).program := by
  intro i hi hop
  simp only [farReturn, List.mem_toArray, List.mem_cons, List.not_mem_nil, or_false] at hi
  obtain rfl | rfl | rfl | rfl | rfl := hi
  case inr.inr.inr.inr => exact hd
  case inr.inr.inr.inl => exact ⟨Int.le_refl 0, Int.le_trans hd.1 hd.2⟩
  all_goals exact absurd hop (by decide)

/-- The least displacement that wraps around is enough to leave the data store. -/
theorem not_faultFree_farReturn
    (h : load "far" (farReturn (maxInt64 - maxWord + 1)) .default .empty .empty = .ok m) :
    ¬ (m.after 5).FaultFree := by
  cases h
  exact fun hm => hm.state_ne ⟨minWord, 1024⟩ (by decide +kernel)

/-- Programs whose returns are over at most `b` argument words never make the machine fault, if and
only if no difference of a word and such a number wraps around. -/
theorem faultFree_iff (b : Int) :
    (∀ name object o input output m, load name object o input output = .ok m →
      ReturnsWithin b object.program → ∀ k, (m.after k).FaultFree) ↔ b ≤ maxInt64 - maxWord := by
  constructor
  · intro h
    by_cases hb : b ≤ maxInt64 - maxWord
    · exact hb
    · obtain ⟨m, hm⟩ : ∃ m, load "far" (farReturn (maxInt64 - maxWord + 1)) .default .empty .empty =
          .ok m := ⟨_, rfl⟩
      have hp : ReturnsWithin b (farReturn (maxInt64 - maxWord + 1)).program :=
        returnsWithin_farReturn ⟨by decide, by omega⟩
      exact absurd (h _ _ _ _ _ m hm hp 5) (not_faultFree_farReturn hm)
  · intro hb name object o input output m hload hp k
    have hp' : ReturnsWithin (maxInt64 - maxWord) object.program := fun i hi hop =>
      ⟨(hp i hi hop).1, Int.le_trans (hp i hi hop).2 hb⟩
    exact ((fresh_of_load hload).clean.after hp' k).faultFree hp'

/-- A return over a nonnegative number of words can read outside the data store. -/
theorem farReturn_faults :
    ∃ m, load "far" (farReturn (maxInt64 - maxWord + 1)) .default .empty .empty = .ok m ∧
      ReturnsWithin maxInt64 (farReturn (maxInt64 - maxWord + 1)).program ∧
      ¬ (m.after 5).FaultFree :=
  ⟨_, rfl, returnsWithin_farReturn (by decide), not_faultFree_farReturn rfl⟩

end Machine

end MiniJam
