import MiniJam.Proofs.Machine.Rooted

/-!
# The bounds of the stack and the heap

The stack lies below the heap and the heap ends where the data store ends (`Machine.Bounded`).
Every instruction keeps these bounds, and none of them looks outside the data store, with one
exception: a return puts the stack top at a distance from the local frame that the program
chooses.  `Machine.Overshoots` says when it puts it above the heap top.
-/

namespace MiniJam

open Opcode

namespace Machine

/-- A machine with the program `p` and `n` words of data, in the state `s`, whose stack and heap
are in bounds.  The base of the local frame may be any word. -/
structure Tidy (p : Program) (n : Int) (s : MachineState) (m : Machine) : Prop
    extends m.Bounded where
  lb_ge : minWord ≤ m.lb
  hb_eq : m.hb = n
  program_eq : m.program = p
  state_eq : m.state = s

theorem tidy_iff_rooted {n : Int} {m : Machine} : m.Tidy p n s ↔ m.Rooted ⟨true, p, n, s⟩ := by
  constructor
  · intro h
    exact ⟨h.st_nonneg, Int.le_trans h.st_nonneg h.st_le, h.ht_le, fun _ => ⟨h.st_le, h.lb_ge⟩,
      h.hb_eq, h.program_eq, h.state_eq⟩
  · intro h
    obtain ⟨hst, hlb⟩ := h.below rfl
    exact ⟨⟨h.st_nonneg, hst, h.ht_le⟩, hlb, h.hb_eq, h.program_eq, h.state_eq⟩

/-! ### Returns -/

theorem wrap64_le (h : minInt64 ≤ x) : wrap64 x ≤ x := by
  have hmem := wrap64_mem x
  by_cases hx : x ≤ maxInt64
  · exact Int.le_of_eq (wrap64_of_mem ⟨h, hx⟩)
  · omega

/-- The return of `k` words over `d` argument words closes the current frame. -/
def Returns (m : Machine) (k d : Int) : Prop :=
  (0 ≤ k ∧ k ≤ 1) ∧ (0 ≤ m.lb ∧ m.lb + linkWords ≤ m.st) ∧ 0 ≤ wrap64 (m.lb - d) ∧
    (k = 1 → wrap64 (m.lb - d) < m.hb)

/-- The machine after the return of `k` words over `d` argument words. -/
def returned (m : Machine) (k d : Int) : Machine :=
  ((if k = 1 then m.poke (wrap64 (m.lb - d)) (m.peek (m.st - 1)) else m).withFrame (m.peek m.lb)
    (m.peek (m.lb + 1))).withST (wrap64 (m.lb - d) + k)

namespace Exec

variable {p : Program} {n : Int} {s : MachineState} {m : Machine}

theorem ensures_ret {stop : Stop → Machine → Prop} (hm : m.Bounded) {k d : Int}
    (h : m.Returns k d) :
    Ensures (ret k d) m ok stop ↔ ok (m.peek (m.lb + 2)) (m.returned k d) := by
  obtain ⟨⟨hk₀, hk₁⟩, ⟨hlb, hfr⟩, ha, hwrit⟩ := h
  obtain ⟨h₁, h₂, h₃⟩ := hm
  have hin : ∀ i, 0 ≤ i → i < 3 → (0 ≤ m.lb + i ∧ m.lb + i < m.hb) := by
    simp only [linkWords] at hfr
    omega
  have hin₀ : 0 ≤ m.lb ∧ m.lb < m.hb := by simpa using hin 0 (by decide) (by decide)
  have hpop : 0 < m.st ∧ 0 ≤ m.st - 1 ∧ m.st - 1 < m.hb := by
    simp only [linkWords] at hfr
    omega
  simp only [ret, ensures_bind, ensures_require, ensures_get, hk₀, hk₁, ha, hfr, decide_true,
    Bool.and_self, ↓reduceIte]
  obtain rfl | rfl : k = 0 ∨ k = 1 := by omega
  · simp only [Int.reduceEq, ↓reduceIte, ensures_bind, ensures_pure, ensures_word, ensures_setOB,
      ensures_setLB, ensures_setST, withFrame_hb, hin₀, hin 1, hin 2, and_self, Int.reduceLE,
      Int.reduceLT]
    exact Iff.rfl
  · have hwrit : 0 ≤ wrap64 (m.lb - d) ∧ wrap64 (m.lb - d) < m.hb := ⟨ha, hwrit rfl⟩
    simp only [↓reduceIte, pop, ensures_bind, ensures_require, ensures_get, ensures_word,
      ensures_setOB, ensures_setLB, ensures_setST, ensures_setWord, ensures_pure, withFrame_hb,
      withST_hb, hin₀, hin 1, hin 2, hpop, hwrit, and_self, Int.reduceLE, Int.reduceLT,
      decide_true]
    exact Iff.rfl

/-- A return that does not close the frame keeps the bounds.  It faults only if it would move the
stack top above the base of the frame. -/
theorem ensures_ret_stop (hm : m.Tidy p n s) {k d : Int} (h : ¬ m.Returns k d) :
    Ensures (ret k d) m (fun _ _ => False)
      (fun e m' => m'.Tidy p n s ∧ (e.Orderly ∨ m.lb < wrap64 (m.lb - d))) := by
  obtain ⟨h₁, h₂, h₃⟩ := hm.toBounded
  simp only [ret, ensures_bind, ensures_require, ensures_get]
  by_cases hk : 0 ≤ k ∧ k ≤ 1
  case neg =>
    simpa only [← Bool.decide_and, hk, decide_false, Bool.false_eq_true, ↓reduceIte] using
      ⟨hm, .inl trivial⟩
  by_cases hfr : 0 ≤ wrap64 (m.lb - d) ∧ m.lb + linkWords ≤ m.st
  case neg =>
    simpa only [hk, ← Bool.decide_and, hfr, decide_false, decide_true, and_self,
      Bool.false_eq_true, ↓reduceIte] using ⟨hm, .inl trivial⟩
  simp only [hk, hfr, decide_true, Bool.and_self, ↓reduceIte]
  have hst : m.lb + 3 ≤ m.st := hfr.2
  have hbad : m.lb < 0 ∨ k = 1 ∧ 0 ≤ m.lb ∧ m.hb ≤ wrap64 (m.lb - d) := by
    unfold Returns at h
    grind
  obtain hlb | ⟨rfl, hlb, haddr⟩ := hbad
  · have hout : ¬ (0 ≤ m.lb ∧ m.lb < m.hb) := by omega
    have hlt : m.lb < wrap64 (m.lb - d) := by omega
    obtain rfl | rfl : k = 0 ∨ k = 1 := by omega
    · simp only [Int.reduceEq, ↓reduceIte, ensures_bind, ensures_pure, ensures_word, hout]
      exact ⟨hm, .inr hlt⟩
    · simp only [↓reduceIte, ensures_bind, ensures_word]
      refine (moves_pop (tidy_iff_rooted.1 hm)).mono (fun w m' hm' => ?_) fun e m' he =>
        ⟨tidy_iff_rooted.2 he.1, .inl (he.2.2 rfl)⟩
      rw [if_neg (by omega)]
      exact ⟨tidy_iff_rooted.2 hm'.1, .inr hlt⟩
  · have hpop : 0 < m.st ∧ 0 ≤ m.st - 1 ∧ m.st - 1 < m.hb := by omega
    have hin : ∀ i, 0 ≤ i → i < 3 → (0 ≤ m.lb + i ∧ m.lb + i < m.hb) := by omega
    have hin₀ : 0 ≤ m.lb ∧ m.lb < m.hb := by omega
    have hout : ¬ (0 ≤ wrap64 (m.lb - d) ∧ wrap64 (m.lb - d) < m.hb) := by omega
    simp only [↓reduceIte, pop, ensures_bind, ensures_require, ensures_get, ensures_word,
      ensures_setOB, ensures_setLB, ensures_setST, ensures_setWord, ensures_pure, withFrame_hb,
      withST_hb, hin₀, hin 1, hin 2, hpop, hout, and_self, Int.reduceLE, Int.reduceLT,
      decide_true]
    have hst' : m.st - 1 ≤ m.ht := by omega
    exact ⟨⟨⟨hpop.2.1, hst', h₃⟩, (m.peek_mem (m.lb + 1)).1, hm.hb_eq, hm.program_eq, hm.state_eq⟩,
      .inr (by omega)⟩

theorem tidy_returned (hm : m.Tidy p n s) {k d : Int} (h : m.Returns k d)
    (hst : wrap64 (m.lb - d) + k ≤ m.ht) : (m.returned k d).Tidy p n s := by
  obtain ⟨⟨hk₀, -⟩, -, haddr, -⟩ := h
  have hst' : 0 ≤ wrap64 (m.lb - d) + k := by omega
  have hm := tidy_iff_rooted.1 hm
  have hlb := (m.peek_mem (m.lb + 1)).1
  refine tidy_iff_rooted.2 ?_
  unfold returned
  split_ifs
  · exact ((hm.poke _ _).withFrame _ hlb).withST hst' (.inr hst)
  · exact (hm.withFrame _ hlb).withST hst' (.inr hst)

/-- An instruction keeps the bounds, unless it is a return that moves the stack top above the heap
top.  It goes on in the code, and it faults only if it is a return that would move the stack top
above the base of the frame. -/
theorem ensures_instruction_tidy (hm : m.Tidy p n s) (i : Instr)
    (hret : ofCode? i.op = some .ret → m.Returns i.n i.d →
      wrap64 (m.lb - i.d) + i.n ≤ m.ht) :
    Ensures (instruction i) m (fun _ m' => m'.Tidy p n s ∧ 0 ≤ m'.cp ∧ m'.cp < m'.ct)
      (fun e m' => m'.Tidy p n s ∧
        (e.Orderly ∨ ofCode? i.op = some .ret ∧ m.lb < wrap64 (m.lb - i.d))) := by
  cases hop : ofCode? i.op with
  | none => simpa only [instruction, hop, ensures_bind, ensures_get] using ⟨hm, .inl trivial⟩
  | some op =>
    simp only [tidy_iff_rooted]
    refine ensures_instruction_rooted hop ?_ fun _ _ _ hm' => ⟨hm', .inl trivial⟩
    by_cases hc : op = .ret
    · subst hc
      by_cases h : m.Returns i.n i.d
      · exact (ensures_ret hm.toBounded h).2 (tidy_iff_rooted.1 (tidy_returned hm h (hret hop h)))
      · refine (ensures_ret_stop hm h).mono (fun _ _ => False.elim) fun e m' he => ?_
        exact ⟨tidy_iff_rooted.1 he.1, he.2.imp_right fun hlt => ⟨rfl, hlt⟩⟩
    · exact (refuses_operation (tidy_iff_rooted.1 hm) (fun _ => hc) i _).mono (fun _ _ => id)
        fun e m' he => ⟨he.1, .inl (he.2.2 rfl)⟩

end Exec

/-! ### Steps -/

/-- The machine is about to carry out the return `i`. -/
def Returning (m : Machine) (i : Instr) : Prop :=
  m.state = .running ∧ m.instrAt? m.cp = some i ∧ Opcode.ofCode? i.op = some .ret

/-- The machine is about to put the stack top above the heap top. -/
def Overshoots (m : Machine) : Prop :=
  ∃ i, m.Returning i ∧ m.Returns i.n i.d ∧ m.ht < wrap64 (m.lb - i.d) + i.n

variable {p : Program} {n : Int} {s : MachineState} {m : Machine}

theorem Tidy.stopped (hm : m.Tidy p n s) (e : Stop) :
    (m.stopped e).1.Tidy p n (m.stopped e).1.state := by
  obtain ⟨⟨h₁, h₂, h₃⟩, h₄, h₅, h₆, -⟩ := hm
  cases e with
  | halt | failure => exact ⟨⟨h₁, h₂, h₃⟩, h₄, h₅, h₆, rfl⟩
  | fault f =>
    unfold Machine.stopped
    split_ifs <;> exact ⟨⟨h₁, h₂, h₃⟩, h₄, h₅, h₆, rfl⟩

theorem Tidy.step (hm : m.Tidy p n m.state) (h : ¬ m.Overshoots) :
    m.step.1.Tidy p n m.step.1.state := by
  by_cases hrun : m.state = .running
  · cases hi : m.instrAt? m.cp with
    | none =>
      simp only [Machine.step, hrun, advance, hi]
      exact hm.stopped _
    | some i =>
      rw [step_iff hrun hi fun r => r.1.Tidy p n r.1.state]
      have hret : ofCode? i.op = some .ret → m.Returns i.n i.d →
          wrap64 (m.lb - i.d) + i.n ≤ m.ht := fun hop hreturns =>
        Int.not_lt.1 fun hlt => h ⟨i, ⟨hrun, hi, hop⟩, hreturns, hlt⟩
      exact (Exec.ensures_instruction_tidy hm i hret).mono (fun _ _ h => h.1.state_eq ▸ h.1) fun e _ h => h.1.stopped e
  · rw [step_of_not_running hrun]
    exact hm

theorem Overshoots.not_bounded_step (h : m.Overshoots) (hm : m.Bounded) : ¬ m.step.1.Bounded := by
  obtain ⟨i, ⟨hrun, hi, hop⟩, hret, hlt⟩ := h
  rw [step_iff hrun hi fun r => ¬ r.1.Bounded, Exec.ensures_instruction hop]
  refine (Exec.ensures_ret hm hret).2 ?_
  have out : ∀ m' : Machine, m'.st = (m.returned i.n i.d).st → m'.ht = (m.returned i.n i.d).ht →
      ¬ m'.Bounded := by
    intro m' hst hht hm'
    have hst' : m'.st = wrap64 (m.lb - i.d) + i.n := hst
    have hht' : m'.ht = m.ht := by
      rw [hht, returned, withST_ht, withFrame_ht]
      split_ifs <;> rfl
    have := hm'.st_le
    omega
  split_ifs
  · exact out _ rfl rfl
  · exact out _ rfl rfl

theorem Fresh.tidy {capacity : Int} {output : Output} (h : m.Fresh p n capacity output) :
    m.Tidy p n m.state where
  st_nonneg := Int.le_of_eq h.st_eq.symm
  st_le := by
    have := h.size_gt
    rw [h.st_eq, h.ht_eq]
    simp only [linkWords] at this
    omega
  ht_le := Int.le_of_eq (h.ht_eq.trans h.hb_eq.symm)
  lb_ge := h.lb_eq ▸ by decide
  hb_eq := h.hb_eq
  program_eq := h.program_eq
  state_eq := rfl

/-! ### Runs -/

theorem Tidy.after (hm : m.Tidy p n m.state) (k : Nat) (h : ∀ j < k, ¬ (m.after j).Overshoots) :
    (m.after k).Tidy p n (m.after k).state := by
  induction k with
  | zero => exact hm
  | succ k ih => exact (ih fun j hj => h j (Nat.lt_succ_of_lt hj)).step (h k (Nat.lt_succ_self k))

theorem not_overshoots (hm : m.Tidy p n s)
    (hp : ∀ i ∈ p, ofCode? i.op = some .ret → 0 ≤ i.d ∧ i.d ≤ maxInt64) :
    ¬ m.Overshoots := by
  rintro ⟨i, ⟨-, hi, hop⟩, ⟨hk, ⟨hlb, hfr⟩, -, -⟩, hlt⟩
  obtain ⟨hd₀, hd₁⟩ := hp i (hm.program_eq ▸ instrAt?_mem hi) hop
  have hwrap : wrap64 (m.lb - i.d) ≤ m.lb - i.d := wrap64_le (by
    simp only [minInt64, maxInt64] at hd₁ ⊢
    omega)
  have := hm.st_le
  simp only [linkWords] at hfr
  omega

/-- The stack and the heap of a loaded machine stay apart as long as no return puts the stack top
above the heap top, and no longer.  Returns over a nonnegative number of argument words never do. -/
theorem bounded_iff_not_overshoots {name : String} {object : Object} {o : Options} {input : Input}
    {output : Output} (h : load name object o input output = .ok m) :
    (∀ k, (∀ j ≤ k, (m.after j).Bounded ∧ (m.after j).hb = o.dataStore.getD defaultDataStore) ↔
      ∀ j < k, ¬ (m.after j).Overshoots) ∧
    ((∀ i ∈ object.program, Opcode.ofCode? i.op = some .ret → 0 ≤ i.d ∧ i.d ≤ maxInt64) →
      ∀ k, (m.after k).Bounded ∧ (m.after k).hb = o.dataStore.getD defaultDataStore) := by
  have hm := (fresh_of_load h).tidy
  refine ⟨fun k => ⟨fun hbounded j hj hover => ?_, fun hover j hj => ?_⟩, fun hp k => ?_⟩
  · exact hover.not_bounded_step (hbounded j (Nat.le_of_lt hj)).1 (hbounded (j + 1) hj).1
  · have := hm.after j fun i hi => hover i (Nat.lt_of_lt_of_le hi hj)
    exact ⟨this.toBounded, this.hb_eq⟩
  · have : (m.after k).Tidy object.program (o.dataStore.getD defaultDataStore)
        (m.after k).state := by
      induction k with
      | zero => exact hm
      | succ k ih => exact ih.step (not_overshoots ih hp)
    exact ⟨this.toBounded, this.hb_eq⟩

/-- A program that lays out a frame and returns from it over `d` argument words. -/
def frameOver (d : Int) : Object :=
  ⟨#[.make .loadl 0 .zr 0, .make .loadl 0 .zr 0, .make .loadl 0 .zr 4, .make .ret 0 .zr d,
    .make .halt 0 .zr 0], none⟩

theorem not_bounded_of_load_frameOver
    (h : load "frame" (frameOver (-1030)) .default .empty .empty = .ok m) :
    ¬ (m.after 4).Bounded := by
  cases h
  exact fun hm => absurd hm.st_le (by decide +kernel)

theorem bounded_frameOver_zero :
    (∃ m, load "frame" (frameOver 0) .default .empty .empty = .ok m ∧
      ∀ k, (m.after k).Bounded ∧ (m.after k).hb = 1024) ∧
    ∃ m, load "frame" (frameOver (-1030)) .default .empty .empty = .ok m ∧
      ∃ j < 4, (m.after j).Overshoots := by
  constructor
  · obtain ⟨m, hm⟩ : ∃ m, load "frame" (frameOver 0) .default .empty .empty = .ok m := ⟨_, rfl⟩
    refine ⟨m, hm, (bounded_iff_not_overshoots hm).2 ?_⟩
    decide
  · obtain ⟨m, hm⟩ : ∃ m, load "frame" (frameOver (-1030)) .default .empty .empty = .ok m :=
      ⟨_, rfl⟩
    refine ⟨m, hm, Classical.byContradiction fun hnone => ?_⟩
    have hbounded := ((bounded_iff_not_overshoots hm).1 4).2
      (fun j hj hover => hnone ⟨j, hj, hover⟩) 4 (Nat.le_refl 4)
    exact not_bounded_of_load_frameOver hm hbounded.1

/-- A return over a negative number of words can put the stack top beyond the data store. -/
theorem not_bounded_frameOver_neg :
    ∃ m, load "frame" (frameOver (-1030)) .default .empty .empty = .ok m ∧
      ¬ (m.after 4).Bounded :=
  ⟨_, rfl, not_bounded_of_load_frameOver rfl⟩

end Machine

end MiniJam
