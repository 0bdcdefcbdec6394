import MiniJam.Proofs.Machine.Rooted
import MiniJam.Proofs.Object.RoundTrip

/-!
# Exact arithmetic

A call of an arithmetic primitive puts the exact result in the place of the operands, if that is a
word, and else fails the program (`Machine.step_arithmetic`).  The result never leaves the range of
64 bit integers, in which it is computed before it is checked.
-/

namespace MiniJam

/-- The number of operands of an arithmetic primitive, and its result on the word below the top of the
stack and the word on top. -/
def Prim.arithmetic? : Prim → Option (Nat × (Int → Int → Int))
  | .succ => some (1, fun _ y => y + 1)
  | .pred => some (1, fun _ y => y - 1)
  | .neg => some (1, fun _ y => -y)
  | .add => some (2, fun x y => x + y)
  | .sub => some (2, fun x y => x - y)
  | .mult => some (2, fun x y => x * y)
  | .div => some (2, Int.tdiv)
  | .mod => some (2, Int.tmod)
  | _ => none

def Prim.divides (q : Prim) : Bool := q = .div ∨ q = .mod

namespace Machine

/-- The machine at the next instruction, unless there is none. -/
def movedTo (m : Machine) (next : Int) : Machine :=
  if next < m.ct then m.withCP next else (m.withCP next).fail (.codeAddress next m.ct)

variable {m : Machine} {i : Instr} {q : Prim} {k : Nat} {f : Int → Int → Int}

/-- A step that calls a primitive carries it out and goes on behind the call. -/
theorem step_primitive_iff (hrun : m.state = .running) (hi : m.instrAt? m.cp = some i)
    (hop : Opcode.ofCode? i.op = some .call) (hq : m.callee? i = some q)
    (Q : Machine × Option Fault → Prop) :
    Q m.step ↔ Exec.Ensures (Exec.primitive q) m (fun _ m' => Q (m'.movedTo (m.cp + 1), none))
      fun e m' => Q (m'.stopped e) := by
  obtain ⟨r, hr, hp⟩ := Option.bind_eq_some_iff.1 hq
  unfold primAt? at hp
  split_ifs at hp with hin
  have hcp : 0 ≤ m.cp := by
    by_contra hneg
    rw [instrAt?, if_pos (Int.not_le.1 hneg)] at hi
    cases hi
  rw [step_iff hrun hi Q, Exec.ensures_instruction hop]
  simp only [Exec.operation, Exec.effective, hr, Exec.call, Exec.ensures_bind, Exec.ensures_get,
    Exec.ensures_pure, if_pos hin, hp]
  -- The address behind the call is no negative number, so that only the end of the code is in the way.
  have hnext : ∀ m' : Machine, (if 0 ≤ m.cp + 1 ∧ m.cp + 1 < m'.ct then Q (m'.withCP (m.cp + 1), none)
      else Q ((m'.withCP (m.cp + 1)).stopped (.failure (.codeAddress (m.cp + 1) m'.ct)))) ↔
        Q (m'.movedTo (m.cp + 1), none) := by
    intro m'
    unfold movedTo
    by_cases hlt : m.cp + 1 < m'.ct
    · rw [if_pos ⟨by omega, hlt⟩, if_pos hlt]
    · rw [if_neg fun h => hlt h.2, if_neg hlt]
      rfl
  simp [hnext]

namespace Exec

variable {stop : Stop → Machine → Prop}

theorem ensures_checkWord (x : Int) : Ensures (checkWord x) m ok stop ↔
      if IsWord x then ok x m else stop (.failure (.overflow x)) m := by
  simp only [checkWord, ensures_bind, ensures_require, ensures_pure, ← Bool.decide_and,
    decide_eq_true_eq]
  rfl

variable {ok : Unit → Machine → Prop}

theorem ensures_unary (h : 1 ≤ m.st ∧ m.st ≤ m.hb) (g : Int → Exec Int) :
    Ensures (unary g) m ok stop ↔ Ensures (g (m.peek (m.st - 1))) m
      (fun r m' => Ensures (setTop r) m' ok stop) stop := by
  rw [unary, ensures_bind, ensures_top1 h]
  simp [ensures_bind]

theorem ensures_binary (h : 2 ≤ m.st ∧ m.st ≤ m.hb) (g : Int → Int → Exec Int) :
    Ensures (binary g) m ok stop ↔ Ensures (g (m.peek (m.st - 2)) (m.peek (m.st - 1))) m
      (fun r m' => Ensures (setTop r) (m'.withST (m'.st - 1)) ok stop) stop := by
  rw [binary, ensures_bind, ensures_top2 h]
  simp [ensures_bind, ensures_drop]

end Exec

/-- The machine with `r` in the place of the `k` words on top of the stack. -/
def replaced (m : Machine) (k : Nat) (r : Int) : Machine :=
  (m.poke (m.st - k) r).withST (m.st - k + 1)

namespace Exec

variable {stop : Stop → Machine → Prop} {ok : Unit → Machine → Prop}

theorem ensures_setTop_replaced (h : 1 ≤ m.st ∧ m.st ≤ m.hb) (r : Int) :
    Ensures (setTop r) m ok stop ↔ ok () (m.replaced 1 r) := by
  rw [ensures_setTop h, replaced, Int.natCast_one, Int.sub_add_cancel]
  rfl

theorem ensures_setTop_next (h : 2 ≤ m.st ∧ m.st ≤ m.hb) (r : Int) :
    Ensures (setTop r) (m.withST (m.st - 1)) ok stop ↔ ok () (m.replaced 2 r) := by
  have hin : 1 ≤ (m.withST (m.st - 1)).st ∧ (m.withST (m.st - 1)).st ≤ (m.withST (m.st - 1)).hb := by
    simp only [withST_st, withST_hb]
    omega
  have hst : m.st - 1 - 1 = m.st - (2 : Nat) := by omega
  rw [ensures_setTop hin, withST_st, replaced, hst, show m.st - (2 : Nat) + 1 = m.st - 1 by omega]
  rfl

theorem ensures_arithmetic (hf : q.arithmetic? = some (k, f)) (h : k ≤ m.st ∧ m.st ≤ m.hb) :
    Ensures (primitive q) m ok stop ↔ if q.divides ∧ m.peek (m.st - 1) = 0 then
        stop (.failure (.zeroDivide (m.peek (m.st - 2)))) m
      else if IsWord (f (m.peek (m.st - 2)) (m.peek (m.st - 1))) then
        ok () (m.replaced k (f (m.peek (m.st - 2)) (m.peek (m.st - 1))))
      else stop (.failure (.overflow (f (m.peek (m.st - 2)) (m.peek (m.st - 1))))) m := by
  cases q with
  | succ | pred | neg =>
    cases hf
    rw [primitive, ensures_unary h, ensures_checkWord, ensures_setTop_replaced h]
    simp [Prim.divides]
  | add | sub | mult =>
    cases hf
    rw [primitive, arith, ensures_binary h, ensures_checkWord, ensures_setTop_next h]
    simp [Prim.divides]
  | div | mod =>
    cases hf
    rw [primitive, divide, ensures_binary h, ensures_bind, ensures_require, ensures_checkWord,
      ensures_setTop_next h]
    by_cases hzero : m.peek (m.st - 1) = 0 <;> simp [Prim.divides, hzero]
  | _ => cases hf

end Exec

end Machine

/-! ### Bounds -/

theorem IsWord.natAbs_le (h : IsWord x) : x.natAbs ≤ 2147483648 := by
  simp only [IsWord, minWord, maxWord] at h
  omega

/-- The result of an arithmetic primitive on words is a 64 bit integer. -/
theorem Prim.wrap64_arithmetic {q : Prim} {f : Int → Int → Int} (hf : q.arithmetic? = some (k, f))
    (hx : IsWord x) (hy : IsWord y) : wrap64 (f x y) = f x y := by
  have hx := hx.natAbs_le
  have hy := hy.natAbs_le
  apply wrap64_of_mem
  suffices h : (f x y).natAbs ≤ 4611686018427387904 by simp only [minInt64, maxInt64]; omega
  cases q with
  | succ | pred | neg | add | sub =>
    cases hf
    dsimp only
    omega
  | mult =>
    cases hf
    rw [Int.natAbs_mul]
    exact Nat.mul_le_mul hx hy
  | div =>
    cases hf
    rw [Int.natAbs_tdiv]
    exact Nat.le_trans (Nat.div_le_self _ _) (by omega)
  | mod =>
    cases hf
    rw [Int.natAbs_tmod]
    exact Nat.le_trans (Nat.mod_le _ _) (by omega)
  | _ => cases hf

namespace Machine

variable {m : Machine} {i : Instr} {q : Prim} {k : Nat} {f : Int → Int → Int}

/-- The machines are the same below the stack top `st`, and in their registers but the stack top and
the code pointer. -/
structure SameBelow (st : Int) (m m' : Machine) : Prop where
  words : ∀ addr, 0 ≤ addr → addr < st → m'.peek addr = m.peek addr
  lb : m'.lb = m.lb
  ht : m'.ht = m.ht
  ob : m'.ob = m.ob

theorem replaced_movedTo (hk : 0 < k ∧ k ≤ m.st ∧ m.st ≤ m.hb) {r : Int} (hr : IsWord r) (next : Int) :
    ((m.replaced k r).movedTo next).st = m.st - k + 1 ∧ ((m.replaced k r).movedTo next).cp = next ∧
    ((m.replaced k r).movedTo next).peek (m.st - k) = r ∧
    SameBelow (m.st - k) m ((m.replaced k r).movedTo next) := by
  have hp : (m.replaced k r).peek (m.st - k) = r := m.peek_poke_self (by omega) hr
  have hbel : ∀ addr, 0 ≤ addr → addr < m.st - k → (m.replaced k r).peek addr = m.peek addr :=
    fun addr h₀ hlt => m.peek_poke_of_ne r (by omega) h₀ (by omega)
  unfold movedTo
  split_ifs
  · exact ⟨rfl, rfl, hp, hbel, rfl, rfl, rfl⟩
  · exact ⟨rfl, rfl, hp, hbel, rfl, rfl, rfl⟩

/-- A call of an arithmetic primitive replaces its operands by the exact result if that is a word, and
changes nothing else but the code pointer.  Else it fails: without a divisor if that is zero, and
because of the result if that is no word, though it is a 64 bit integer. -/
theorem step_arithmetic (hrun : m.state = .running) (hi : m.instrAt? m.cp = some i)
    (hop : Opcode.ofCode? i.op = some .call) (hq : m.callee? i = some q)
    (hf : q.arithmetic? = some (k, f)) (hst : k ≤ m.st ∧ m.st ≤ m.hb) :
    ∃ x y r, x = m.peek (m.st - 2) ∧ y = m.peek (m.st - 1) ∧ r = f x y ∧ wrap64 r = r ∧
      m.step = (if q.divides ∧ y = 0 then m.fail (.zeroDivide x)
        else if IsWord r then (m.replaced k r).movedTo (m.cp + 1)
        else m.fail (.overflow r), none) ∧
      (Failure.zeroDivide x).condition = .zeroDivide ∧ (Failure.overflow r).condition = .overflow ∧
      (IsWord r → ∀ m', m' = (m.replaced k r).movedTo (m.cp + 1) →
        m'.st = m.st - k + 1 ∧ m'.cp = m.cp + 1 ∧ m'.peek (m.st - k) = r ∧
        SameBelow (m.st - k) m m') := by
  have hk : 0 < k := by
    unfold Prim.arithmetic? at hf
    split at hf <;> cases hf <;> decide
  refine ⟨_, _, _, rfl, rfl, rfl, Prim.wrap64_arithmetic hf (m.peek_mem _) (m.peek_mem _), ?_, rfl, rfl, ?_⟩
  · rw [step_primitive_iff hrun hi hop hq fun r => r = _, Exec.ensures_arithmetic hf hst]
    split_ifs <;> rfl
  · rintro hr _ rfl
    exact replaced_movedTo ⟨hk, hst⟩ hr _

def dividing (x y : Int) : Object :=
  ⟨#[.make .loadl 0 .zr x, .make .loadl 0 .zr y, .ofPrim .div, .make .halt 0 .zr 0], none⟩

theorem operands_dividing : ∃ m, load "p" (dividing minWord (-1)) .default .empty .empty = .ok m ∧
    (m.after 2).state = .running ∧ (m.after 2).instrAt? (m.after 2).cp = some (.ofPrim .div) ∧
    (m.after 2).callee? (.ofPrim .div) = some .div ∧ (m.after 2).st = 2 ∧ 2 ≤ (m.after 2).hb ∧
    (m.after 2).peek 0 = minWord ∧ (m.after 2).peek 1 = -1 := by
  refine ⟨_, rfl, ?_⟩
  decide +kernel

/-- The quotient of the least word and minus one is no word. -/
theorem step_arithmetic_least : ∃ m, load "p" (dividing minWord (-1)) .default .empty .empty = .ok m ∧
    (m.after 3).state = .failed (.overflow 2147483648) := by
  obtain ⟨m, hm, hrun, hi, hq, hst, hhb, hx, hy⟩ := operands_dividing
  obtain ⟨x, y, r, hx', hy', hr, -, hstep, -⟩ :=
    step_arithmetic hrun hi rfl hq rfl ⟨Int.le_of_eq hst.symm, by omega⟩
  rw [hst] at hx' hy'
  obtain rfl : x = minWord := hx'.trans hx
  obtain rfl : y = -1 := hy'.trans hy
  obtain rfl : r = 2147483648 := hr
  refine ⟨m, hm, ?_⟩
  rw [after, hstep]
  rfl

end Machine

end MiniJam
