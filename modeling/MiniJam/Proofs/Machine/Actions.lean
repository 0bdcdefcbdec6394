import Mathlib.Tactic.Simps.Basic
import MiniJam.Machine.Run

/-!
# What actions do

`Exec.Ensures x m ok stop` says how the action `x` ends when it starts in the machine `m`: with
`ok` of its result and the machine after it, or with `stop` of the reason why it does not go on.
There is one equation for each action, so that `simp` turns a statement about an instruction into
one about numbers.  Words of the data store are read with `Machine.peek` and written with
`Machine.poke`.

`Machine.after` makes steps; `Machine.Leads m Q` says that some number of steps leads from `m` to a
machine with the property `Q`.
-/

namespace MiniJam

namespace Machine

/-! ### The data store -/

/-- The word at `addr`; outside the data store it is zero. -/
def peek (m : Machine) (addr : Int) : Int := (m.data.getD addr.toNat 0).toInt

/-- The machine with the word at `addr` set to the low 32 bits of `value`. -/
@[simps program capacity cp st lb ht ob state output]
def poke (m : Machine) (addr value : Int) : Machine :=
  { m with data := m.data.setIfInBounds addr.toNat (Int32.ofInt value) }

/-- The machine with another stack top. -/
@[simps program capacity data cp st lb ht ob state output]
def withST (m : Machine) (st : Int) : Machine := { m with st := st }

/-- The machine with another heap top. -/
@[simps program capacity data cp st lb ht ob state output]
def withHT (m : Machine) (ht : Int) : Machine := { m with ht := ht }

/-- The machine with another code pointer. -/
@[simps program capacity data cp st lb ht ob state output]
def withCP (m : Machine) (cp : Int) : Machine := { m with cp := cp }

/-- The machine working on the object `ob` in the frame at `lb`. -/
@[simps program capacity data cp st lb ht ob state output]
def withFrame (m : Machine) (ob lb : Int) : Machine := { m with ob := ob, lb := lb }

section

variable (m : Machine) (addr value : Int)

@[simp] theorem size_poke : (m.poke addr value).data.size = m.data.size := by
  simp [poke]

@[simp] theorem poke_hb : (m.poke addr value).hb = m.hb := by
  simp [hb]

end

section

variable (m : Machine) (x y : Int)

@[simp] theorem withST_hb : (m.withST x).hb = m.hb := rfl
@[simp] theorem peek_withST (addr : Int) : (m.withST x).peek addr = m.peek addr := rfl

@[simp] theorem withHT_hb : (m.withHT x).hb = m.hb := rfl

@[simp] theorem withCP_hb : (m.withCP x).hb = m.hb := rfl

@[simp] theorem withFrame_hb : (m.withFrame x y).hb = m.hb := rfl

end

theorem peek_mem (m : Machine) (addr : Int) : minWord ≤ m.peek addr ∧ m.peek addr ≤ maxWord := by
  have lower := Int32.le_toInt (m.data.getD addr.toNat 0)
  have upper := Int32.toInt_lt (m.data.getD addr.toNat 0)
  simp only [peek, minWord, maxWord]
  omega

theorem toInt_ofInt_of_mem (h : minWord ≤ x ∧ x ≤ maxWord) : (Int32.ofInt x).toInt = x := by
  simp only [minWord, maxWord] at h
  rw [Int32.toInt_ofInt]
  exact Int.bmod_eq_of_le (by simp only [Int32.size]; omega) (by simp only [Int32.size]; omega)

variable {addr : Int} {m : Machine} {Q : Machine → Prop}

theorem peek_poke_self (m : Machine) {value : Int} (ha : 0 ≤ addr ∧ addr < m.hb)
    (hv : minWord ≤ value ∧ value ≤ maxWord) : (m.poke addr value).peek addr = value := by
  have hlt : addr.toNat < m.data.size := by
    simp only [hb] at ha
    omega
  simp [peek, poke, hlt, toInt_ofInt_of_mem hv]

theorem peek_poke_of_ne (m : Machine) (value : Int) (ha : 0 ≤ addr) (ha' : 0 ≤ addr')
    (h : addr' ≠ addr) : (m.poke addr value).peek addr' = m.peek addr' := by
  have hne : addr.toNat ≠ addr'.toNat := by omega
  simp [peek, poke, hne]

/-! ### How actions end -/

namespace Exec

/-- The action `x`, started in `m`, ends with `ok` of its result or with `stop` of the reason why
it does not go on, each with the machine after it. -/
def Ensures {α : Type} (x : Exec α) (m : Machine) (ok : α → Machine → Prop)
    (stop : Stop → Machine → Prop) : Prop :=
  match x m with
  | .ok a m => ok a m
  | .error e m => stop e m

variable {α β : Type} {m : Machine} {stop stop' : Stop → Machine → Prop}

theorem Ensures.mono (h : Ensures x m ok stop) (hok : ∀ a m, ok a m → ok' a m)
    (hstop : ∀ e m, stop e m → stop' e m) : Ensures x m ok' stop' := by
  unfold Ensures at h ⊢
  cases hx : x m with
  | ok a m' =>
    rw [hx] at h
    exact hok a m' h
  | error e m' =>
    rw [hx] at h
    exact hstop e m' h

@[simp] theorem ensures_pure (a : α) : Ensures (pure a) m ok stop ↔ ok a m :=
  Iff.rfl

@[simp] theorem ensures_bind (x : Exec α) (f : α → Exec β) :
    Ensures (x >>= f) m ok stop ↔ Ensures x m (fun a m => Ensures (f a) m ok stop) stop := by
  simp only [Ensures, bind, EStateM.bind]
  cases x m <;> rfl

@[simp] theorem ensures_map (f : α → β) (x : Exec α) :
    Ensures (f <$> x) m ok stop ↔ Ensures x m (fun a m => ok (f a) m) stop := by
  simp only [Ensures, Functor.map, EStateM.map]
  cases x m <;> rfl

@[simp] theorem ensures_get : Ensures get m ok stop ↔ ok m m :=
  Iff.rfl

variable {ok : Unit → Machine → Prop}

@[simp] theorem ensures_modify (f : Machine → Machine) :
    Ensures (modify f) m ok stop ↔ ok () (f m) :=
  Iff.rfl

@[simp] theorem ensures_setST (st : Int) : Ensures (setST st) m ok stop ↔ ok () (m.withST st) :=
  Iff.rfl

@[simp] theorem ensures_drop (k : Int) : Ensures (drop k) m ok stop ↔ ok () (m.withST (m.st - k)) :=
  Iff.rfl

theorem ensures_lower (k : Int) : Ensures (modify fun m => { m with ht := m.ht - k }) m ok stop ↔
      ok () (m.withHT (m.ht - k)) :=
  Iff.rfl

theorem ensures_setOB (ob : Int) :
    Ensures (modify fun m => { m with ob := ob }) m ok stop ↔ ok () (m.withFrame ob m.lb) :=
  Iff.rfl

theorem ensures_setLB (lb : Int) :
    Ensures (modify fun m => { m with lb := lb }) m ok stop ↔ ok () (m.withFrame m.ob lb) :=
  Iff.rfl

@[simp] theorem ensures_ite {ok : α → Machine → Prop} (c : Prop) [Decidable c] (x y : Exec α) :
    Ensures (if c then x else y) m ok stop ↔
      if c then Ensures x m ok stop else Ensures y m ok stop := by
  split <;> rfl

@[simp] theorem ensures_require (b : Bool) (why : Failure) : Ensures (require b why) m ok stop ↔
      if b then ok () m else stop (.failure why) m := by
  cases b <;> rfl

@[simp] theorem ensures_word {ok : Int → Machine → Prop} (addr : Int) :
    Ensures (word addr) m ok stop ↔ if 0 ≤ addr ∧ addr < m.hb then ok (m.peek addr) m
      else stop (.fault ⟨addr, m.data.size⟩) m := by
  by_cases h0 : addr < 0
  · simp [Ensures, word, h0, Int.not_le.2 h0]
  · by_cases hlt : addr.toNat < m.data.size
    · have hin : 0 ≤ addr ∧ addr < m.hb := by
        simp only [hb]
        omega
      simp [Ensures, word, h0, hin, peek, hlt]
    · have hout : ¬ (0 ≤ addr ∧ addr < m.hb) := by
        simp only [hb]
        omega
      simp [Ensures, word, h0, hout, hlt]

@[simp] theorem ensures_setWord (addr value : Int) : Ensures (setWord addr value) m ok stop ↔
      if 0 ≤ addr ∧ addr < m.hb then ok () (m.poke addr value)
      else stop (.fault ⟨addr, m.data.size⟩) m := by
  by_cases hin : 0 ≤ addr ∧ addr.toNat < m.data.size
  · have hin' : 0 ≤ addr ∧ addr < m.hb := by
      simp only [hb]
      omega
    simp [Ensures, setWord, hin, hin', poke, Array.setIfInBounds]
  · have hout : ¬ (0 ≤ addr ∧ addr < m.hb) := by
      simp only [hb]
      omega
    simp [Ensures, setWord, hin, hout]

/-! ### The top of the stack -/

section

variable {ok : Int → Machine → Prop} {x k : Int}

theorem ensures_need (h : k ≤ m.st) : Ensures (need k) m ok stop ↔ ok m.st m := by
  have hst : 0 ≤ m.st - k := by omega
  simp only [need, ensures_bind, ensures_get, ensures_require, hst, decide_true, ↓reduceIte,
    ensures_pure]

theorem ensures_operand (hk : 0 < k ∧ k ≤ m.st) (h : m.st ≤ m.hb) :
    Ensures (word (m.st - k)) m ok stop ↔ ok (m.peek (m.st - k)) m := by
  rw [ensures_word, if_pos (by omega)]

theorem ensures_top1 (h : 1 ≤ m.st ∧ m.st ≤ m.hb) :
    Ensures top1 m ok stop ↔ ok (m.peek (m.st - 1)) m := by
  rw [top1, ensures_bind, ensures_need h.1, ensures_operand ⟨by decide, h.1⟩ h.2]

theorem ensures_top2 {ok : Int × Int → Machine → Prop} (h : 2 ≤ m.st ∧ m.st ≤ m.hb) :
    Ensures top2 m ok stop ↔ ok (m.peek (m.st - 2), m.peek (m.st - 1)) m := by
  rw [top2, ensures_bind, ensures_need h.1, ensures_bind, ensures_operand ⟨by decide, h.1⟩ h.2,
    ensures_bind, ensures_operand ⟨by decide, by omega⟩ h.2, ensures_pure]

theorem ensures_top3 {ok : Int × Int × Int → Machine → Prop} (h : 3 ≤ m.st ∧ m.st ≤ m.hb) :
    Ensures top3 m ok stop ↔ ok (m.peek (m.st - 3), m.peek (m.st - 2), m.peek (m.st - 1)) m := by
  rw [top3, ensures_bind, ensures_need h.1, ensures_bind, ensures_operand ⟨by decide, h.1⟩ h.2,
    ensures_bind, ensures_operand ⟨by decide, by omega⟩ h.2, ensures_bind,
    ensures_operand ⟨by decide, by omega⟩ h.2, ensures_pure]

theorem ensures_pop (h : 1 ≤ m.st ∧ m.st ≤ m.hb) :
    Ensures pop m ok stop ↔ ok (m.peek (m.st - 1)) (m.withST (m.st - 1)) := by
  have hpos : 0 < m.st := by omega
  have hin : 0 ≤ m.st - 1 ∧ m.st - 1 < m.hb := by omega
  simp only [pop, ensures_bind, ensures_get, ensures_require, ensures_setST, ensures_word, withST_hb,
    peek_withST, hpos, hin, and_self, decide_true, ↓reduceIte]

theorem ensures_setTop {ok : Unit → Machine → Prop} (h : 1 ≤ m.st ∧ m.st ≤ m.hb) (w : Int) :
    Ensures (setTop w) m ok stop ↔ ok () (m.poke (m.st - 1) w) := by
  rw [setTop, ensures_bind, ensures_get, ensures_setWord, if_pos (by omega)]

theorem ensures_push {ok : Unit → Machine → Prop} (h : 0 ≤ m.st ∧ m.st < m.ht ∧ m.ht ≤ m.hb)
    (w : Int) : Ensures (push w) m ok stop ↔ ok () ((m.poke m.st w).withST (m.st + 1)) := by
  have hsp : 1 ≤ m.ht - m.st := by omega
  have hin : 0 ≤ m.st ∧ m.st < m.hb := by omega
  simp [push, checkSpace, hsp, hin]

theorem ensures_read (hx : 0 ≤ x ∧ x < m.hb) : Ensures (read x) m ok stop ↔ ok (m.peek x) m := by
  simp [read, checkAddress, hx]

theorem ensures_write {ok : Unit → Machine → Prop} (hx : 0 ≤ x ∧ x < m.hb) (w : Int) :
    Ensures (write x w) m ok stop ↔ ok () (m.poke x w) := by
  simp [write, checkAddress, hx]

end

/-- The machine with a call frame at `addr` for a routine working on the object `ob`. -/
def framed (m : Machine) (addr ob : Int) : Machine :=
  ((((m.poke addr m.ob).poke (addr + 1) m.lb).poke (addr + 2) (m.cp + 1)).withFrame ob addr).withST
    (addr + linkWords)

theorem ensures_pushFrame (ob : Int) (h : 0 ≤ addr ∧ addr + linkWords ≤ m.hb) :
    Ensures (pushFrame addr ob) m ok stop ↔ ok () (framed m addr ob) := by
  simp only [linkWords] at h
  have h₀ : 0 ≤ addr ∧ addr < m.hb := by omega
  have h₁ : 0 ≤ addr + 1 ∧ addr + 1 < m.hb := by omega
  have h₂ : 0 ≤ addr + 2 ∧ addr + 2 < m.hb := by omega
  simp only [pushFrame, ensures_bind, ensures_get, ensures_setWord, poke_hb, h₀, h₁, h₂, and_self,
    ↓reduceIte, ensures_modify]
  exact Iff.rfl

/-- An instruction is its operation, followed by a move to the address that the operation gives. -/
theorem ensures_instruction {i : Instr} {op : Opcode} (hop : Opcode.ofCode? i.op = some op) :
    Ensures (instruction i) m ok stop ↔ Ensures (operation op i (m.cp + 1)) m
        (fun next m => if 0 ≤ next ∧ next < m.ct then ok () (m.withCP next)
          else stop (.failure (.codeAddress next m.ct)) (m.withCP next)) stop := by
  simp only [instruction, hop, ensures_bind, ensures_get, ensures_modify, ensures_require,
    Bool.and_eq_true, decide_eq_true_eq]
  exact Iff.rfl

end Exec

/-- The primitive routines have addresses behind those of a program of `top` instructions, if the
code segment has this capacity. -/
def Addresses (top capacity : Int) : Prop := top ≤ capacity ∧ capacity + Prim.count ≤ maxInt64

namespace Exec

variable {top next : Int} {m : Machine}

theorem operation_prim (htop : 0 ≤ top) (hm : Addresses top m.capacity) (q : Prim) :
    operation .call (.ofPrim q) next m = (do primitive q; return next : Exec Int) m := by
  obtain ⟨hle, hmax⟩ := hm
  have hcode : 0 ≤ q.code ∧ q.code < Prim.count := by cases q <;> decide
  have haddr : wrap64 (m.capacity + q.code) = m.capacity + q.code := by
    refine wrap64_of_mem ?_
    simp only [minInt64] at *
    omega
  have hpt : m.pt = m.capacity + Prim.count := by
    refine wrap64_of_mem ?_
    simp only [minInt64, Prim.count] at *
    omega
  have hprim : m.pb ≤ m.capacity + q.code ∧ m.capacity + q.code < m.pt := by
    simp only [pb, hpt]
    omega
  have heff : effective (.ofPrim q) m = .ok (m.capacity + q.code) m := by
    rw [← haddr]
    rfl
  have hcall : call (m.capacity + q.code) next m = (do primitive q; return next : Exec Int) m := by
    have hnum : m.capacity + q.code - m.pb = q.code := by
      simp only [pb]
      omega
    show (if m.pb ≤ m.capacity + q.code ∧ m.capacity + q.code < m.pt then _ else _ : Exec Int) m = _
    rw [if_pos hprim, hnum, Prim.ofCode?_code]
  show (effective (.ofPrim q) >>= fun a => call a next) m = _
  simp only [Bind.bind, EStateM.bind, heff]
  exact hcall

theorem ensures_primitive {stop : Stop → Machine → Prop} (htop : 0 ≤ top)
    (hm : Addresses top m.capacity) (q : Prim) : Ensures (operation .call (.ofPrim q) next) m ok stop ↔
      Ensures (primitive q) m (fun _ m' => ok next m') stop := by
  rw [Ensures, operation_prim htop hm, ← Ensures, ensures_bind]
  rfl

end Exec

/-! ### Steps -/

/-- The machine after `k` steps. -/
def after (m : Machine) : (k : Nat) → Machine
  | 0 => m
  | k + 1 => (m.after k).step.1

theorem after_add (m : Machine) (j k : Nat) : m.after (j + k) = (m.after j).after k := by
  induction k with
  | zero => rfl
  | succ k ih => exact congrArg (fun m : Machine => m.step.1) ih

theorem instrAt?_mem (h : m.instrAt? addr = some i) : i ∈ m.program := by
  unfold instrAt? at h
  split at h
  · cases h
  · exact Array.mem_of_getElem? h

theorem step_iff (hrun : m.state = .running) (hi : m.instrAt? m.cp = some i)
    (Q : Machine × Option Fault → Prop) :
    Q m.step ↔ Exec.Ensures (Exec.instruction i) m (fun _ m => Q (m, none))
      (fun e m => Q (m.stopped e)) := by
  simp only [step, hrun, advance, hi, Exec.Ensures]
  cases Exec.instruction i m <;> exact Iff.rfl

theorem step_of_not_running (h : m.state ≠ .running) : m.step = (m, none) := by
  unfold step
  split
  · contradiction
  · rfl

theorem after_of_not_running (h : m.state ≠ .running) (k : Nat) : m.after k = m := by
  induction k with
  | zero => rfl
  | succ k ih =>
    rw [after, ih]
    exact congrArg Prod.fst (step_of_not_running h)

theorem running_of_after (hjk : j ≤ k) (h : (m.after k).state = .running) :
    (m.after j).state = .running := by
  refine Decidable.byContradiction fun hs => hs ?_
  obtain ⟨i, rfl⟩ := Nat.exists_eq_add_of_le hjk
  rwa [after_add, after_of_not_running hs] at h

def Leads (m : Machine) (Q : Machine → Prop) : Prop := ∃ k, Q (m.after k)

theorem Leads.refl (h : Q m) : m.Leads Q := ⟨0, h⟩

theorem Leads.trans (h : m.Leads Q) (hQ : ∀ m', Q m' → m'.Leads R) : m.Leads R := by
  obtain ⟨j, hj⟩ := h
  obtain ⟨k, hk⟩ := hQ _ hj
  exact ⟨j + k, m.after_add j k ▸ hk⟩

theorem leads_step (h : Q m.step.1) : m.Leads Q := ⟨1, h⟩

/-! ### Loading -/

/-- A machine with a program and a cleared data store, about to make its first step. -/
structure Fresh (program : Program) (size capacity : Int) (output : Output) (m : Machine) :
    Prop where
  program_eq : m.program = program
  capacity_eq : m.capacity = capacity
  data_eq : m.data = Array.replicate size.toNat 0
  cp_eq : m.cp = 0
  st_eq : m.st = 0
  lb_eq : m.lb = 0
  ht_eq : m.ht = size
  ob_eq : m.ob = 0
  state_eq : m.state = if program.isEmpty then .failed .emptyProgram else .running
  output_eq : m.output = output
  size_gt : linkWords < size
  capacity_pos : 0 < capacity
  fits : program.size ≤ capacity

theorem Fresh.hb_eq {program : Program} {size capacity : Int} {output : Output}
    (h : m.Fresh program size capacity output) : m.hb = size := by
  have := h.size_gt
  simp only [hb, h.data_eq, Array.size_replicate, linkWords] at this ⊢
  omega

theorem setBreakpoints_ok {bs : List Int} (h : bs.foldlM setBreakpoint m = .ok m') :
    ∃ bs', m' = { m with breakpoints := bs' } := by
  induction bs generalizing m with
  | nil => exact ⟨m.breakpoints, (Except.ok.inj h).symm⟩
  | cons b bs ih =>
    rw [List.foldlM_cons] at h
    cases hb : m.setBreakpoint b with
    | error e =>
      rw [hb] at h
      cases h
    | ok m₁ =>
      rw [hb] at h
      obtain ⟨bs', rfl⟩ := ih h
      simp only [setBreakpoint] at hb
      split at hb
      · exact ⟨bs', by rw [← Except.ok.inj hb]⟩
      · cases hb

theorem fresh_of_load {name : String} {object : Object} {input : Input} {output : Output}
    (h : load name object o input output = .ok m) :
    m.Fresh object.program (o.dataStore.getD defaultDataStore)
      (o.capacity.getD defaultCapacity) output := by
  simp only [load, bind, Except.bind, throw, throwThe, MonadExceptOf.throw, pure, Except.pure] at h
  split at h
  · cases h
  split at h
  · cases h
  split at h
  · cases h
  rename_i hsize hcap _ blank hset
  split at h
  · cases h
  rename_i hfits
  obtain ⟨bs, rfl⟩ := setBreakpoints_ok hset
  cases h
  have hn : ((o.dataStore.getD defaultDataStore).toNat : Int) = o.dataStore.getD defaultDataStore := by
    simp only [linkWords] at hsize
    omega
  refine ⟨?_, ?_, ?_, ?_, ?_, ?_, ?_, ?_, ?_, ?_, by omega, by omega, by simpa [ct] using hfits⟩ <;>
    by_cases hemp : object.program.isEmpty <;> simp [reset, fail, hemp, hn]

end Machine

end MiniJam
