import MiniJam.Proofs.Machine.Actions

/-!
# Machines in the same state

Two machines are `Alike` if they are in the same state, so that their programs find the same data,
and the same input to come.  They may differ in what no instruction looks at: the breakpoints, the
report of the last failure, and the other instructions of the program.  Their outputs are related by
`O`, which may be any relation that writing keeps (`Output.Tracks`).  They are `Akin` if also the
capacities of their code segments may differ.

An action that starts in machines that are akin ends in the same way in both, and leaves them akin
(`Exec.Agrees`), unless it looks at the capacities.  There are lemmas for the actions from which all
others are put together.  So machines that are alike and stand at the same instruction are alike after
a step (`Alike.step`).
-/

namespace MiniJam

/-- Writing the same to two outputs that are related keeps them so. -/
structure Output.Tracks (O : Output → Output → Prop) : Prop where
  refuses : ∀ {o o'}, O o o' → ∀ s, o'.refuses s = o.refuses s
  append : ∀ {o o'}, O o o' → ∀ s, O (o.append s) (o'.append s)

theorem Output.tracks_eq : Output.Tracks Eq where
  refuses h _ := by rw [h]
  append h _ := by rw [h]

theorem Output.Tracks.write (hO : Tracks O) (h : O o o') (s : String) :
    O (o.write s) (o'.write s) := by
  unfold Output.write
  rw [hO.refuses h]
  split
  · exact h
  · exact hO.append h s

namespace Machine

/-- What no instruction changes. -/
structure Setting where
  name : String
  program : Program
  symbols : Option Symbols
  capacity : Int
  words : Nat
  breakpoints : List Int
  /-- Whether the last run stopped at a breakpoint. -/
  paused : Bool
  hardCrash : Bool

def setting (m : Machine) : Setting :=
  ⟨m.name, m.program, m.symbols, m.capacity, m.data.size, m.breakpoints, m.paused, m.hardCrash⟩

/-- The machines are in the same state, with outputs that are related; the capacities of their code
segments may differ. -/
structure Akin (O : Output → Output → Prop) (m n : Machine) : Prop where
  ct : n.ct = m.ct
  symbols : n.symbols = m.symbols
  hardCrash : n.hardCrash = m.hardCrash
  data : n.data = m.data
  cp : n.cp = m.cp
  st : n.st = m.st
  lb : n.lb = m.lb
  ht : n.ht = m.ht
  ob : n.ob = m.ob
  state : n.state = m.state
  input : n.input = m.input
  lastChar : n.lastChar = m.lastChar
  output : O m.output n.output

/-- The machines are in the same state, with outputs that are related. -/
structure Alike (O : Output → Output → Prop) (m n : Machine) : Prop where
  ct : n.ct = m.ct
  symbols : n.symbols = m.symbols
  capacity : n.capacity = m.capacity
  hardCrash : n.hardCrash = m.hardCrash
  data : n.data = m.data
  cp : n.cp = m.cp
  st : n.st = m.st
  lb : n.lb = m.lb
  ht : n.ht = m.ht
  ob : n.ob = m.ob
  state : n.state = m.state
  input : n.input = m.input
  lastChar : n.lastChar = m.lastChar
  output : O m.output n.output

theorem Alike.refl (m : Machine) : Alike Eq m m :=
  ⟨rfl, rfl, rfl, rfl, rfl, rfl, rfl, rfl, rfl, rfl, rfl, rfl, rfl, rfl⟩

variable {O : Output → Output → Prop} {m n : Machine}

theorem Alike.akin (h : Alike O m n) : Akin O m n := { h with ct := h.ct }

theorem Akin.alike (h : Akin O m n) (hcap : n.capacity = m.capacity) : Alike O m n :=
  { h with ct := h.ct, capacity := hcap }

theorem Akin.hb (h : Akin O m n) : n.hb = m.hb := by simp only [Machine.hb, h.data]

theorem Alike.peek (h : Alike O m n) (addr : Int) : n.peek addr = m.peek addr := by
  simp [Machine.peek, h.data]

theorem Akin.reg (h : Akin O m n) {r : Reg}
    (hr : n.capacity = m.capacity ∨ r ≠ .pb ∧ r ≠ .pt) : n.reg r = m.reg r := by
  cases r with
  | zr | cb | sb => rfl
  | ct => exact h.ct
  | cp => exact h.cp
  | pb => exact hr.resolve_right fun hr => hr.1 rfl
  | pt => simp only [Machine.reg, Machine.pt, hr.resolve_right fun hr => hr.2 rfl]
  | st => exact h.st
  | lb => exact h.lb
  | hb => exact h.hb
  | ht => exact h.ht
  | ob => exact h.ob

/-! ### Dumps -/

theorem Akin.shownWord (h : Akin O m n) : n.shownWord = m.shownWord := by
  funext addr
  simp [Machine.shownWord, h.data]

theorem Akin.dumpHeap (h : Akin O m n) (k : Nat) (addr : Int) :
    n.dumpHeap addr k = m.dumpHeap addr k := by
  induction k generalizing addr with
  | zero => rfl
  | succ k ih => simp only [Machine.dumpHeap, h.ob, h.ht, h.shownWord, ih]

theorem Akin.dumpStack (h : Akin O m n) (k : Nat) (link : Int) :
    n.dumpStack link k = m.dumpStack link k := by
  induction k generalizing link with
  | zero => rfl
  | succ k ih => simp only [Machine.dumpStack, h.lb, h.hb, h.symbols, h.shownWord, ih]

theorem Akin.dump (h : Akin O m n) : n.dump = m.dump := by
  simp only [Machine.dump, Machine.dumpHeading, h.cp, h.symbols, h.ht, h.hb, h.st, h.lb, h.dumpHeap,
    h.dumpStack]

/-! ### Actions -/

namespace Exec

/-- The action ended in the same way in two machines, and left them akin, in their settings. -/
inductive Matches {α : Type} (O : Output → Output → Prop) (m n : Machine) :
    EStateM.Result Stop Machine α → EStateM.Result Stop Machine α → Prop
  | ok {m' n' : Machine} (a : α) (h : Akin O m' n') (hm : m'.setting = m.setting)
    (hn : n'.setting = n.setting) : Matches O m n (.ok a m') (.ok a n')
  | error {m' n' : Machine} (e : Stop) (h : Akin O m' n') (hm : m'.setting = m.setting)
    (hn : n'.setting = n.setting) : Matches O m n (.error e m') (.error e n')

theorem Matches.trans {α : Type} {r r' : EStateM.Result Stop Machine α} (h : Matches O m' n' r r')
    (hm : m'.setting = m.setting) (hn : n'.setting = n.setting) : Matches O m n r r' := by
  cases h with
  | ok a h hm' hn' => exact .ok a h (hm'.trans hm) (hn'.trans hn)
  | error e h hm' hn' => exact .error e h (hm'.trans hm) (hn'.trans hn)

/-- The action does the same in machines that are akin. -/
def Agrees {α : Type} (c c' : Int) (O : Output → Output → Prop) (x : Exec α) : Prop :=
  ∀ m n, Akin O m n → m.capacity = c → n.capacity = c' → Matches O m n (x m) (x n)

variable {α β : Type} {c c' : Int}

theorem agrees_pure (a : α) : Agrees c c' O (pure a) := fun _ _ h _ _ => .ok a h rfl rfl

theorem agrees_throw (e : Stop) : Agrees c c' O (throw e : Exec α) :=
  fun _ _ h _ _ => .error e h rfl rfl

theorem agrees_fail (why : Failure) : Agrees c c' O (fail why : Exec α) := agrees_throw _

theorem Agrees.bind {f : α → Exec β} (hx : Agrees c c' O x) (hf : ∀ a, Agrees c c' O (f a)) :
    Agrees c c' O (x >>= f) := by
  intro m n h hc hc'
  have hx := hx m n h hc hc'
  simp only [Bind.bind, EStateM.bind]
  generalize x m = r, x n = r' at hx ⊢
  cases hx with
  | @ok m' n' a h' hm hn =>
    exact (hf a m' n' h' ((congrArg Setting.capacity hm).trans hc)
      ((congrArg Setting.capacity hn).trans hc')).trans hm hn
  | error e h' hm hn => exact .error e h' hm hn

theorem agrees_get {f : Machine → Exec β}
    (heq : ∀ m n, Akin O m n → m.capacity = c → n.capacity = c' → f n = f m)
    (hf : ∀ m, Agrees c c' O (f m)) : Agrees c c' O (get >>= f) := by
  intro m n h hc hc'
  show Matches O m n (f m m) (f n n)
  rw [heq m n h hc hc']
  exact hf m m n h hc hc'

/-- An action on registers that sets them in the same way in machines that are akin. -/
theorem agrees_registers {f : Machine → Machine}
    (hf : ∀ m, f m = { m with
      cp := (f m).cp, st := (f m).st, lb := (f m).lb, ht := (f m).ht, ob := (f m).ob })
    (heq : ∀ m n, Akin O m n → (f n).cp = (f m).cp ∧ (f n).st = (f m).st ∧ (f n).lb = (f m).lb ∧
      (f n).ht = (f m).ht ∧ (f n).ob = (f m).ob) : Agrees c c' O (modify f : Exec Unit) := by
  intro m n h _ _
  obtain ⟨hcp, hst, hlb, hht, hob⟩ := heq m n h
  refine .ok () ?_ ?_ ?_
  · rw [hf m, hf n]
    exact { h with cp := hcp, st := hst, lb := hlb, ht := hht, ob := hob, ct := h.ct }
  · rw [hf m]
    rfl
  · rw [hf n]
    rfl

theorem agrees_ite {p : Prop} [Decidable p] (hx : Agrees c c' O x) (hy : Agrees c c' O y) :
    Agrees c c' O (if p then x else y) := by
  split
  · exact hx
  · exact hy

theorem agrees_require (b : Bool) (why : Failure) : Agrees c c' O (require b why) := by
  cases b
  · exact agrees_fail why
  · exact agrees_pure ()

theorem agrees_word (addr : Int) : Agrees c c' O (word addr) := by
  intro m n h _ _
  simp only [word, h.data]
  split
  · exact .error _ h rfl rfl
  · split
    · exact .ok _ h rfl rfl
    · exact .error _ h rfl rfl

theorem agrees_setWord (addr value : Int) : Agrees c c' O (setWord addr value) := by
  intro m n h _ _
  simp only [setWord, h.data]
  split
  · refine .ok () { h with data := rfl, ct := h.ct } ?_ ?_
    · simp [setting]
    · simp [setting, h.data]
  · exact .error _ h rfl rfl

theorem agrees_effective {i : Instr}
    (hi : c' = c ∨ ∀ r, Reg.ofCode? i.r = some r → r ≠ .pb ∧ r ≠ .pt) :
    Agrees c c' O (effective i) := by
  unfold effective
  cases hr : Reg.ofCode? i.r with
  | none => exact agrees_fail _
  | some r =>
    refine agrees_get (fun m n h hc hc' => ?_) fun _ => agrees_pure _
    rw [h.reg (hi.imp (fun hi => by rw [hc, hc', hi]) fun hi => hi r hr)]

theorem agrees_readAfter (p : UInt8 → Bool) : Agrees c c' O (readAfter p) := by
  intro m n h _ _
  simp only [readAfter, h.input]
  split
  · exact .ok _ { h with input := rfl, lastChar := rfl, ct := h.ct } rfl rfl
  · exact .ok _ { h with input := rfl, lastChar := rfl, ct := h.ct } rfl rfl
  · exact .error _ { h with input := rfl, ct := h.ct } rfl rfl

theorem agrees_readInt : Agrees c c' O readInt := by
  intro m n h _ _
  simp only [readInt, h.input]
  split
  · exact .ok _ { h with input := rfl, lastChar := rfl, ct := h.ct } rfl rfl
  · exact .error _ { h with input := rfl, ct := h.ct } rfl rfl
  · exact .error _ { h with input := rfl, ct := h.ct } rfl rfl

theorem agrees_clear (addr : Int) (k : Nat) : Agrees c c' O (clear addr k) := by
  induction k generalizing addr with
  | zero => exact agrees_pure ()
  | succ k ih => exact (agrees_setWord addr 0).bind fun _ => ih (addr + 1)

section

variable (hO : Output.Tracks O)
include hO

theorem agrees_print (s : String) : Agrees c c' O (print s) := by
  intro m n h _ _
  simp only [print, hO.refuses h.output]
  split
  · exact .error _ h rfl rfl
  · exact .ok () { h with output := hO.append h.output s, ct := h.ct } rfl rfl

theorem agrees_dumpOut : Agrees c c' O dumpOut := by
  intro m n h _ _
  have hwrit : ∀ (ps : List String) (o o' : Output), O o o' →
      O (ps.foldl Output.write o) (ps.foldl Output.write o') := by
    intro ps
    induction ps with
    | nil => exact fun _ _ h => h
    | cons s ps ih => exact fun _ _ h => ih _ _ (hO.write h s)
  simp only [dumpOut, h.dump]
  have h' : Akin O { m with output := m.dump.pieces.1.foldl Output.write m.output }
      { n with output := m.dump.pieces.1.foldl Output.write n.output } :=
    { h with output := hwrit _ _ _ h.output, ct := h.ct }
  split
  · exact .error _ h' rfl rfl
  · exact .ok () h' rfl rfl

/-! ### Instructions -/

-- The actions below are sequences of those above, whatever the machine they start in.

theorem agrees_primitive (q : Prim) : Agrees c c' O (primitive q) := by
  cases q
  all_goals
    simp only [primitive, unary, binary, compare, arith, divide, checkWord, allocate, arrayIndex,
      fieldIndex, heapRef, top1, top2, top3, need, push, pop, setTop, write, checkAddress, checkSpace,
      readChar, drop, setST]
    repeat' with_reducible first
      | exact agrees_pure _ | exact agrees_require _ _ | exact agrees_word _
      | exact agrees_setWord _ _ | exact agrees_clear _ _ | exact agrees_print hO _
      | exact agrees_readInt | exact agrees_readAfter _
      | refine agrees_get (fun m n h _ _ => by
          simp only [h.st, h.ht, h.hb, h.data, h.lastChar]) fun _ => ?_
      | refine agrees_registers (fun _ => rfl) fun m n h => ?_
        simp only [h.cp, h.st, h.lb, h.ht, h.ob, and_self]
      | refine Agrees.bind ?_ fun _ => ?_

/-- An operation does the same if its address does; the address of a routine to call is looked at
together with what is called there. -/
theorem agrees_operation {op : Opcode} {next : Int}
    (heff : op ≠ .call → Agrees c c' O (effective i))
    (hcall : op = .call → Agrees c c' O (operation .call i next)) :
    Agrees c c' O (operation op i next) := by
  cases op
  case call => exact hcall rfl
  all_goals
    simp only [operation, callInstance, callDynamic, ret, pushFrame, heapRef, top1, top2, need, push,
      pop, read, write, checkAddress, checkSpace, drop, setST]
    repeat' with_reducible first
      | exact agrees_pure _ | exact agrees_require _ _ | exact agrees_word _
      | exact agrees_setWord _ _ | exact agrees_dumpOut hO | exact agrees_throw _
      | exact heff (by decide)
      | refine agrees_get (fun m n h _ _ => by
          simp only [h.cp, h.ct, h.st, h.lb, h.ht, h.hb, h.ob, h.data]) fun _ => ?_
      | refine agrees_registers (fun _ => rfl) fun m n h => ?_
        simp only [h.cp, h.st, h.lb, h.ht, h.ob, and_self]
      | refine agrees_ite ?_ ?_
      | refine Agrees.bind ?_ fun _ => ?_

omit hO in
theorem agrees_enter (addr : Int) : Agrees c c' O (do
    checkSpace linkWords
    pushFrame (← get).st 0
    return addr) := by
  refine Agrees.bind (agrees_get (fun m n h _ _ => by simp only [h.ht, h.st]) fun _ =>
    agrees_require _ _) fun _ => agrees_get (fun m n h _ _ => by simp only [h.st]) fun _ => ?_
  refine Agrees.bind (agrees_get (fun m n h _ _ => by simp only [h.ob, h.lb, h.cp]) fun _ => ?_)
    fun _ => agrees_pure addr
  exact (agrees_setWord _ _).bind fun _ => (agrees_setWord _ _).bind fun _ =>
    (agrees_setWord _ _).bind fun _ => agrees_registers (fun _ => rfl) fun m n h => by
      simp only [h.cp, h.ht, and_self]

theorem agrees_call (addr next : Int) : Agrees c c O (call addr next) := by
  refine agrees_get (fun m n h hc hc' => ?_) fun m => agrees_ite ?_ (agrees_enter addr)
  · simp [pb, pt, hc, hc']
  · cases Prim.ofCode? (addr - m.pb) with
    | none => exact (agrees_fail _).bind fun _ => agrees_pure _
    | some q => exact (agrees_primitive hO q).bind fun _ => agrees_pure _

theorem agrees_instruction_of {i : Instr}
    (heff : Opcode.ofCode? i.op ≠ some .call → Agrees c c' O (effective i))
    (hcall : Opcode.ofCode? i.op = some .call → ∀ next, Agrees c c' O (operation .call i next)) :
    Agrees c c' O (instruction i) := by
  refine agrees_get (fun m n h _ _ => by simp only [h.cp]) fun _ => ?_
  cases hop : Opcode.ofCode? i.op with
  | none => exact agrees_fail _
  | some op =>
    refine (agrees_operation hO (fun hne => heff ?_) fun heq => hcall ?_ _).bind fun next =>
      Agrees.bind (agrees_registers (fun _ => rfl) fun m n h => ?_) fun _ =>
        agrees_get (fun m n h _ _ => by simp only [h.ct]) fun _ => agrees_require _ _
    · rwa [hop, ne_eq, Option.some.injEq]
    · rw [hop, heq]
    · simp only [h.st, h.lb, h.ht, h.ob, and_self]

theorem agrees_instruction (i : Instr) (m n : Machine) (h : Alike O m n) :
    Matches O m n (instruction i m) (instruction i n) := by
  have hinstr : Agrees m.capacity m.capacity O (instruction i) :=
    agrees_instruction_of hO (fun _ => agrees_effective (.inl rfl)) fun _ _ =>
      (agrees_effective (.inl rfl)).bind fun _ => agrees_call hO _ _
  exact hinstr m n h.akin rfl h.capacity

end

end Exec

/-! ### Steps -/

theorem Akin.fail (h : Akin O m n) (why : Failure) : Akin O (m.fail why) (n.fail why) :=
  { h with state := rfl, ct := h.ct }

theorem Akin.stopped (h : Akin O m n) (e : Stop) :
    Akin O (m.stopped e).1 (n.stopped e).1 ∧ (n.stopped e).2 = (m.stopped e).2 := by
  cases e with
  | halt => exact ⟨{ h with state := rfl, ct := h.ct }, rfl⟩
  | failure why => exact ⟨h.fail why, rfl⟩
  | fault f =>
    simp only [Machine.stopped, h.hardCrash]
    split
    · exact ⟨h, rfl⟩
    · exact ⟨h.fail _, rfl⟩

theorem setting_stopped (m : Machine) (e : Stop) : (m.stopped e).1.setting = m.setting := by
  cases e with
  | halt | failure => rfl
  | fault f =>
    simp only [stopped]
    split <;> rfl

theorem Akin.step_of (h : Akin O m n) (hi : m.instrAt? m.cp = some i)
    (hj : n.instrAt? n.cp = some j)
    (hx : m.state = .running → Exec.Matches O m n (Exec.instruction i m) (Exec.instruction j n)) :
    Akin O m.step.1 n.step.1 ∧ n.step.2 = m.step.2 := by
  by_cases hrun : m.state = .running
  · have hx := hx hrun
    simp only [step, h.state, hrun, advance, hi, hj]
    generalize Exec.instruction i m = r, Exec.instruction j n = r' at hx ⊢
    cases hx with
    | ok a h' => exact ⟨h', rfl⟩
    | error e h' => exact h'.stopped e
  · have hrun' : n.state ≠ .running := h.state ▸ hrun
    rw [step_of_not_running hrun, step_of_not_running hrun']
    exact ⟨h, rfl⟩

theorem Akin.step_none (h : Akin O m n) (hm : m.instrAt? m.cp = none)
    (hn : n.instrAt? n.cp = none) : Akin O m.step.1 n.step.1 ∧ n.step.2 = m.step.2 := by
  have hsize : n.program.size = m.program.size := Int.ofNat.inj h.ct
  rw [h.cp] at hn
  simp only [step, h.state, advance, hn, hm, h.cp, hsize]
  split
  · exact h.stopped _
  · exact ⟨h, rfl⟩

theorem setting_step (m : Machine) : m.step.1.setting = m.setting := by
  by_cases hrun : m.state = .running
  · simp only [step, hrun, advance]
    cases m.instrAt? m.cp with
    | none => exact setting_stopped _ _
    | some i =>
      have hx := Exec.agrees_instruction Output.tracks_eq i m m (.refl m)
      dsimp only
      generalize Exec.instruction i m = r at hx ⊢
      cases hx with
      | ok a _ hm => exact hm
      | error e _ hm => exact (setting_stopped _ e).trans hm
  · rw [step_of_not_running hrun]

theorem capacity_step (m : Machine) : m.step.1.capacity = m.capacity :=
  congrArg Setting.capacity m.setting_step

theorem Alike.step_of (hO : Output.Tracks O) (h : Alike O m n) (hi : m.instrAt? m.cp = some i)
    (hj : n.instrAt? n.cp = some j)
    (heq : m.state = .running → Exec.instruction j m = Exec.instruction i m) :
    Alike O m.step.1 n.step.1 ∧ n.step.2 = m.step.2 := by
  refine (h.akin.step_of hi hj fun hrun => ?_).imp_left fun hstep => hstep.alike ?_
  · rw [← heq hrun]
    exact Exec.agrees_instruction hO j m n h
  · rw [capacity_step, capacity_step, h.capacity]

theorem Alike.step (hO : Output.Tracks O) (h : Alike O m n)
    (hi : n.instrAt? n.cp = m.instrAt? m.cp) :
    Alike O m.step.1 n.step.1 ∧ n.step.2 = m.step.2 := by
  cases hm : m.instrAt? m.cp with
  | some i => exact h.step_of hO hm (hi.trans hm) fun _ => rfl
  | none =>
    refine (h.akin.step_none hm (hi.trans hm)).imp_left fun hstep => hstep.alike ?_
    rw [capacity_step, capacity_step, h.capacity]

theorem setting_after (m : Machine) (k : Nat) : (m.after k).setting = m.setting := by
  induction k with
  | zero => rfl
  | succ k ih => exact (setting_step _).trans ih

/-! ### Loading -/

/-- A machine before its breakpoints are set and its data store is cleared. -/
def blank (name : String) (object : Object) (o : Options) (input : Input) (output : Output) :
    Machine :=
  { name, program := object.program
    symbols := if o.noSymbols then none else object.symbols
    capacity := o.capacity.getD defaultCapacity
    data := Array.replicate (o.dataStore.getD defaultDataStore).toNat 0
    cp := 0, st := 0, lb := 0, ht := 0, ob := 0, state := .running
    input, lastChar := 0, output, breakpoints := [], paused := false
    hardCrash := o.hardCrash, report := "", failures := 0 }

def withBreakpoints (m : Machine) (bs : List Int) : Machine := { m with breakpoints := bs }

theorem load_ok_iff {name : String} {object : Object} {input : Input} {output : Output} :
    load name object o input output = .ok m ↔
      linkWords < o.dataStore.getD defaultDataStore ∧ 0 < o.capacity.getD defaultCapacity ∧
      object.program.size ≤ o.capacity.getD defaultCapacity ∧
      ∃ bs, o.breakpoints.foldlM setBreakpoint (blank name object o input output) =
          .ok ((blank name object o input output).withBreakpoints bs) ∧
        m = ((blank name object o input output).withBreakpoints bs).reset := by
  have hload : load name object o input output =
      if o.dataStore.getD defaultDataStore ≤ linkWords then
        .error (.dataStoreTooSmall (o.dataStore.getD defaultDataStore))
      else if o.capacity.getD defaultCapacity ≤ 0 then
        .error (.invalidCapacity (o.capacity.getD defaultCapacity))
      else o.breakpoints.foldlM setBreakpoint (blank name object o input output) >>= fun m =>
        if o.capacity.getD defaultCapacity < m.ct then
          .error (.programTooLong m.program.size (o.capacity.getD defaultCapacity))
        else .ok m.reset := by
    simp only [load, bind, Except.bind, throw, throwThe, MonadExceptOf.throw, pure, Except.pure]
    split
    · rfl
    · split <;> rfl
  rw [hload]
  constructor
  · intro h
    split at h
    · cases h
    split at h
    · cases h
    cases hset : o.breakpoints.foldlM setBreakpoint (blank name object o input output) with
    | error e =>
      rw [hset] at h
      cases h
    | ok b =>
      obtain ⟨bs, rfl⟩ := setBreakpoints_ok hset
      rw [hset] at h
      simp only [bind, Except.bind] at h
      split at h
      · cases h
      · rename_i hsto hcap hf
        exact ⟨Int.not_le.1 hsto, Int.not_le.1 hcap, Int.not_lt.1 hf, bs, rfl,
          (Except.ok.inj h).symm⟩
  · rintro ⟨hsto, hcap, hf, bs, hset, rfl⟩
    rw [if_neg (Int.not_le.2 hsto), if_neg (Int.not_le.2 hcap), hset]
    exact if_neg (Int.not_lt.2 hf)

theorem setBreakpoints_of_ct {bs : List Int} {m m' n : Machine} (hct : n.ct = m.ct)
    (hbs : n.breakpoints = m.breakpoints) (h : bs.foldlM setBreakpoint m = .ok m') :
    bs.foldlM setBreakpoint n = .ok (n.withBreakpoints m'.breakpoints) := by
  induction bs generalizing m n with
  | nil =>
    cases h
    rw [← hbs]
    rfl
  | cons b bs ih =>
    rw [List.foldlM_cons] at h ⊢
    simp only [setBreakpoint, hct, hbs] at h ⊢
    split at h
    · rw [if_pos ‹_›]
      exact ih (m := { m with breakpoints := Listing.insertAddr b m.breakpoints }) hct rfl h
    · cases h

theorem program_reset (m : Machine) : m.reset.program = m.program := by
  simp only [reset]
  split <;> rfl

/-- Resetting leaves nothing of the state but the size of the data store, and the input and output. -/
theorem akin_reset (hct : n.ct = m.ct) (hsym : n.symbols = m.symbols)
    (hcras : n.hardCrash = m.hardCrash) (hdata : n.data.size = m.data.size)
    (hinp : n.input = m.input) (hout : O m.output n.output) : Akin O m.reset n.reset := by
  have hemp : n.program.isEmpty = m.program.isEmpty := by
    simp only [Array.isEmpty, Int.ofNat.inj hct]
  simp only [reset, hemp, hdata]
  split
  · exact ⟨hct, hsym, hcras, rfl, rfl, rfl, rfl, rfl, rfl, rfl, hinp, rfl, hout⟩
  · exact ⟨hct, hsym, hcras, rfl, rfl, rfl, rfl, rfl, rfl, rfl, hinp, rfl, hout⟩

theorem capacity_reset (m : Machine) : m.reset.capacity = m.capacity := by
  simp only [reset]
  split <;> rfl

theorem alike_reset (hct : n.ct = m.ct) (hsym : n.symbols = m.symbols)
    (hcap : n.capacity = m.capacity) (hcras : n.hardCrash = m.hardCrash)
    (hdata : n.data.size = m.data.size) (hinp : n.input = m.input) (hout : O m.output n.output) :
    Alike O m.reset n.reset :=
  (akin_reset hct hsym hcras hdata hinp hout).alike
    (by rw [capacity_reset, capacity_reset, hcap])

end Machine

end MiniJam
