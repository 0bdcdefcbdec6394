import MiniJam.Proofs.Machine.Alike

/-!
# Machines that are paused and resumed

A machine is used by calls that step, run or reset it, or that set and clear breakpoints.  `Use`
keeps what such calls do to a machine together with the number of steps since the last reset, and
with the input and the output as they were then.

* `Machine.run_eq_some_iff` : a run makes the least number of steps after which the program has
  stopped or a breakpoint is reached.
* `Machine.Use.Tracks.calls` : whatever the calls are, the machine is in the state in which that
  number of single steps puts a new machine.

Someone else may write to the output of the machine while it is used.  `Machine.Mixed` has the steps
of a machine with such texts in between; if nothing limits the output, they make no difference to the
steps (`Machine.Mixed.alike`).
-/

namespace MiniJam

open Option

namespace Machine

variable {m n : Machine}

/-! ### Steps of machines that are alike -/

variable {O : Output → Output → Prop} {k : Nat} {r : Run} {o' : Output}

theorem Alike.trans (h : Alike O l m) (h' : Alike Eq m n) : Alike O l n :=
  ⟨h'.ct.trans h.ct, h'.symbols.trans h.symbols, h'.capacity.trans h.capacity,
    h'.hardCrash.trans h.hardCrash, h'.data.trans h.data, h'.cp.trans h.cp, h'.st.trans h.st,
    h'.lb.trans h.lb, h'.ht.trans h.ht, h'.ob.trans h.ob, h'.state.trans h.state,
    h'.input.trans h.input, h'.lastChar.trans h.lastChar, h'.output ▸ h.output⟩

theorem program_step (m : Machine) : m.step.1.program = m.program :=
  congrArg Setting.program m.setting_step

theorem program_after (m : Machine) (k : Nat) : (m.after k).program = m.program :=
  congrArg Setting.program (m.setting_after k)

theorem Alike.next (hO : Output.Tracks O) (h : Alike O m n)
    (hprog : n.program = m.program) : Alike O m.step.1 n.step.1 := by
  refine (h.step hO ?_).1
  simp [instrAt?, h.cp, hprog]

theorem Alike.after (hO : Output.Tracks O) (h : Alike O m n)
    (hprog : n.program = m.program) (k : Nat) : Alike O (m.after k) (n.after k) := by
  induction k with
  | zero => exact h
  | succ k ih =>
    refine ih.next hO ?_
    rw [program_after, program_after, hprog]

theorem snd_step (h : m.hardCrash = false) : m.step.2 = none := by
  have hstop : ∀ (m' : Machine) e, m'.setting = m.setting → (m'.stopped e).2 = none := by
    intro m' e hm'
    have hcras : m'.hardCrash = false := (congrArg Setting.hardCrash hm').trans h
    cases e with
    | halt => rfl
    | failure why => rfl
    | fault f => simp [stopped, hcras]
  by_cases hrun : m.state = .running
  · simp only [step, hrun, advance]
    cases m.instrAt? m.cp with
    | none => exact hstop m _ rfl
    | some i =>
      have hx := Exec.agrees_instruction Output.tracks_eq i m m (.refl m)
      dsimp only
      generalize Exec.instruction i m = r at hx ⊢
      cases hx with
      | ok => rfl
      | error e _ hm => exact hstop _ e hm
  · rw [step_of_not_running hrun]

/-! ### Runs -/

/-- After `k` steps the program has stopped or a breakpoint is reached. -/
def StopsAt (m : Machine) (k : Nat) : Prop :=
  (m.after k).state ≠ .running ∨ m.isBreakpoint (m.after k).cp = true

instance (m : Machine) (k : Nat) : Decidable (m.StopsAt k) :=
  inferInstanceAs (Decidable (_ ∨ _))

/-- A run that makes at least one step stops after `k` steps. -/
def FirstStop (m : Machine) (k : Nat) : Prop :=
  1 ≤ k ∧ m.StopsAt k ∧ ∀ j, 1 ≤ j → j < k → ¬ m.StopsAt j

theorem isBreakpoint_step (m : Machine) (addr : Int) :
    m.step.1.isBreakpoint addr = m.isBreakpoint addr :=
  congrArg (·.contains addr) (congrArg Setting.breakpoints m.setting_step)

theorem after_step (m : Machine) (k : Nat) : m.step.1.after k = m.after (k + 1) := by
  rw [Nat.add_comm, after_add]
  rfl

theorem stopsAt_step (m : Machine) (k : Nat) : m.step.1.StopsAt k ↔ m.StopsAt (k + 1) := by
  simp [StopsAt, after_step, isBreakpoint_step]

theorem firstStop_one (m : Machine) : m.FirstStop 1 ↔ m.StopsAt 1 := by
  refine ⟨fun h => h.2.1, fun h => ⟨Nat.le_refl 1, h, ?_⟩⟩
  intro j hj hlt
  omega

theorem firstStop_step (h : ¬ m.StopsAt 1) (hk : 1 ≤ k) :
    m.step.1.FirstStop k ↔ m.FirstStop (k + 1) := by
  constructor
  · rintro ⟨-, hstops, hleas⟩
    refine ⟨by omega, (m.stopsAt_step k).1 hstops, ?_⟩
    intro j hj hlt hs
    rcases j with _ | _ | j
    · omega
    · exact h hs
    · exact hleas (j + 1) (by omega) (by omega) ((m.stopsAt_step (j + 1)).2 hs)
  · rintro ⟨-, hstops, hleas⟩
    refine ⟨hk, (m.stopsAt_step k).2 hstops, ?_⟩
    intro j hj hlt hs
    exact hleas (j + 1) (by omega) (by omega) ((m.stopsAt_step j).1 hs)

theorem FirstStop.unique (hj : m.FirstStop j) (hk : m.FirstStop k) : j = k := by
  rcases Nat.lt_trichotomy j k with hlt | heq | hlt
  · exact absurd hj.2.1 (hk.2.2 j hj.1 hlt)
  · exact heq
  · exact absurd hk.2.1 (hj.2.2 k hk.1 hlt)

/-- The machine at the end of a run: it is paused if its program can go on. -/
def ended (m : Machine) : Machine := if m.state = .running then { m with paused := true } else m

theorem round_eq (f : Nat → Machine → Option Run) (hrun : m.state = .running)
    (hcras : m.hardCrash = false) (e : Nat) :
    (match m.advance with
      | (m, some x) => some ⟨m, e, some x⟩
      | (m, none) =>
        if m.state ≠ .running then some ⟨m, e + 1, none⟩
        else if m.isBreakpoint m.cp then some ⟨{ m with paused := true }, e + 1, none⟩
        else f (e + 1) m) =
      if m.StopsAt 1 then some ⟨m.step.1.ended, e + 1, none⟩ else f (e + 1) m.step.1 := by
  have hadv : m.advance = (m.step.1, none) := by
    have hstep : m.step = m.advance := by simp only [step, hrun]
    rw [← hstep, ← snd_step hcras]
  have haft : m.after 1 = m.step.1 := rfl
  rw [hadv]
  simp only [StopsAt, haft, ended, isBreakpoint_step]
  by_cases hsta : m.step.1.state = .running
  · by_cases hbrea : m.isBreakpoint m.step.1.cp = true
    · simp [hsta, hbrea]
    · simp [hsta, hbrea]
  · simp [hsta]

theorem running_step (h : ¬ m.StopsAt 1) : m.step.1.state = .running :=
  Decidable.byContradiction fun hsta => h (.inl hsta)

theorem hardCrash_step (m : Machine) : m.step.1.hardCrash = m.hardCrash :=
  congrArg Setting.hardCrash m.setting_step

theorem exists_of_runFrom {e : Nat} (h : m.runFrom e = some r)
    (hrun : m.state = .running) (hcras : m.hardCrash = false) :
    ∃ k, m.FirstStop k ∧ r = ⟨(m.after k).ended, e + k, none⟩ := by
  -- A loop has an answer only if finitely many rounds lead to it.
  refine runFrom.partial_correctness (fun e m r => m.state = .running → m.hardCrash = false →
    ∃ k, m.FirstStop k ∧ r = ⟨(m.after k).ended, e + k, none⟩) ?_ e m r h hrun hcras
  intro f ih e m r h hrun hcras
  replace h := (round_eq f hrun hcras e).symm.trans h
  by_cases hs : m.StopsAt 1
  · rw [if_pos hs] at h
    exact ⟨1, m.firstStop_one.2 hs, (some.inj h).symm⟩
  · rw [if_neg hs] at h
    obtain ⟨k, hk, rfl⟩ := ih _ _ _ h (running_step hs) (m.hardCrash_step.trans hcras)
    refine ⟨k + 1, (firstStop_step hs hk.1).1 hk, ?_⟩
    rw [after_step, Nat.add_right_comm, Nat.add_assoc]

theorem runFrom_of_firstStop (hk : m.FirstStop k) (hrun : m.state = .running)
    (hcras : m.hardCrash = false) (e : Nat) :
    m.runFrom e = some ⟨(m.after k).ended, e + k, none⟩ := by
  induction k generalizing m e with
  | zero => exact absurd hk.1 (Nat.not_succ_le_zero 0)
  | succ k ih =>
    have hroun := (runFrom.eq_1 e m).trans (round_eq runFrom hrun hcras e)
    rw [hroun]
    by_cases hs : m.StopsAt 1
    · cases hk.unique (m.firstStop_one.2 hs)
      rw [if_pos hs]
      rfl
    · have hpos : 1 ≤ k := by
        rcases k with _ | k
        · exact absurd hk.2.1 hs
        · omega
      rw [if_neg hs, ih ((firstStop_step hs hpos).2 hk) (running_step hs)
        (m.hardCrash_step.trans hcras), after_step, Nat.add_right_comm, Nat.add_assoc]

def resumed (m : Machine) : Machine := { m with paused := false }

theorem run_eq (m : Machine) :
    m.run = if m.state = .running then m.resumed.runFrom 0 else some ⟨m.resumed, 0, none⟩ := by
  dsimp only [run]
  split
  · rename_i hrun
    exact (if_pos hrun).symm
  · rename_i hrun
    exact (if_neg hrun).symm

theorem alike_resumed (m : Machine) : Alike Eq m m.resumed := { Alike.refl m with ct := rfl }

theorem alike_after_resumed (m : Machine) (k : Nat) : Alike Eq (m.after k) (m.resumed.after k) :=
  m.alike_resumed.after Output.tracks_eq rfl k

theorem stopsAt_resumed (m : Machine) (k : Nat) : m.resumed.StopsAt k ↔ m.StopsAt k := by
  have h := m.alike_after_resumed k
  simp only [StopsAt, h.state, h.cp]
  rfl

theorem firstStop_resumed (m : Machine) (k : Nat) : m.resumed.FirstStop k ↔ m.FirstStop k := by
  simp [FirstStop, stopsAt_resumed]

/-- A run of a program that can go on makes the least number of steps after which it stops, and has
no answer if there is no such number. -/
theorem run_eq_some_iff (hrun : m.state = .running) (hcras : m.hardCrash = false) :
    m.run = some r ↔ ∃ k, m.FirstStop k ∧ r = ⟨(m.resumed.after k).ended, k, none⟩ := by
  rw [run_eq, if_pos hrun]
  constructor
  · intro h
    obtain ⟨k, hk, rfl⟩ := exists_of_runFrom h hrun hcras
    exact ⟨k, (m.firstStop_resumed k).1 hk, by rw [Nat.zero_add]⟩
  · rintro ⟨k, hk, rfl⟩
    rw [runFrom_of_firstStop ((m.firstStop_resumed k).2 hk) hrun hcras, Nat.zero_add]

theorem run_of_not_running (h : m.state ≠ .running) : m.run = some ⟨m.resumed, 0, none⟩ := by
  rw [run_eq, if_neg h]

/-- What a run does. -/
structure Ran (m : Machine) (r : Run) : Prop where
  executed : if m.state = .running then m.FirstStop r.executed else r.executed = 0
  alike : Alike Eq (m.after r.executed) r.machine
  crash : r.crash = none
  paused : r.machine.paused = true ↔
    r.machine.state = .running ∧ r.machine.isBreakpoint r.machine.cp = true
  program : r.machine.program = m.program
  breakpoints : r.machine.breakpoints = m.breakpoints

theorem alike_ended (m : Machine) : Alike Eq m m.ended := by
  unfold ended
  split <;> exact { Alike.refl m with ct := rfl }

theorem ended_eq (m : Machine) :
    m.ended.program = m.program ∧ m.ended.breakpoints = m.breakpoints := by
  unfold ended
  split <;> exact ⟨rfl, rfl⟩

theorem ran_of_run (hcras : m.hardCrash = false) (h : m.run = some r) : m.Ran r := by
  by_cases hrun : m.state = .running
  · obtain ⟨k, hk, rfl⟩ := (run_eq_some_iff hrun hcras).1 h
    have hal := m.alike_after_resumed k
    have hset := m.resumed.setting_after k
    have hbps := congrArg Setting.breakpoints hset
    refine ⟨by rwa [if_pos hrun], hal.trans (alike_ended _), rfl, ?_,
      (ended_eq _).1.trans (congrArg Setting.program hset),
      (ended_eq _).2.trans hbps⟩
    by_cases hsta : (m.resumed.after k).state = .running
    · -- It was not the program that stopped, so it was a breakpoint.
      have hbrea : m.isBreakpoint (m.resumed.after k).cp = true := by
        rcases hk.2.1 with hstop | hbrea
        · exact absurd (hal.state.symm.trans hsta) hstop
        · rwa [hal.cp]
      have hbrea' := (congrArg (·.contains (m.resumed.after k).cp) hbps).trans hbrea
      simp only [ended, if_pos hsta, true_iff]
      exact ⟨hsta, hbrea'⟩
    · have hpaus : (m.resumed.after k).paused = false := congrArg Setting.paused hset
      simp [ended, hsta, hpaus]
  · rw [run_of_not_running hrun] at h
    obtain rfl := (some.inj h).symm
    refine ⟨by rw [if_neg hrun], m.alike_resumed, rfl, ?_, rfl, rfl⟩
    exact ⟨nofun, fun hpaus => absurd hpaus.1 hrun⟩

/-- A run has an answer if and only if the program stops or a breakpoint is reached. -/
theorem isSome_run_iff (hcras : m.hardCrash = false) :
    m.run.isSome ↔ m.state ≠ .running ∨ ∃ k, 1 ≤ k ∧ m.StopsAt k := by
  by_cases hrun : m.state = .running
  · rw [isSome_iff_exists]
    constructor
    · rintro ⟨r, hr⟩
      obtain ⟨k, hk, -⟩ := (run_eq_some_iff hrun hcras).1 hr
      exact .inr ⟨k, hk.1, hk.2.1⟩
    · rintro (hsta | ⟨k, hk⟩)
      · exact absurd hrun hsta
      · obtain ⟨j, hj⟩ : ∃ j, m.FirstStop j := by
          induction k using Nat.strongRecOn with
          | ind k ih =>
            by_cases hleas : ∃ j, 1 ≤ j ∧ j < k ∧ m.StopsAt j
            · obtain ⟨j, hj, hlt, hs⟩ := hleas
              exact ih j hlt ⟨hj, hs⟩
            · exact ⟨k, hk.1, hk.2, fun j hj hlt hs => hleas ⟨j, hj, hlt, hs⟩⟩
        exact ⟨_, (run_eq_some_iff hrun hcras).2 ⟨j, hj, rfl⟩⟩
  · rw [run_of_not_running hrun]
    exact ⟨fun _ => .inl hrun, fun _ => rfl⟩

/-! ### Calls -/

/-- What can be asked of a machine. -/
inductive Call where
  | step
  | run
  | setBreakpoint (addr : Int)
  | clearBreakpoint (addr : Int)
  | reset
  deriving DecidableEq, Repr

/-- A machine in use, with what is known about it since the last reset. -/
structure Use where
  machine : Machine
  executed : Nat
  /-- The texts that were written to the output by others. -/
  said : List String
  input : Input
  output : Output

def told (m : Machine) (text : String) : Machine := { m with output := m.output.write text }

namespace Use

def start (m : Machine) : Use := ⟨m, 0, [], m.input, m.output⟩

/-- Carries out a call, if it ends. -/
def call (u : Use) : Call → Option Use
  | .step => some { u with
      machine := u.machine.step.1
      executed := if u.machine.state = .running then u.executed + 1 else u.executed }
  | .run => u.machine.run.map fun r =>
      { u with machine := r.machine, executed := u.executed + r.executed }
  | .setBreakpoint addr =>
    match u.machine.setBreakpoint addr with
    | .ok m => some { u with machine := m }
    | .error _ => some u
  | .clearBreakpoint addr => some { u with machine := u.machine.clearBreakpoint addr }
  | .reset => some ⟨u.machine.reset, 0, [], u.machine.input, u.machine.output⟩

def calls (u : Use) (cs : List Call) : Option Use := cs.foldlM call u

def say (u : Use) (text : String) : Use :=
  { u with machine := u.machine.told text, said := u.said ++ [text] }

end Use

/-- The machine makes `k` steps, while others write texts to its output. -/
inductive Mixed (m : Machine) : Nat → List String → Machine → Prop
  | start : Mixed m 0 [] m
  | step {k : Nat} {ts : List String} {n : Machine} (h : Mixed m k ts n) :
      Mixed m (k + 1) ts n.step.1
  | say {k : Nat} {ts : List String} {n : Machine} (h : Mixed m k ts n) (t : String) :
      Mixed m k (ts ++ [t]) (n.told t)

namespace Mixed

variable {k : Nat}

theorem eq_after (h : Mixed m k [] n) : n = m.after k := by
  generalize hts : ([] : List String) = ts at h
  induction h with
  | start => rfl
  | step _ ih => rw [ih hts, after]
  | say => simp at hts

theorem program (h : Mixed m k ts n) : n.program = m.program := by
  induction h with
  | start => rfl
  | step _ ih => exact (program_step _).trans ih
  | say _ _ ih => exact ih

theorem steps (h : Mixed m k ts n) (j : Nat) : Mixed m (k + j) ts (n.after j) := by
  induction j with
  | zero => exact h
  | succ j ih => exact ih.step

end Mixed

/-- Neither output is limited, and the text of the first is found in that of the second. -/
structure Contained (o o' : Output) : Prop where
  limit : o.limit = none
  limit' : o'.limit = none
  text : o.text.toList.Sublist o'.text.toList

theorem Contained.refuses (h : Contained o o') (s : String) : o'.refuses s = o.refuses s := by
  simp [Output.refuses, h.limit, h.limit']

theorem Contained.append (h : Contained o o') (s : String) :
    Contained (o.append s) (o'.append s) where
  limit := h.limit
  limit' := h.limit'
  text := by
    simp only [Output.append, String.toList_append]
    exact h.text.append (List.Sublist.refl _)

theorem Contained.write (h : Contained o o') (s : String) : Contained o (o'.write s) := by
  have hnone : o'.refuses s = none := by simp only [Output.refuses, h.limit']
  simp only [Output.write, hnone]
  refine ⟨h.limit, h.limit', h.text.trans ?_⟩
  simp only [Output.append, String.toList_append]
  exact List.sublist_append_left ..

theorem Mixed.alike (h : Mixed m k ts n) (hlim : m.output.limit = none) :
    Alike Contained (m.after k) n := by
  induction h with
  | start => exact { Alike.refl m with output := ⟨hlim, hlim, List.Sublist.refl _⟩, ct := rfl }
  | @step k ts n h ih =>
    refine ih.next ⟨(·.refuses), (·.append)⟩ ?_
    rw [h.program, program_after]
  | say _ t ih => exact { ih with output := ih.output.write t, ct := ih.ct }

/-! ### Calls lead where single steps lead -/

/-- The machine was loaded with an object under options. -/
structure Carries (object : Object) (o : Options) (m : Machine) : Prop where
  program : m.program = object.program
  symbols : m.symbols = if o.noSymbols then none else object.symbols
  capacity : m.capacity = o.capacity.getD defaultCapacity
  words : m.data.size = (o.dataStore.getD defaultDataStore).toNat
  hardCrash : m.hardCrash = o.hardCrash

variable {name : String} {object : Object} {o : Options} {input : Input} {output : Output}

theorem Carries.alike (h : Carries object o m) (hmn : Alike O m n)
    (hprog : n.program = m.program) : Carries object o n where
  program := hprog.trans h.program
  symbols := hmn.symbols.trans h.symbols
  capacity := hmn.capacity.trans h.capacity
  words := (congrArg Array.size hmn.data).trans h.words
  hardCrash := hmn.hardCrash.trans h.hardCrash

theorem Carries.after (h : Carries object o m) (k : Nat) : Carries object o (m.after k) where
  program := (m.program_after k).trans h.program
  symbols := (congrArg Setting.symbols (m.setting_after k)).trans h.symbols
  capacity := (congrArg Setting.capacity (m.setting_after k)).trans h.capacity
  words := (congrArg Setting.words (m.setting_after k)).trans h.words
  hardCrash := (congrArg Setting.hardCrash (m.setting_after k)).trans h.hardCrash

theorem Carries.reset (h : Carries object o m) : Carries object o m.reset := by
  have hws : (Array.replicate m.data.size (0 : Int32)).size = m.data.size := by simp
  simp only [Machine.reset]
  split
  · exact ⟨h.program, h.symbols, h.capacity, hws.trans h.words, h.hardCrash⟩
  · exact ⟨h.program, h.symbols, h.capacity, hws.trans h.words, h.hardCrash⟩

theorem reset_console (m : Machine) : m.reset.input = m.input ∧ m.reset.output = m.output := by
  simp only [reset]
  split <;> exact ⟨rfl, rfl⟩

theorem carries_blank (bs : List Int) :
    Carries object o ((blank name object o input output).withBreakpoints bs) := by
  refine ⟨rfl, rfl, rfl, ?_, rfl⟩
  simp [withBreakpoints, blank]

def Options.unbroken (o : Options) : Options := { o with breakpoints := [] }

theorem exists_new (hload : load name object o input output = .ok m) (h : Carries object o n) :
    ∃ l, load name object o.unbroken n.input n.output = .ok l ∧ Alike Eq l n.reset := by
  obtain ⟨hsto, hcap, hfits, -⟩ := load_ok_iff.1 hload
  refine ⟨_, load_ok_iff.2 ⟨hsto, hcap, hfits, [], rfl, rfl⟩, ?_⟩
  refine alike_reset ?_ h.symbols h.capacity h.hardCrash ?_ rfl rfl
  · simp [ct, h.program, withBreakpoints, blank]
  · simp [h.words, withBreakpoints, blank, Options.unbroken]

/-- The machine in use is in the state of a new one that was given the input unread at the last
reset, and made the steps that were counted, with what others said in between. -/
structure Use.Tracks (name : String) (object : Object) (o : Options) (u : Use) : Prop where
  carries : Carries object o u.machine
  mixed : ∃ l n, load name object o.unbroken u.input u.output = .ok l ∧
    l.Mixed u.executed u.said n ∧ Alike Eq n u.machine

namespace Use

variable {u u' : Use}

theorem tracks_start (h : load name object o input output = .ok m) :
    (start m).Tracks name object o := by
  obtain ⟨-, -, -, bs, -, rfl⟩ := load_ok_iff.1 h
  have hcar : Carries object o ((blank name object o input output).withBreakpoints bs) :=
    carries_blank bs
  obtain ⟨l, hl, hal⟩ := exists_new h hcar
  refine ⟨hcar.reset, l, l, ?_, .start, hal⟩
  simp only [start, reset_console]
  exact hl

theorem Tracks.say (h : u.Tracks name object o) (text : String) :
    (u.say text).Tracks name object o := by
  obtain ⟨l, n, hl, hmix, hal⟩ := h.mixed
  refine ⟨{ h.carries with words := h.carries.words }, l, n.told text, hl, hmix.say text, ?_⟩
  exact { hal with output := congrArg (·.write text) hal.output, ct := hal.ct }

theorem Tracks.steps (h : u.Tracks name object o) (k : Nat)
    (hm' : Alike Eq (u.machine.after k) m') (hprog : m'.program = u.machine.program) :
    Tracks name object o { u with machine := m', executed := u.executed + k } := by
  obtain ⟨l, n, hl, hmix, hal⟩ := h.mixed
  have hprog' : u.machine.program = n.program := by
    rw [hmix.program, h.carries.program, (fresh_of_load hl).program_eq]
  refine ⟨(h.carries.after k).alike hm' ?_, l, n.after k, hl, hmix.steps k, ?_⟩
  · rw [hprog, program_after]
  · exact (hal.after Output.tracks_eq hprog' k).trans hm'

theorem Tracks.withBreakpoints (h : u.Tracks name object o) (bs : List Int) :
    Tracks name object o { u with machine := u.machine.withBreakpoints bs } := by
  obtain ⟨l, n, hl, hmix, hal⟩ := h.mixed
  refine ⟨{ h.carries with words := h.carries.words }, l, n, hl, hmix, ?_⟩
  exact { hal with ct := hal.ct }

variable {c : Call}

theorem Tracks.call (hload : load name object o input output = .ok m)
    (hcras : o.hardCrash = false) (h : u.Tracks name object o)
    (hc : u.call c = some u') : u'.Tracks name object o := by
  cases c with
  | step =>
    cases hc
    by_cases hrun : u.machine.state = .running
    · simp only [if_pos hrun]
      exact h.steps 1 (.refl _) u.machine.program_step
    · simp only [if_neg hrun, step_of_not_running hrun]
      exact h
  | run =>
    obtain ⟨r, hr, rfl⟩ := map_eq_some_iff.1 hc
    have hran := ran_of_run (h.carries.hardCrash.trans hcras) hr
    exact h.steps r.executed hran.alike hran.program
  | setBreakpoint addr =>
    simp only [Use.call, setBreakpoint] at hc
    split at hc
    · rename_i m' hset
      cases hc
      split at hset
      · cases hset
        exact h.withBreakpoints _
      · cases hset
    · cases hc
      exact h
  | clearBreakpoint addr =>
    cases hc
    exact h.withBreakpoints _
  | reset =>
    cases hc
    obtain ⟨l, hl, hal⟩ := exists_new hload h.carries
    exact ⟨h.carries.reset, l, l, hl, .start, hal⟩

theorem Tracks.calls (hload : load name object o input output = .ok m)
    (hcras : o.hardCrash = false) (h : u.Tracks name object o) (hcs : u.calls cs = some u') :
    u'.Tracks name object o := by
  induction cs generalizing u with
  | nil =>
    cases hcs
    exact h
  | cons c cs ih =>
    obtain ⟨u₁, hc, hrest⟩ := bind_eq_some_iff.1 hcs
    exact ih (h.call hload hcras hc) hrest

theorem said_call (h : u.call c = some u') (hu : u.said = []) : u'.said = [] := by
  cases c with
  | step =>
    cases h
    exact hu
  | run =>
    obtain ⟨r, -, rfl⟩ := map_eq_some_iff.1 h
    exact hu
  | setBreakpoint addr =>
    simp only [Use.call] at h
    split at h <;> obtain rfl := some.inj h <;> exact hu
  | clearBreakpoint addr =>
    cases h
    exact hu
  | reset =>
    cases h
    rfl

theorem said_calls (h : u.calls cs = some u') (hu : u.said = []) : u'.said = [] := by
  induction cs generalizing u with
  | nil =>
    cases h
    exact hu
  | cons c cs ih =>
    obtain ⟨u₁, hc, hrest⟩ := bind_eq_some_iff.1 h
    exact ih hrest (said_call hc hu)

theorem Tracks.alike_after (h : u.Tracks name object o) (hsaid : u.said = []) :
    ∃ l, load name object o.unbroken u.input u.output = .ok l ∧
      Alike Eq (l.after u.executed) u.machine := by
  obtain ⟨l, n, hl, hmix, hal⟩ := h.mixed
  rw [hsaid] at hmix
  exact ⟨l, hl, hmix.eq_after ▸ hal⟩

theorem Tracks.limit (h : u.Tracks name object o) (hlim : u.output.limit = none) :
    u.machine.output.limit = none := by
  obtain ⟨l, n, hl, hmix, hal⟩ := h.mixed
  have hout : l.output.limit = none := by rw [(fresh_of_load hl).output_eq, hlim]
  have hcon := (hmix.alike hout).output
  rw [← hal.output]
  exact hcon.limit'

theorem limit_call (h : u.Tracks name object o) (hc : u.call c = some u')
    (hlim : u.output.limit = none) : u'.output.limit = none := by
  cases c with
  | step =>
    cases hc
    exact hlim
  | run =>
    obtain ⟨r, -, rfl⟩ := map_eq_some_iff.1 hc
    exact hlim
  | setBreakpoint addr =>
    simp only [Use.call] at hc
    split at hc <;> obtain rfl := some.inj hc <;> exact hlim
  | clearBreakpoint addr =>
    cases hc
    exact hlim
  | reset =>
    cases hc
    exact h.limit hlim

end Use

end Machine

end MiniJam
