import MiniJam.Proofs.Debugger.Window
import MiniJam.Proofs.Machine.Use

/-!
# Debugging does not change a run

The commands of a script are known before any of them is carried out (`Script.commands`), and each of
them is a few calls of the machine (`callsOf`): a step, a run, a reset and a run, or a change of the
breakpoints.  `Debugged u cs u'` says that the machine in use goes from `u` to `u'` by the calls of the
commands `cs`, with texts written to its output in between.

* `Debugger.exists_debugged` : a debugger does no more to its machine than that.
* `Debugger.pausing_keeps_run` : so a machine that is stepped, run, paused and reset, by calls or by the
  commands of a debugger, is always in the state of a new one that made the same number of steps.
-/

namespace MiniJam

open List Option Text

namespace Machine

def toldAll (m : Machine) (texts : List String) : Machine := texts.foldl told m

theorem toldAll_append (m : Machine) (ts ts' : List String) :
    m.toldAll (ts ++ ts') = (m.toldAll ts).toldAll ts' :=
  foldl_append

def Use.sayAll (u : Use) (texts : List String) : Use := texts.foldl say u

theorem Use.machine_sayAll (u : Use) (texts : List String) :
    (u.sayAll texts).machine = u.machine.toldAll texts := by
  induction texts generalizing u with
  | nil => rfl
  | cons t ts ih => exact ih (u.say t)

theorem clearBreakpoint_toldAll (m : Machine) (ts : List String) (addr : Int) :
    (m.toldAll ts).clearBreakpoint addr = (m.clearBreakpoint addr).toldAll ts := by
  induction ts generalizing m with
  | nil => rfl
  | cons t ts ih => exact ih (m.told t)

theorem isBreakpoint_toldAll (m : Machine) (ts : List String) (addr : Int) :
    (m.toldAll ts).isBreakpoint addr = m.isBreakpoint addr := by
  induction ts generalizing m with
  | nil => rfl
  | cons t ts ih => exact ih (m.told t)

theorem clearBreakpoint_of_not {m : Machine} (h : m.isBreakpoint addr = false) :
    m.clearBreakpoint addr = m := by
  have hfil : m.breakpoints.filter (· != addr) = m.breakpoints := by
    refine filter_eq_self.2 fun a ha => ?_
    have hne : a ≠ addr := by
      rintro rfl
      simp [isBreakpoint, ha] at h
    simpa using hne
  rw [clearBreakpoint, hfil]

end Machine

namespace Debugger

open Machine (Call Use)

/-! ### The commands of a script -/

/-- The commands of lines up to the one that quits, with their arguments; an empty line repeats the
words `last` of the one before.  A word that is no command is kept as such. -/
def commandsOf (last : List String) : List String → List (Option Command × List String)
  | [] => []
  | line :: rest =>
    let words := Text.fields line
    let words := if words.isEmpty then last else words
    match words with
    | [] => commandsOf [] rest
    | word :: args =>
      match Command.ofWord? word with
      | some .quit => []
      | c => (c, args) :: commandsOf words rest

def Script.commands (script : Script) : List (Option Command × List String) :=
  commandsOf [] script.lines

def callsOf (m : Machine) (args : List String) : Option Command → List Call
  | some .next => [.step]
  | some .continue => if m.state = .running then [.run] else []
  | some .run =>
    if m.reset.state = .running ∧ m.reset.isBreakpoint m.reset.cp then [.reset] else [.reset, .run]
  | some .setBreak =>
    match args with
    | [] => [.setBreakpoint m.cp]
    | a :: _ => (Text.int64? a).toList.map .setBreakpoint
  | some .delete => args.filterMap fun a => (Text.int64? a).map .clearBreakpoint
  | _ => []

/-- The calls of commands are carried out one after the other, and texts are said in between. -/
inductive Debugged : Use → List (Option Command × List String) → Use → Prop
  | done (u : Use) (texts : List String) : Debugged u [] (u.sayAll texts)
  | command {u u₁ u' : Use} {c : Option Command} {args : List String}
      {rest : List (Option Command × List String)} (texts : List String)
      (hcalls : (u.sayAll texts).calls (callsOf (u.sayAll texts).machine args c) = some u₁)
      (hrest : Debugged u₁ rest u') : Debugged u ((c, args) :: rest) u'

/-! ### Answers -/

/-- The debugger only wrote something. -/
def Tells (s s' : Monitor) : Prop := ∃ texts, s'.machine = s.machine.toldAll texts

theorem Tells.refl (s : Monitor) : Tells s s := ⟨[], rfl⟩

theorem Tells.trans (h : Tells s₁ s₂) (h' : Tells s₂ s₃) : Tells s₁ s₃ := by
  obtain ⟨ts, hts⟩ := h
  obtain ⟨ts', hts'⟩ := h'
  exact ⟨ts ++ ts', by rw [hts', hts, Machine.toldAll_append]⟩

theorem tells_say (s : Monitor) (text : String) : Tells s (s.say text) := ⟨[text], rfl⟩

theorem tells_sayAll (s : Monitor) (texts : List String) : Tells s (s.sayAll texts) := by
  induction texts generalizing s with
  | nil => exact .refl s
  | cons t ts ih => exact (tells_say s t).trans (ih (s.say t))

theorem tells_present (s : Monitor) (w : Machine.Writer Unit) : Tells s (s.present w) :=
  tells_sayAll s w.pieces.1

variable (lines : Array String)

theorem tells_report (s : Monitor) (ran : Bool) : Tells s (report lines s ran) := by
  simp only [report]
  split
  · exact .refl s
  · split
    · exact tells_present s _
    · split
      · exact tells_say s _
      · exact .refl s

variable {lines}

theorem tells_listWindow (h : listWindow lines s offset size = some s') : Tells s s' := by
  rw [listWindow_eq] at h
  dsimp only at h
  split at h
  · cases h
  · cases h
    exact tells_sayAll s _

theorem tells_listCommand (h : listCommand lines s args = some s') : Tells s s' := by
  unfold listCommand at h
  repeat' split at h
  all_goals first
    | exact tells_listWindow h
    | cases h; exact tells_say s _

/-! ### Commands -/

/-- The machine of a debugger is the one in use, but for texts that were said. -/
def Follows (u : Use) (s : Monitor) : Prop := ∃ texts, s.machine = u.machine.toldAll texts

variable {u : Use} {s s' : Monitor}

theorem Follows.tells (h : Follows u s) (h' : Tells s s') : Follows u s' := by
  obtain ⟨ts, hts⟩ := h
  obtain ⟨ts', hts'⟩ := h'
  exact ⟨ts ++ ts', by rw [hts', hts, Machine.toldAll_append]⟩

theorem follows_self (h : u.machine = s.machine) : Follows u s := ⟨[], h.symm⟩

theorem exists_delete (args : List String) (h : Follows u s) :
    ∃ u₁, u.calls (args.filterMap fun a => (int64? a).map .clearBreakpoint) = some u₁ ∧
      Follows u₁ (args.foldl deleteCommand s) := by
  induction args generalizing u s with
  | nil => exact ⟨u, rfl, h⟩
  | cons a args ih =>
    obtain ⟨ts, hts⟩ := h
    cases ha : int64? a with
    | none =>
      have hsay : deleteCommand s a = s.say s!"No breakpoint at {a}\n" := by
        simp [deleteCommand, ha]
      simp only [filterMap_cons, ha, map_none, foldl_cons, hsay]
      exact ih (Follows.tells ⟨ts, hts⟩ (tells_say s _))
    | some addr =>
      simp only [filterMap_cons, ha, map_some, foldl_cons]
      refine ih ?_
      by_cases hbrea : s.machine.isBreakpoint addr = true
      · simp only [deleteCommand, ha, filter_some, hbrea, ↓reduceIte]
        refine ⟨ts, ?_⟩
        rw [hts, Machine.clearBreakpoint_toldAll]
      · -- The call clears nothing, and the debugger says so.
        have hnot : u.machine.isBreakpoint addr = false := by
          rw [hts, Machine.isBreakpoint_toldAll] at hbrea
          simpa using hbrea
        simp only [deleteCommand, ha, filter_some, hbrea, Bool.false_eq_true, ↓reduceIte,
          Machine.clearBreakpoint_of_not hnot]
        exact Follows.tells ⟨ts, hts⟩ (tells_say s _)

theorem exists_breakAt (addr : Int) (h : u.machine = s.machine) :
    ∃ u₁, u.calls [.setBreakpoint addr] = some u₁ ∧ Follows u₁ (breakAt lines s addr) := by
  simp only [Use.calls, foldlM_cons, foldlM_nil, Use.call, breakAt, h]
  cases s.machine.setBreakpoint addr with
  | ok m =>
    refine ⟨_, rfl, ?_⟩
    exact Follows.tells ⟨[], rfl⟩ (tells_say _ _)
  | error e => exact ⟨u, rfl, (follows_self h).tells (tells_say s _)⟩

theorem exists_run (h : u.machine = s.machine) (hs : s.run.map (report lines · true) = some s') :
    ∃ u₁, u.calls [.run] = some u₁ ∧ Follows u₁ s' := by
  obtain ⟨s₁, hs₁, rfl⟩ := map_eq_some_iff.1 hs
  obtain ⟨r, hr, hs₁⟩ := bind_eq_some_iff.1 hs₁
  cases hs₁
  refine ⟨{ u with machine := r.machine, executed := u.executed + r.executed }, ?_, ?_⟩
  · simp only [Use.calls, foldlM_cons, foldlM_nil, Use.call, h, hr]
    rfl
  · exact Follows.tells ⟨[], rfl⟩ (tells_report lines _ true)

theorem machine_step (s : Monitor) : s.step.machine = s.machine.step.1 := by
  unfold Monitor.step
  by_cases hrun : s.machine.state = .running
  · rw [if_neg (not_not_intro hrun)]
    split <;> simp_all
  · rw [if_pos hrun, Machine.step_of_not_running hrun]

theorem exists_calls {c : Command} {args : List String}
    (h : u.machine = s.machine) (hs : execute lines s args c = some s') :
    ∃ u₁, u.calls (callsOf u.machine args (some c)) = some u₁ ∧ Follows u₁ s' := by
  cases c with
  | help =>
    cases hs
    exact ⟨u, rfl, (follows_self h).tells (tells_sayAll s _)⟩
  | print =>
    cases hs
    exact ⟨u, rfl, (follows_self h).tells (tells_present s _)⟩
  | list => exact ⟨u, rfl, (follows_self h).tells (tells_listCommand hs)⟩
  | setBreak =>
    cases hs
    cases args with
    | nil =>
      simp only [callsOf, breakCommand, h]
      exact exists_breakAt s.machine.cp h
    | cons a args =>
      simp only [callsOf, breakCommand]
      cases int64? a with
      | none => exact ⟨u, rfl, (follows_self h).tells (tells_say s _)⟩
      | some addr => exact exists_breakAt addr h
  | delete =>
    cases hs
    exact exists_delete args (follows_self h)
  | next =>
    cases hs
    refine ⟨_, rfl, ?_⟩
    by_cases hrun : s.machine.state = .running
    · rw [if_neg (not_not_intro hrun)]
      refine Follows.tells (s := s.step) ⟨[], ?_⟩ (tells_report lines _ false)
      rw [machine_step, ← h]
      rfl
    · rw [if_pos hrun]
      refine Follows.tells (s := s) ⟨[], ?_⟩ (tells_say s _)
      show s.machine = u.machine.step.1
      rw [h, Machine.step_of_not_running hrun]
  | «continue» =>
    simp only [execute] at hs
    by_cases hrun : s.machine.state = .running
    · rw [if_neg (not_not_intro hrun)] at hs
      simp only [callsOf, h, if_pos hrun]
      exact exists_run h hs
    · rw [if_pos hrun] at hs
      cases hs
      simp only [callsOf, h, if_neg hrun]
      exact ⟨u, rfl, (follows_self h).tells (tells_say s _)⟩
  | run =>
    have hres : ∀ cs, u.calls (.reset :: cs) =
        Use.calls ⟨s.machine.reset, 0, [], s.machine.input, s.machine.output⟩ cs := by
      intro cs
      simp only [Use.calls, foldlM_cons, Use.call, h]
      rfl
    simp only [execute, runCommand] at hs
    simp only [callsOf, h]
    by_cases hbrea : s.machine.reset.state = .running ∧
        s.machine.reset.isBreakpoint s.machine.reset.cp = true
    · rw [if_pos hbrea] at hs ⊢
      cases hs
      rw [hres]
      refine ⟨_, rfl, ?_⟩
      exact Follows.tells (s := { s with machine := s.machine.reset }) ⟨[], rfl⟩ (tells_say _ _)
    · rw [if_neg hbrea] at hs ⊢
      rw [hres]
      exact exists_run rfl hs
  | info =>
    cases hs
    exact ⟨u, rfl, (follows_self h).tells ((tells_say s _).trans (tells_sayAll _ _))⟩
  | quit =>
    cases hs
    exact ⟨u, rfl, follows_self h⟩

/-! ### Scripts -/

section

variable {s : Monitor} {last args rest : List String} {line word : String} {c : Command}

theorem commands_cons (hws : (if (fields line).isEmpty then last else fields line) =
    word :: args) (hc : Command.ofWord? word = some c) (hquit : c ≠ .quit) :
    commands lines s last (line :: rest) = (execute lines (s.say "\n: ") args c).bind fun s =>
      if s.crash.isSome then some (s, false) else commands lines s (word :: args) rest := by
  simp only [commands, hws, hc]
  cases c
  case quit => exact absurd rfl hquit
  all_goals cases execute lines (s.say "\n: ") args _ <;> rfl

theorem commandsOf_cons (hws : (if (fields line).isEmpty then last else fields line) =
    word :: args) (hc : Command.ofWord? word = some c) (hquit : c ≠ .quit) :
    commandsOf last (line :: rest) = (some c, args) :: commandsOf (word :: args) rest := by
  simp only [commandsOf, hws, hc]
  cases c
  case quit => exact absurd rfl hquit
  all_goals rfl

end

/-- What a debugger does to its machine is what the calls of its commands do.  All commands of the
script are carried out, unless showing the machine crashes the debugger. -/
theorem exists_debugged {ended : Bool} (h : Follows u s)
    (hs : commands lines s last script = some (s', ended)) :
    ∃ cs u', cs <+: commandsOf last script ∧ (s'.crash = none → cs = commandsOf last script) ∧
      Debugged u cs u' ∧ u'.machine = s'.machine := by
  induction script generalizing u s last with
  | nil =>
    obtain ⟨ts, hts⟩ := h.tells ((tells_say s "\n: ").trans (tells_say _ "\n"))
    obtain rfl := (Prod.mk.inj (some.inj hs)).1
    exact ⟨[], _, nil_prefix, fun _ => rfl, .done u ts, (u.machine_sayAll ts).trans hts.symm⟩
  | cons line rest ih =>
    have hprom := h.tells (tells_say s "\n: ")
    cases hws : (if (fields line).isEmpty then last else fields line) with
    | nil =>
      simp only [commands, hws] at hs
      simp only [commandsOf, hws]
      exact ih hprom hs
    | cons word args =>
      obtain ⟨ts, hts⟩ := hprom
      have hsaid := (u.machine_sayAll ts).trans hts.symm
      cases hc : Command.ofWord? word with
      | none =>
        simp only [commands, hws, hc] at hs
        simp only [commandsOf, hws, hc]
        have htel : Tells (s.say "\n: ")
            (sayHelp ((s.say "\n: ").say s!"Unknown command '{word}'.\n")) :=
          (tells_say _ _).trans (tells_sayAll _ _)
        obtain ⟨cs, u', hpre, hall, hdeb, hmach⟩ :=
          ih ((follows_self hsaid).tells htel) hs
        exact ⟨(none, args) :: cs, u', (prefix_cons_inj _).2 hpre,
          fun hcras => congrArg _ (hall hcras), .command ts rfl hdeb, hmach⟩
      | some c =>
        by_cases hq : c = .quit
        · subst hq
          simp only [commands, hws, hc] at hs
          simp only [commandsOf, hws, hc]
          obtain rfl := (Prod.mk.inj (some.inj hs)).1
          exact ⟨[], _, nil_prefix, fun _ => rfl, .done u ts, hsaid⟩
        · rw [commands_cons hws hc hq] at hs
          rw [commandsOf_cons hws hc hq]
          obtain ⟨s₁, hexec, hgo⟩ := bind_eq_some_iff.1 hs
          obtain ⟨u₁, hcs, hfol⟩ := exists_calls hsaid hexec
          by_cases hcras : s₁.crash.isSome = true
          · -- The session ends here.
            rw [if_pos hcras] at hgo
            obtain rfl := (Prod.mk.inj (some.inj hgo)).1
            obtain ⟨ts₁, hts₁⟩ := hfol
            refine ⟨[(some c, args)], _, (prefix_cons_inj _).2 nil_prefix, ?_,
              .command ts hcs (.done u₁ ts₁), (u₁.machine_sayAll ts₁).trans hts₁.symm⟩
            intro hn
            rw [hn] at hcras
            cases hcras
          · rw [if_neg hcras] at hgo
            obtain ⟨cs, u', hpre, hall, hdeb, hmach⟩ := ih hfol hgo
            exact ⟨(some c, args) :: cs, u', (prefix_cons_inj _).2 hpre,
              fun hn => congrArg _ (hall hn), .command ts hcs hdeb, hmach⟩

open Machine

variable {name : String} {object : Object} {o : Options} {input : Input} {output : Output}
  {m : Machine}

theorem tracks_sayAll (h : u.Tracks name object o) (texts : List String) :
    (u.sayAll texts).Tracks name object o ∧ (u.sayAll texts).output = u.output := by
  induction texts generalizing u with
  | nil => exact ⟨h, rfl⟩
  | cons t ts ih => exact ih (h.say t)

theorem limit_calls (hload : load name object o input output = .ok m)
    (hcras : o.hardCrash = false) (h : u.Tracks name object o) (hcs : u.calls cs = some u')
    (hlim : u.output.limit = none) : u'.output.limit = none := by
  induction cs generalizing u with
  | nil =>
    cases hcs
    exact hlim
  | cons c cs ih =>
    obtain ⟨u₁, hc, hrest⟩ := bind_eq_some_iff.1 hcs
    exact ih (h.call hload hcras hc) hrest (Use.limit_call h hc hlim)

theorem Debugged.tracks (hl : load name object o input output = .ok m)
    (hcras : o.hardCrash = false) (h : Debugged u cs u') (hu : u.Tracks name object o) :
    u'.Tracks name object o ∧ (u.output.limit = none → u'.output.limit = none) := by
  induction h with
  | done u texts =>
    obtain ⟨htrac, hout⟩ := tracks_sayAll hu texts
    exact ⟨htrac, fun hlim => hout ▸ hlim⟩
  | command texts hcs _ ih =>
    obtain ⟨htrac, hout⟩ := tracks_sayAll hu texts
    obtain ⟨htrac', hlim'⟩ := ih (htrac.calls hl hcras hcs)
    exact ⟨htrac', fun hlim =>
      hlim' (limit_calls hl hcras htrac hcs (hout ▸ hlim))⟩

/-- Pausing never changes a run.  Take a machine that was loaded without hard crashes.

* After any calls, it is in the state of a new machine that was given the input unread at the last
  reset, and the output of that moment, and made as many single steps as were carried out since.
* A run of any machine without hard crashes makes the least number of steps, at least one, after which
  the program does not run or a breakpoint is reached, and none if the program does not run; it has an
  answer if there is such a number; and the machine is paused if and only if it stopped at a breakpoint
  while running.
* A debugger carries out the commands of its script by calls; so the same holds of its machine, with
  the texts of the debugger on the output.  If the output has no limit, these make no difference. -/
theorem pausing_keeps_run (hload : load name object o input output = .ok m)
    (hcrash : o.hardCrash = false) :
    (∀ cs u, (Use.start m).calls cs = some u →
      ∃ l, load name object o.unbroken u.input u.output = .ok l ∧
        Alike Eq (l.after u.executed) u.machine) ∧
    (∀ n : Machine, n.hardCrash = false → (∀ r, n.run = some r → n.Ran r) ∧
      (n.run.isSome ↔ n.state ≠ .running ∨ ∃ k, 1 ≤ k ∧ n.StopsAt k)) ∧
    ∀ script s e, debug (.start m) script = some (s, e) →
      ∃ cs u, cs <+: script.commands ∧ (s.crash = none → cs = script.commands) ∧
        Debugged (Use.start m) cs u ∧ u.machine = s.machine ∧
        ∃ l n, load name object o.unbroken u.input u.output = .ok l ∧
          l.Mixed u.executed u.said n ∧ Alike Eq n s.machine ∧
          (output.limit = none → Alike Contained (l.after u.executed) s.machine) := by
  have hstart := Use.tracks_start hload
  refine ⟨fun cs u hcs => ?_, fun n hn => ⟨fun r => ran_of_run hn, isSome_run_iff hn⟩,
    fun script s e hdebug => ?_⟩
  · exact (hstart.calls hload hcrash hcs).alike_after (Use.said_calls hcs rfl)
  · obtain ⟨⟨s', ended⟩, hcommands, hs⟩ := Option.bind_eq_some_iff.1 hdebug
    obtain rfl := (Prod.mk.inj (Option.some.inj hs)).1
    have hfollows : Follows (Use.start m) (.start m) := follows_self rfl
    obtain ⟨cs, u, hprefix, hall, hdebugged, hmachine⟩ := exists_debugged hfollows hcommands
    obtain ⟨htracks, hlimit⟩ := hdebugged.tracks hload hcrash hstart
    obtain ⟨l, n, hl, hmixed, halike⟩ := htracks.mixed
    rw [hmachine] at halike
    refine ⟨cs, u, hprefix, hall, hdebugged, hmachine, l, n, hl, hmixed, halike, fun hnone => ?_⟩
    have hout : l.output.limit = none := by
      rw [(fresh_of_load hl).output_eq]
      refine hlimit ?_
      rw [Use.start, (fresh_of_load hload).output_eq, hnone]
    have hcontained := hmixed.alike hout
    exact hcontained.trans halike

/-- A step, a reset, and a run up to a breakpoint behind the first instruction. -/
theorem pausing_keeps_run_pushesFive :
    ∃ m u l, load "five" pushesFive smallStore .empty .empty = .ok m ∧
      (Use.start m).calls [.step, .reset, .setBreakpoint 1, .run] = some u ∧
      u.executed = 1 ∧ u.machine.paused = true ∧
      load "five" pushesFive smallStore.unbroken u.input u.output = .ok l ∧
      Alike Eq (l.after 1) u.machine := by
  obtain ⟨m, hm⟩ : ∃ m, m = ((blank "five" pushesFive smallStore .empty .empty).withBreakpoints
      []).reset := ⟨_, rfl⟩
  have hload : load "five" pushesFive smallStore .empty .empty = .ok m :=
    load_ok_iff.2 ⟨by decide, by decide, by decide, [], rfl, hm⟩
  obtain ⟨u₁, hu₁⟩ : ∃ u₁, (Use.start m).calls [.step, .reset, .setBreakpoint 1] = some u₁ := by
    rw [hm]
    exact ⟨_, rfl⟩
  have hrunning : u₁.machine.state = .running ∧ u₁.machine.hardCrash = false ∧
      u₁.executed = 0 ∧ u₁.machine.StopsAt 1 ∧ (u₁.machine.resumed.after 1).ended.paused = true := by
    rw [hm] at hu₁
    cases hu₁
    decide +kernel
  obtain ⟨hrun, hhard, hzero, hstop, hpaused⟩ := hrunning
  have hr := (run_eq_some_iff hrun hhard).2 ⟨1, (firstStop_one _).2 hstop, rfl⟩
  have hcalls : (Use.start m).calls [.step, .reset, .setBreakpoint 1, .run] =
      some { u₁ with machine := (u₁.machine.resumed.after 1).ended, executed := 1 } := by
    have happend : (Use.start m).calls ([.step, .reset, .setBreakpoint 1] ++ [.run]) =
        u₁.calls [.run] := by
      rw [Use.calls, List.foldlM_append, ← Use.calls, hu₁]
      rfl
    rw [show [Call.step, .reset, .setBreakpoint 1, .run] =
      [.step, .reset, .setBreakpoint 1] ++ [.run] from rfl, happend]
    simp only [Use.calls, List.foldlM_cons, List.foldlM_nil, Use.call, hr, hzero]
    rfl
  obtain ⟨l, hl, halike⟩ := (pausing_keeps_run hload rfl).1 _ _ hcalls
  exact ⟨m, _, l, hload, hcalls, rfl, hpaused, hl, halike⟩

end Debugger

end MiniJam
