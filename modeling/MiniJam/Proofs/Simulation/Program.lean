import MiniJam.Proofs.Code.Compiled
import MiniJam.Proofs.Semantics.Safe
import MiniJam.Proofs.Simulation.Start
import MiniJam.Proofs.Simulation.Stmt

/-!
# Compiled programs follow their source

A machine that starts with the code of a package comes to the method where the package starts, and
follows it (`leads_run`).  So the program of a machine with enough room prints what its source prints,
and ends in the same way (`Compiler.follows_source`).
-/

namespace MiniJam

open Machine Layout Assembly

namespace Simulation

open Semantics Machine.Exec

variable {X : Target} {m : Machine}

/-- The words that the stack may take in a run to a depth of `n`. -/
def Target.stackWords (X : Target) (n : Nat) : Nat := X.groundWords + 4 + need n

/-- The state in which a machine ends after a run, and the store then; there is none for runs that
machines follow only to a point. -/
def ending {α : Type} : EStateM.Result Abort Store α → Option (MachineState × Store)
  | .ok _ s => some (.halted, s)
  | .error e s => e.failure?.map fun why => (.failed why, s)

/-- A machine that starts with the code of a package comes to the method where the package starts, and
follows it until it comes to the end of the program. -/
theorem exists_entered (hlim : X.limit = none) (n : Nat) :
    ∃ (c : Config) (φ : Option Value → Prop) (C' : Option Value → Store → Config),
      (∀ m, X.Callable → Shows X m ⟨0, 0, .null, [], [], []⟩ → (∀ x, m.peek x = 0) →
        X.groundWords + 4 ≤ X.size → m.Leads (Shows X · c)) ∧
      (∀ r s, (C' r s).cp = X.startCode.size ∧ (C' r s).printed = s.printed) ∧
      Ends X (X.stackWords n) (start X.package) c φ C' (run X.package n) := by
  obtain ⟨id, hid, hprof⟩ := X.typed.entry
  cases X.entry_eq.symm.trans hid
  obtain ⟨d, hd, hprof⟩ := Option.map_eq_some_iff.1 hprof
  have hpar : [Value.null].length = d.params.length := by
    simpa [MethodDecl.profile] using (congrArg List.length (congrArg Profile.params hprof)).symm
  obtain ⟨b, hb, -, -⟩ := exists_body X.dynamic X.entry hd
  have hnext : X.bottom.next < X.assembly.program.size := by
    rw [X.size_program]
    exact Nat.lt_succ_self _
  have hdep : (X.view X.bottom ⟨.null, [.null], []⟩).depth + need n ≤ X.stackWords n := by
    simp [Target.view, Target.viewOf, Target.bottom, Target.stackWords, Caller.words]
    omega
  have hends := (simulates hlim n).invoke hd hb hpar hnext hdep (start X.package)
  have hinv : run X.package n =
      invoke X.package n d .null [.null] (start X.package) := by
    simp only [Semantics.run, X.entry_eq, Option.bind_some, hd]
    rfl
  refine ⟨_, _, _, fun m hX h hzero hgrou => ?_, fun _ _ => ⟨rfl, rfl⟩, hinv ▸ hends⟩
  have hstat : staticSize X.package ≤ X.size :=
    Nat.le_trans (Nat.le_add_right _ _) (Nat.le_trans (Nat.le_add_right _ 4) hgrou)
  exact (leads_step ((shows_statics h hzero).resolve_right fun hfull => hfull.2 hstat)).trans
    ((path_entry hb).arrives hgrou hX)

/-- A machine with enough room ends as the run of the package does. -/
theorem leads_run (hX : X.Callable) (hlim : X.limit = none)
    (h : Shows X m ⟨0, 0, .null, [], [], []⟩) (hzero : ∀ x, m.peek x = 0) {n : Nat}
    {state : MachineState} (hrun : ending (run X.package n) = some (state, s))
    (hr : X.stackWords n + X.used s ≤ X.size) :
    m.Leads fun m' => m'.state = state ∧ m'.output.text = X.text ++ lines s.printed := by
  obtain ⟨c, φ, C', hent, hend, he⟩ := exists_entered hlim n
  have hent := hent m hX h hzero (by unfold Target.stackWords at hr; omega)
  cases hres : run X.package n with
  | ok r s' =>
    rw [hres] at hrun he
    obtain ⟨rfl, rfl⟩ : MachineState.halted = state ∧ s' = s := by simpa [ending] using hrun
    obtain ⟨-, -, harr⟩ := he
    obtain ⟨hcp, hprin⟩ := hend r s'
    refine (hent.trans (harr hr hX)).trans fun m' hm' => leads_step ?_
    rw [← hprin]
    exact hm'.halts hcp
  | error e s' =>
    rw [hres] at hrun he
    obtain ⟨why, hwhy, hsta⟩ := Option.map_eq_some_iff.1 hrun
    cases hsta
    exact hent.trans ((he.2 hr).fails why hwhy hX)

/-- A machine with enough room comes to the reference to nothing that the run of the package ends
with. -/
theorem leads_null (hX : X.Callable) (hlim : X.limit = none)
    (h : Shows X m ⟨0, 0, .null, [], [], []⟩) (hzero : ∀ x, m.peek x = 0) {n : Nat}
    (hrun : run X.package n = .error .nullReference s) (hr : X.stackWords n + X.used s ≤ X.size) :
    m.Leads fun m' => (∃ a, m'.Meets a) ∧ m'.output.text = X.text ++ lines s.printed := by
  obtain ⟨c, φ, C', hent, -, he⟩ := exists_entered hlim n
  have hent := hent m hX h hzero (by unfold Target.stackWords at hr; omega)
  rw [hrun] at he
  exact hent.trans ((he.2 hr).meetsNull rfl hX)

end Simulation

/-! ### Compiled sources -/

namespace Simulation

open Semantics

/-- The words of a data store that has room for a run to a depth of `n` that ends with the store
`s`. -/
def wordsFor (object : Object) (p : Package) (n : Nat) (s : Store) : Nat :=
  object.program.size + (staticSize p + total (p.classes.map descriptorWords)) + 4 +
    need n + heapWords p s.heap

theorem room_of_wordsFor {X : Target} {object : Object} {n : Nat} {size : Int}
    (hX : (X.size : Int) = size) (hws : wordsFor object X.package n s ≤ size) :
    X.stackWords n + X.used s ≤ X.size := by
  have hgrou : X.groundWords = staticSize X.package +
    total (X.package.classes.map descriptorWords) := rfl
  have hused : X.used s = heapWords X.package s.heap := rfl
  unfold wordsFor at hws
  unfold Target.stackWords
  omega

/-- A machine with at least `words` words ends in a state after printing numbers.  All addresses of
its data store are words, and those of its primitive routines are 64 bit integers. -/
def EndsWith (object : Object) (words : Nat) (state : MachineState) (printed : List Int) : Prop :=
  ∀ (name : String) (size capacity : Int) (noSymbols hardCrash : Bool) (input : Input)
    (output : Output), words ≤ size → size ≤ maxWord → object.program.size ≤ capacity →
    capacity + Prim.count ≤ maxInt64 → output.limit = none →
    ∃ m, Machine.load name object ⟨some size, some capacity, noSymbols, hardCrash, []⟩ input output =
        .ok m ∧
      m.Leads fun m' => m'.state = state ∧ m'.output.text = output.text ++ lines printed

theorem exists_load (name : String) {object : Object} {size capacity : Int}
    (noSymbols hardCrash : Bool) (input : Input) (output : Output) (hs : linkWords < size)
    (hcap : 0 < capacity) (hf : object.program.size ≤ capacity) :
    ∃ m, load name object ⟨some size, some capacity, noSymbols, hardCrash, []⟩ input output =
      .ok m := by
  have hs' : ¬ size ≤ linkWords := Int.not_le.2 hs
  have hcap' : ¬ capacity ≤ 0 := Int.not_le.2 hcap
  have hf' : ¬ capacity < object.program.size := Int.not_lt.2 hf
  simp [load, hs', hcap', bind, Except.bind, pure, Except.pure, ct, hf']

theorem endsWith_of_ending {p : Package} (hp : p.Typed) {entry : MemberId}
    (hent : p.entry = some entry) {dynamic : Bool} {object : Object}
    (hobj : object.program = (ofPackage p dynamic entry).program) {n : Nat}
    {state : MachineState} (hrun : ending (run p n) = some (state, s)) :
    EndsWith object (wordsFor object p n s) state s.printed := by
  intro name size capacity noSymbols hardCrash input output hws hsize hfits hcap hlim
  have hpos : 0 < object.program.size := by
    rw [hobj, size_program]
    simp [ofPackage]
  have hroom := hws
  unfold wordsFor at hws
  obtain ⟨m, hm⟩ := exists_load name noSymbols hardCrash input output
    (show linkWords < size by simp only [linkWords]; omega) (by omega) hfits
  refine ⟨m, hm, ?_⟩
  have hcap' : capacity ≤ maxInt64 := by
    simp only [Prim.count] at hcap
    omega
  have hprog : (object.program.size : Int) ≤ maxWord := by omega
  obtain ⟨X, rfl, rfl, rfl, hX, hXcapacity, htext, hXlimit, hshow, hzero⟩ :=
    exists_target hp hent hobj hm hsize hcap' hprog
  have hX : (X.size : Int) = size := hX
  have hcal : X.Callable := by
    rw [Target.Callable, hXcapacity]
    exact hcap
  rw [← htext]
  exact leads_run hcal (hXlimit.trans hlim) hshow hzero hrun (room_of_wordsFor hX hroom)

end Simulation

open Simulation in
/-- A compiled program does what its source does.  If the run of the checked package ends without a
reference to nothing, a machine with enough room stops, after printing the same numbers: it halts if
the run has a result, and fails for the same reason if it does not. -/
theorem Compiler.follows_source {c : Compiler} {name : String} {source : List UInt8}
    {object : Object} (hcompile : c.compile name source = .ok object) :
    ∃ p, Package.checked? (Path.base name) source = some p ∧ (p.comparesValues = true → ∀ n,
      (∃ s, Semantics.run p n = .error .outOfFuel s) ∨
      (∃ s, Semantics.run p n = .error .nullReference s) ∨
      ∃ state s, ending (Semantics.run p n) = some (state, s) ∧
        EndsWith object (wordsFor object p n s) state s.printed) := by
  obtain ⟨p, entry, hchecked, hp, hentry, hobject, -⟩ := Compiler.exists_checked hcompile
  refine ⟨p, hchecked, fun hcompare n => ?_⟩
  have hfollows : ∀ state s, ending (Semantics.run p n) = some (state, s) → ∃ state s,
      ending (Semantics.run p n) = some (state, s) ∧
        EndsWith object (wordsFor object p n s) state s.printed := fun state s hrun =>
    ⟨state, s, hrun, endsWith_of_ending hp hentry hobject hrun⟩
  cases hrun : Semantics.run p n with
  | ok r s => exact .inr (.inr (hrun ▸ hfollows .halted s (by rw [hrun]; rfl)))
  | error e s =>
    cases e with
    | outOfFuel => exact .inl ⟨s, rfl⟩
    | nullReference => exact .inr (.inl ⟨s, rfl⟩)
    | stuck => exact absurd hrun (Semantics.run_safe hp hcompare n s)
    | overflow | zeroDivide | arrayIndex | arraySize =>
      exact .inr (.inr (hrun ▸ hfollows _ s (by rw [hrun]; rfl)))

def Semantics.given? : EStateM.Result Abort Store (Option Value) → Option (Option Value × Store)
  | .ok r s => some (r, s)
  | .error _ _ => none

theorem Semantics.eq_ok_of_given? {r : Option Value × Store} (h : given? x = some r) :
    x = .ok r.1 r.2 := by
  cases x with
  | ok r' s => rw [← Option.some.inj h]
  | error e s => cases h

theorem printsFive_evaluated : ∃ p object s, Package.checked? "M" printsFive = some p ∧
    p.comparesValues = true ∧ Compiler.default.object p = .ok object ∧
    Semantics.run p 20 = .ok none s ∧ s.printed = [5] := by
  have h : (Package.checked? "M" printsFive).elim False fun p => p.comparesValues = true ∧
      (Compiler.default.object p).toOption.elim False fun _ =>
        (Semantics.given? (Semantics.run p 20)).elim False fun r =>
          r.1 = none ∧ r.2.printed = [5] := by
    cbv
  obtain ⟨p, hp, hcmp, h⟩ := exists_some_of_elim h
  obtain ⟨object, hobj, h⟩ := exists_ok_of_elim h
  obtain ⟨r, hr, hnone, hprin⟩ := exists_some_of_elim h
  exact ⟨p, object, r.2, hp, hcmp, hobj, hnone ▸ Semantics.eq_ok_of_given? hr, hprin⟩

open Simulation in
/-- The machine of the program that prints a number prints it and halts. -/
theorem Compiler.follows_printsFive : ∃ object p s,
    Compiler.default.compile "M" printsFive = .ok object ∧
    Package.checked? "M" printsFive = some p ∧ p.comparesValues = true ∧
    Semantics.run p 20 = .ok none s ∧
    EndsWith object (wordsFor object p 20 s) .halted [5] := by
  obtain ⟨p, object, s, hp, hcompare, hobject, hrun, hprinted⟩ := printsFive_evaluated
  have hcompile : Compiler.default.compile "M" printsFive = .ok object :=
    (Compiler.compile_of_checked "M" hp).trans hobject
  refine ⟨object, p, s, hcompile, hp, hcompare, hrun, ?_⟩
  obtain ⟨q, hq, hfollows⟩ := Compiler.follows_source hcompile
  cases hp.symm.trans hq
  have hends := hfollows hcompare 20
  simp only [hrun, reduceCtorEq, exists_false, false_or] at hends
  obtain ⟨state, s', hending, hends⟩ := hends
  obtain ⟨rfl, rfl⟩ : MachineState.halted = state ∧ s = s' := by simpa [ending] using hending
  rwa [hprinted] at hends

end MiniJam
