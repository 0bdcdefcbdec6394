import MiniJam.Proofs.Simulation.Scene

/-!
# The start of a program

A machine that starts with the code of a package first makes room for the static fields, pushes the
descriptors of the classes, and calls the method where the package starts (`path_entry`).  A `Path`
is a chain of such steps: none of them calls a method of an instance, and the next configuration of
each is known, unless the machine stops because there is no room.
-/

namespace MiniJam

open List Machine Assembly Layout Code

namespace Simulation

open Semantics Machine.Exec

variable {X : Target} {m : Machine}

/-! ### Paths -/

/-- A machine comes from one configuration to another one in known steps, if there is room for `top`
words; no instruction follows a reference. -/
inductive Path (X : Target) (top : Nat) : Config → Config → Prop
  | refl (c : Config) : Path X top c c
  | step {c c₁ c' : Config} {op : Opcode} {n d : Int} {r : Reg} {need : Nat}
    (hi : X.InstrAt c.cp (.make op n r d)) (hop : (Instr.make op n r d).access? = none)
    (hgrows : Grows X need c c₁) (hneed : need + heapWords X.package c₁.heap ≤ top)
    (hrest : Path X top c₁ c') : Path X top c c'

section

variable {top : Nat} {c c' c'' : Config}

theorem Path.trans (h : Path X top c c') (h' : Path X top c' c'') : Path X top c c'' := by
  induction h with
  | refl => exact h'
  | step hi hop hgrow hneed _ ih => exact .step hi hop hgrow hneed (ih h')

theorem Path.arrives (h : Path X top c c') (hroom : top ≤ X.size) : Arrives X c c' := by
  induction h with
  | refl => exact .refl _
  | step _ _ hgrow hneed _ ih => exact (hgrow.arrives (Nat.le_trans hneed hroom)).trans ih

end

/-! ### The words at the bottom of the stack -/

theorem shows_fresh {output : Output}
    (hm : m.Fresh X.assembly.program X.size X.capacity output) (htext : X.text = output.text)
    (hlim : X.limit = output.limit) : Shows X m ⟨0, 0, .null, [], [], []⟩ where
  program := hm.program_eq
  capacity := hm.capacity_eq
  size := hm.hb_eq
  state := by
    have hemp : X.assembly.program.isEmpty = false := by
      simp [Array.isEmpty, X.size_program]
    simp [hm.state_eq, hemp]
  cp := hm.cp_eq
  lb := hm.lb_eq
  live := trivial
  ob := hm.ob_eq
  st := hm.st_eq
  ht := by simpa [heapWords, total] using hm.ht_eq
  room := Nat.zero_le _
  stack := nofun
  blocks := nofun
  output := by simp [hm.output_eq, htext, lines]
  limit := hm.output_eq ▸ hlim.symm

theorem peek_fresh {program : Program} {size capacity : Int} {output : Output}
    (hm : m.Fresh program size capacity output) (x : Int) : m.peek x = 0 := by
  simp only [Machine.peek, hm.data_eq, Array.getD_eq_getD_getElem?, Array.getElem?_replicate]
  split <;> rfl

theorem exists_target {p : Package} (hp : p.Typed) {entry : MemberId}
    (hent : p.entry = some entry) {dynamic : Bool} {object : Object}
    (hobj : object.program = (ofPackage p dynamic entry).program) {name : String}
    {input : Input} {output : Output} (hload : Machine.load name object o input output = .ok m)
    (hsize : o.dataStore.getD defaultDataStore ≤ maxWord)
    (hcap : o.capacity.getD defaultCapacity ≤ maxInt64)
    (hprog : (object.program.size : Int) ≤ maxWord) :
    ∃ X : Target, X.package = p ∧ X.entry = entry ∧ X.dynamic = dynamic ∧
      X.size = o.dataStore.getD defaultDataStore ∧
      X.capacity = o.capacity.getD defaultCapacity ∧ X.text = output.text ∧
      X.limit = output.limit ∧ Shows X m ⟨0, 0, .null, [], [], []⟩ ∧ ∀ x, m.peek x = 0 := by
  have hfre := fresh_of_load hload
  have hnat : ((o.dataStore.getD defaultDataStore).toNat : Int) =
      o.dataStore.getD defaultDataStore := by
    have := hfre.size_gt
    simp only [linkWords] at this
    omega
  let X : Target :=
    { package := p, typed := hp, entry := entry, entry_eq := hent, dynamic := dynamic
      capacity := o.capacity.getD defaultCapacity
      size := (o.dataStore.getD defaultDataStore).toNat
      text := output.text, limit := output.limit
      size_le := hnat.symm ▸ hsize
      capacity_le := hcap
      fits_capacity := hobj ▸ hfre.fits
      program_le := hobj ▸ hprog }
  have hfre' : m.Fresh X.assembly.program X.size X.capacity output := by
    rw [hobj, ← hnat] at hfre
    exact hfre
  exact ⟨X, rfl, rfl, rfl, hnat, rfl, rfl, rfl, shows_fresh hfre' rfl rfl, peek_fresh hfre'⟩

theorem Shows.ofZeros (h : Shows X m ⟨0, 0, .null, [], [], []⟩) (hzero : ∀ x, m.peek x = 0)
    {vs : List Value} (hvs : ∀ v ∈ vs, Live [] v ∧ X.encode [] v = 0) (hroom : vs.length ≤ X.size) :
    Shows X (m.withST vs.length) ⟨0, 0, .null, (vs.map .val).reverse, [], []⟩ :=
  { h with
    st := by simp
    room := by simpa [heapWords, total] using hroom
    stack := by
      intro k c hk
      rw [reverse_reverse, getElem?_map, Option.map_eq_some_iff] at hk
      obtain ⟨v, hv, rfl⟩ := hk
      obtain ⟨hlive, henc⟩ := hvs v (mem_of_getElem? hv)
      exact ⟨hlive, (hzero _).trans henc.symm⟩
    blocks := nofun }

/-- The values of the static fields at the start, in the order in which they lie on the stack. -/
def Target.initials (X : Target) : List Value := (staticIds X.package).map (start X.package).statics

theorem Target.encode_initials (X : Target) : ∀ v ∈ X.initials, Live [] v ∧ X.encode [] v = 0 := by
  intro v hv
  obtain ⟨id, -, rfl⟩ := mem_map.1 hv
  simp only [start]
  cases X.package.field? id with
  | none => exact ⟨trivial, rfl⟩
  | some f => exact encode_initial [] f.type

theorem shows_statics (h : Shows X m ⟨0, 0, .null, [], [], []⟩) (hzero : ∀ x, m.peek x = 0) :
    Shows X m.step.1 ⟨1, 0, .null, (X.initials.map .val).reverse, [], []⟩ ∨
      m.step.1.state ≠ .running ∧ ¬ staticSize X.package ≤ X.size := by
  have hc := X.codeAt_start.left.left
  have hlen : X.initials.length = staticSize X.package := by
    rw [Target.initials, length_map, length_staticIds X.typed]
  have hst : m.st = 0 := h.st
  have hsp : ([] : List Cell).length + staticSize X.package + heapWords X.package [] ≤
      X.size ↔ staticSize X.package ≤ X.size := by simp [heapWords, total]
  have hd : (Instr.make .push 0 .zr (staticSize X.package)).d = staticSize X.package := rfl
  refine shows_of_operation hc.one.get hc.one.lt h ?_
  simp only [operation, hd, ensures_bind, ensures_require, Int.natCast_nonneg, decide_true,
    ↓reduceIte, ensures_checkSpace h, hsp, ensures_get, ensures_setST, ensures_pure, hst,
    Int.zero_add]
  split
  · have haft := h.ofZeros hzero X.encode_initials (hlen ▸ ‹_›)
    rw [hlen] at haft
    exact ⟨rfl, haft.withCP rfl⟩
  · exact ⟨⟨_, rfl⟩, ‹_›⟩

theorem path_pushes {top n pc pc' lb : Nat} {this : Value} {stack : List Cell} {heap : List Block}
    {printed : List Int} (h : X.assembly.Pushes n pc ds pc')
    (hr : stack.length + ds.length + heapWords X.package heap ≤ top) :
    Path X top ⟨pc, lb, this, stack, heap, printed⟩
      ⟨pc', lb, this, (ds.map Cell.low).reverse ++ stack, heap, printed⟩ := by
  induction h generalizing stack with
  | done => exact .refl _
  | @literal n pc pc' d ds hi _ ih =>
    rw [length_cons] at hr
    have hstk : ((d :: ds).map Cell.low).reverse ++ stack =
        (ds.map Cell.low).reverse ++ .low d :: stack := by simp
    rw [hstk]
    refine .step hi rfl (grows_low hi) ?_ (ih (by rw [length_cons]; omega))
    show stack.length + 1 + heapWords X.package heap ≤ top
    omega
  | jump hi htgt _ ih =>
    refine .step hi rfl (show Grows X 0 _ _ from (steps_jump hi htgt).grows) ?_ (ih hr)
    show 0 + heapWords X.package heap ≤ top
    omega

/-- All of these numbers are words, but for the size of an instance, which may lose its high
bits. -/
theorem descriptorCells_eq {part : Code.Part} (hcode : X.CodeAt part.start part.code)
    (haddr : ∀ b ∈ part.bodies, b.addr < X.assembly.program.size) :
    part.descriptor.map Cell.low = descriptorCells part := by
  have hlt := hcode.right.lt
  rw [part.descriptorCode_eq, size_join_literals] at hlt
  have hw : ∀ n : Nat, n < X.assembly.program.size → Cell.low n = .raw n := fun n hn =>
    Cell.low_eq (X.addr_mem hn).2
  have hcnt : Cell.low part.instanceBodies.length = .raw part.instanceBodies.length := by
    refine hw _ ?_
    simp only [Code.Part.descriptor, length_cons, length_map] at hlt
    omega
  have hpar : Cell.low noParent = .raw noParent := Cell.low_eq (by decide)
  simp only [Code.Part.descriptor, descriptorCells, map_cons, map_map, hcnt, hpar]
  congr 3
  refine map_congr_left fun b hb => hw b.addr (haddr b ?_)
  exact mem_of_mem_filter hb

theorem Target.descriptors_eq (X : Target) :
    (X.assembly.parts.flatMap Code.Part.descriptor).map Cell.low = X.descriptors := by
  rw [map_flatMap, Target.descriptors]
  refine flatMap_congr fun part hp => descriptorCells_eq (codeAt_part hp) ?_
  intro b hb
  exact Nat.lt_of_le_of_lt (Nat.le_add_right _ _) (codeAt_of_mem_bodies hp hb).lt

theorem Target.path_ground (X : Target) : Path X X.groundWords
    ⟨1, 0, .null, (X.initials.map .val).reverse, [], []⟩
    ⟨1 + (join (X.assembly.parts.map (·.code))).size, 0, .null,
      (X.ground (start X.package).statics).reverse, [], []⟩ := by
  have hlen := X.length_ground (start X.package).statics
  have hinit : X.initials.map Cell.val =
      (staticIds X.package).map fun id => .val ((start X.package).statics id) := by
    rw [Target.initials, map_map]
    rfl
  have hgrou : X.ground (start X.package).statics = X.initials.map .val ++ X.descriptors := by
    rw [hinit, Target.ground]
  rw [hgrou, ← X.descriptors_eq, length_append, length_map] at hlen
  rw [hgrou, ← X.descriptors_eq, reverse_append]
  refine path_pushes (pushes_parts X.package X.dynamic X.entry) ?_
  rw [length_map] at hlen
  rw [length_reverse, length_map]
  exact Nat.le_of_eq hlen

/-! ### The first call -/

theorem Shows.halts {c : Config} (h : Shows X m c) (hcp : c.cp = X.startCode.size) :
    m.step.1.state = .halted ∧ m.step.1.output.text = X.text ++ lines c.printed := by
  refine (step_iff h.state (h.instrAt? (hcp ▸ X.halt_start)) fun r =>
    r.1.state = .halted ∧ r.1.output.text = X.text ++ lines c.printed).2 ?_
  rw [ensures_instruction (Opcode.ofCode?_code .halt)]
  exact ⟨rfl, h.output⟩

/-- What the method where a package starts goes back to: the end of the program. -/
def Target.bottom (X : Target) : Caller := ⟨[], .null, 0, X.startCode.size⟩

theorem path_call {b : Code.Body} (hb : X.assembly.body? X.entry = some b) (s : Store)
    (hs : s.heap = []) :
    Path X (X.groundWords + 4) ⟨1 + (join (X.assembly.parts.map (·.code))).size, 0, .null,
        (X.ground s.statics).reverse, s.heap, s.printed⟩
      ((X.view X.bottom ⟨.null, [.null], []⟩).config b.addr [] s) := by
  have hc := X.codeAt_start.right
  rw [Nat.zero_add, size_append, size_one] at hc
  have hlen := X.length_ground s.statics
  have hws : heapWords X.package s.heap = 0 := by rw [hs]; rfl
  have hnull : Cell.Good s.heap (.val .null) := trivial
  have hlit := hc.left.one
  have hcall := hc.right.callOf hb
  refine .step hlit rfl (grows_literal hlit hnull rfl) ?_
    (.step hcall (Instr.access?_callOf _) (grows_call hcall (X.addr_lt hb) (Nat.zero_le _)) ?_ ?_)
  · show (X.ground s.statics).reverse.length + 1 + heapWords X.package s.heap ≤ X.groundWords + 4
    rw [length_reverse]
    omega
  · show (X.ground s.statics).reverse.length + 1 + 3 + heapWords X.package s.heap ≤
      X.groundWords + 4
    rw [length_reverse]
    omega
  have hnext : ((X.startCode.size : Nat) : Int) =
      ((1 + (join (X.assembly.parts.map (·.code))).size + 1 : Nat) : Int) + 1 := by
    simp [Assembly.startCode, Target.assembly]
    omega
  have hlb : 1 + X.groundWords = (Cell.val .null :: (X.ground s.statics).reverse).length := by
    rw [length_cons, length_reverse]
    omega
  simp only [Target.view, Target.viewOf, View.config, Caller.words, Target.bottom, reverse_nil,
    map_nil, nil_append, map_cons, append_nil, cons_append,
    length_cons, length_nil, Nat.zero_add, Nat.add_zero, hnext, hlb]
  exact .refl _

theorem Path.mono {c c' : Config} (h : Path X top c c') (hle : top ≤ top') : Path X top' c c' := by
  induction h with
  | refl => exact .refl _
  | step hi hop hgrow hneed _ ih => exact .step hi hop hgrow (Nat.le_trans hneed hle) ih

/-- From the configuration in which there is room for the static fields to the first instruction of
the method where the package starts. -/
theorem path_entry {b : Code.Body} (hb : X.assembly.body? X.entry = some b) :
    Path X (X.groundWords + 4) ⟨1, 0, .null, (X.initials.map .val).reverse, [], []⟩
      ((X.view X.bottom ⟨.null, [.null], []⟩).config b.addr [] (start X.package)) :=
  (X.path_ground.mono (Nat.le_add_right _ _)).trans (path_call hb (start X.package) rfl)

end Simulation

end MiniJam
