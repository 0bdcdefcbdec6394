import MiniJam.Proofs.Code.Placed
import MiniJam.Proofs.Machine.Access
import MiniJam.Proofs.Machine.Bounds
import MiniJam.Proofs.Simulation.Memory

/-!
# Steps between configurations

`Steps X c c'` says that a machine in the configuration `c` comes to the configuration `c'` with its
next step, and `Stops X c why` that its program fails there.  There is one lemma for each kind of
instruction; it asks that the instruction stands at the code pointer (`Target.InstrAt`).  An
instruction that needs room on the stack makes its step if there is room, and stops the program if
there is none (`Grows`).  In a code segment so large that the primitive routines have no addresses,
calling one stops the program too.  An instruction that follows the reference to nothing is `Refused`.
`Arrives`, `Fails` and `MeetsNull` are about any number of steps.
-/

namespace MiniJam

open List Machine Instr

namespace Simulation

open Semantics Machine.Exec

/-- The code stands at an address of the program, and is not the last of it. -/
abbrev Target.CodeAt (X : Target) (pc : Nat) (code : Code) : Prop := X.assembly.CodeAt pc code

variable {X : Target}

theorem Target.codeAt_append {a b : Code} :
    X.CodeAt pc (a ++ b) ↔ X.CodeAt pc a ∧ X.CodeAt (pc + a.size) b :=
  Assembly.codeAt_append

/-- The instruction stands at an address of the program, and is not the last one. -/
abbrev Target.InstrAt (X : Target) (pc : Nat) (i : Instr) : Prop := X.assembly.InstrAt pc i

/-! ### Single steps -/

/-- The machine stops because it has called a primitive routine that has no address. -/
def Target.Strays (X : Target) (m : Machine) : Prop := m.state ≠ .running ∧ ¬ X.Callable

/-- A machine in one configuration comes to another one with its next step. -/
def Steps (X : Target) (c c' : Config) : Prop :=
  ∀ m, Shows X m c → Shows X m.step.1 c' ∨ X.Strays m.step.1

/-- The program of a machine in a configuration fails with its next step, which writes nothing. -/
def Stops (X : Target) (c : Config) (why : Failure) : Prop :=
  ∀ m, Shows X m c →
    m.step.1.state = .failed why ∧ m.step.1.output = m.output ∧ m.step.1.data = m.data ∨
      X.Strays m.step.1

/-- The next instruction of a machine in a configuration follows the reference to nothing, which is
noticed before anything is written. -/
def Refused (X : Target) (c : Config) : Prop :=
  ∃ a, ∀ m, Shows X m c → m.Meets a ∧ (m.Catches a ∨ X.Strays m.step.1)

/-- A machine in a configuration comes to one with a property with its next step, if it goes on. -/
def Goes (X : Target) (c : Config) (Q : Config → Prop) : Prop :=
  ∀ m, Shows X m c → m.step.1.state = .running → ∃ c', Shows X m.step.1 c' ∧ Q c'

/-- A machine in one configuration comes to another one with its next step if there is room for a
stack of `need` words next to the blocks then, and stops if there is none. -/
structure Grows (X : Target) (need : Nat) (c c' : Config) : Prop where
  steps : need + heapWords X.package c'.heap ≤ X.size → Steps X c c'
  goes : Goes X c fun c₁ => c₁ = c'

variable {c c' c'' : Config} {Q : Config → Prop} {need : Nat} {why : Failure}

theorem Steps.goes_to (h : Steps X c c') (hQ : Q c') : Goes X c Q :=
  fun m hm hrun => ⟨c', (h m hm).resolve_right fun hstr => hstr.1 hrun, hQ⟩

theorem Steps.grows (h : Steps X c c') : Grows X need c c' := ⟨fun _ => h, h.goes_to rfl⟩

theorem Grows.goes_to (h : Grows X need c c') (hQ : Q c') : Goes X c Q := by
  intro m hm hrun
  obtain ⟨c₁, hm', rfl⟩ := h.goes m hm hrun
  exact ⟨c₁, hm', hQ⟩

theorem Stops.goes (h : Stops X c why) : Goes X c Q := by
  intro m hm hrun
  rcases h m hm with ⟨hsta, -⟩ | ⟨hsta, -⟩
  · exact nomatch hsta.symm.trans hrun
  · exact absurd hrun hsta

theorem Refused.goes (h : Refused X c) : Goes X c Q := by
  intro m hm hrun
  obtain ⟨a, h⟩ := h
  rcases (h m hm).2 with hcat | hstr
  · exact absurd hrun hcat.state_ne
  · exact absurd hrun hstr.1

theorem Shows.instrAt? (h : Shows X m c) (hi : X.assembly.program[c.cp]? = some i) :
    m.instrAt? m.cp = some i := by
  have hcp : ¬ (c.cp : Int) < 0 := by omega
  simp [Machine.instrAt?, h.cp, h.program, hcp, hi]

section

variable {op : Opcode} {n d : Int} {r : Reg}

section

variable (hi : X.assembly.program[c.cp]? = some (.make op n r d))

include hi

theorem shows_of_operation {P : Prop} (hlt : c'.cp < X.assembly.program.size) (hm : Shows X m c)
    (h : Ensures (operation op (.make op n r d) (c.cp + 1)) m
      (fun next m' => next = c'.cp ∧ Shows X (m'.withCP c'.cp) c')
      fun e _ => (∃ why, e = .failure why) ∧ P) :
    Shows X m.step.1 c' ∨ m.step.1.state ≠ .running ∧ P := by
  refine (step_iff hm.state (hm.instrAt? hi) fun r =>
    Shows X r.1 c' ∨ r.1.state ≠ .running ∧ P).2 ?_
  rw [ensures_instruction (Opcode.ofCode?_code op), hm.cp]
  refine h.mono ?_ ?_
  · rintro next m' ⟨rfl, hm'⟩
    have hct : m'.ct = X.assembly.program.size := by
      have := hm'.program
      simp only [withCP_program] at this
      simp [ct, this]
    rw [if_pos ⟨by omega, by omega⟩]
    exact .inl hm'
  · rintro e m' ⟨⟨why, rfl⟩, hP⟩
    exact .inr ⟨(fun h => by cases h), hP⟩

theorem steps_of_operation (hlt : c'.cp < X.assembly.program.size)
    (h : ∀ m, Shows X m c → Ensures (operation op (.make op n r d) (c.cp + 1)) m
      (fun next m' => next = c'.cp ∧ Shows X (m'.withCP c'.cp) c') fun _ _ => False) :
    Steps X c c' := by
  intro m hm
  refine .inl ((shows_of_operation hi hlt hm ?_).resolve_right And.right)
  exact (h m hm).mono (fun _ _ => id) fun _ _ => False.elim

/-- The operation fails only if there is no room. -/
theorem grows_of_operation (hlt : c'.cp < X.assembly.program.size)
    (h : ∀ m, Shows X m c → Ensures (operation op (.make op n r d) (c.cp + 1)) m
      (fun next m' => next = c'.cp ∧ Shows X (m'.withCP c'.cp) c')
      fun e _ => (∃ why, e = .failure why) ∧ ¬ need + heapWords X.package c'.heap ≤ X.size) :
    Grows X need c c' where
  steps hroom m hm := .inl <| (shows_of_operation hi hlt hm (h m hm)).resolve_right fun hf =>
    hf.2 hroom
  goes m hm hrun := ⟨c', (shows_of_operation hi hlt hm (h m hm)).resolve_right fun hf =>
    hf.1 hrun, rfl⟩

theorem stops_of_operation (h : ∀ m, Shows X m c → Ensures (operation op (.make op n r d) (c.cp + 1)) m
      (fun _ _ => False) fun e m' => e = .failure why ∧ m'.output = m.output ∧ m'.data = m.data) :
    Stops X c why := by
  intro m hm
  refine .inl <| (step_iff hm.state (hm.instrAt? hi) fun r =>
    r.1.state = .failed why ∧ r.1.output = m.output ∧ r.1.data = m.data).2 ?_
  rw [ensures_instruction (Opcode.ofCode?_code op), hm.cp]
  refine (h m hm).mono (fun _ _ => False.elim) ?_
  rintro e m' ⟨rfl, hout, hdata⟩
  exact ⟨rfl, hout, hdata⟩

end

end

/-! ### Reachable configurations -/

def Arrives (X : Target) (c c' : Config) : Prop :=
  X.Callable → ∀ m, Shows X m c → m.Leads (Shows X · c')

/-- The program of a machine in a configuration fails after printing numbers. -/
def Fails (X : Target) (c : Config) (why : Failure) (printed : List Int) : Prop :=
  X.Callable → ∀ m, Shows X m c → m.Leads fun m' =>
    m'.state = .failed why ∧ m'.output.text = X.text ++ lines printed

/-- A machine in a configuration comes to an instruction that follows the reference to nothing, after
printing numbers. -/
def MeetsNull (X : Target) (c : Config) (printed : List Int) : Prop :=
  X.Callable → ∀ m, Shows X m c → m.Leads fun m' =>
    (∃ a, m'.Meets a) ∧ m'.output.text = X.text ++ lines printed

theorem Arrives.refl (c : Config) : Arrives X c c := fun _ _ hm => .refl hm

theorem Arrives.trans (h : Arrives X c c') (h' : Arrives X c' c'') : Arrives X c c'' :=
  fun hX m hm => (h hX m hm).trans (h' hX)

theorem Arrives.fails {printed : List Int} (h : Arrives X c c') (h' : Fails X c' why printed) :
    Fails X c why printed :=
  fun hX m hm => (h hX m hm).trans (h' hX)

theorem Arrives.meetsNull {printed : List Int} (h : Arrives X c c') (h' : MeetsNull X c' printed) :
    MeetsNull X c printed :=
  fun hX m hm => (h hX m hm).trans (h' hX)

theorem meetsNull_of_meets {a : Access} (h : ∀ m, Shows X m c → m.Meets a) :
    MeetsNull X c c.printed :=
  fun _ m hm => .refl ⟨⟨a, h m hm⟩, hm.output⟩

theorem Refused.meetsNull (h : Refused X c) : MeetsNull X c c.printed := by
  obtain ⟨a, h⟩ := h
  exact meetsNull_of_meets fun m hm => (h m hm).1

theorem Steps.arrives (h : Steps X c c') : Arrives X c c' :=
  fun hX m hm => leads_step ((h m hm).resolve_right fun hstr => hstr.2 hX)

theorem Grows.arrives (h : Grows X need c c')
    (hroom : need + heapWords X.package c'.heap ≤ X.size) : Arrives X c c' :=
  (h.steps hroom).arrives

theorem Stops.fails (h : Stops X c why) : Fails X c why c.printed := by
  intro hX m hm
  obtain ⟨hsta, hout, -⟩ := (h m hm).resolve_right fun hstr => hstr.2 hX
  exact leads_step ⟨hsta, by rw [hout, hm.output]⟩

/-! ### Actions in a configuration -/

section

variable {α : Type} {m : Machine} {stop : Machine.Stop → Machine → Prop}

theorem Shows.st_le (h : Shows X m c) : 0 ≤ m.st ∧ m.st ≤ m.ht ∧ m.ht ≤ m.hb := by
  have := h.st
  have := h.ht
  have := h.room
  have := h.size
  omega

variable {cell : Cell} {ok : Int → Machine → Prop} {x : Int} {rest : List Cell} {heap : List Block}
  {a : Nat} {b : Block}

theorem Shows.peek_under (h : Shows X m c) (above : List Cell)
    (hstk : c.stack = above ++ cell :: below) :
    m.peek (m.st - 1 - above.length) = X.word c.heap cell := by
  have hst := h.st
  rw [hstk, length_append, length_cons] at hst
  have haddr : m.st - 1 - above.length = below.length := by omega
  rw [haddr]
  exact (h.holds_at above hstk).2

theorem Shows.peek_top (h : Shows X m c) (hstk : c.stack = cell :: below) :
    m.peek (m.st - 1) = X.word c.heap cell := by
  have htop := h.peek_under [] hstk
  rwa [length_nil, Int.natCast_zero, Int.sub_zero] at htop

theorem ensures_effective_wrap {op : Opcode} {n d : Int} {r : Reg} :
    Ensures (effective (.make op n r d)) m ok stop ↔ ok (wrap64 (m.reg r + d)) m := by
  have hr : Reg.ofCode? (make op n r d).r = some r := Reg.ofCode?_code r
  have hd : (make op n r d).d = d := rfl
  simp [effective, hr, ensures_get, hd]

theorem ensures_effective {op : Opcode} {n d : Int} {r : Reg}
    (hx : m.reg r + d = x) (hmem : minInt64 ≤ x ∧ x ≤ maxInt64) :
    Ensures (effective (.make op n r d)) m ok stop ↔ ok x m := by
  rw [ensures_effective_wrap, hx, wrap64_of_mem hmem]

section

variable (h : Shows X m c)

include h

theorem ensures_checkSpace {ok : Unit → Machine → Prop} (k : Nat) :
    Ensures (checkSpace k) m ok stop ↔
      if c.stack.length + k + heapWords X.package c.heap ≤ X.size then ok () m
      else stop (.failure (.noRoom k m.st m.ht)) m := by
  have hst := h.st
  have hht := h.ht
  have hsp : (k : Int) ≤ m.ht - m.st ↔
      c.stack.length + k + heapWords X.package c.heap ≤ X.size := by omega
  simp [checkSpace, ensures_bind, ensures_get, ensures_require, hsp]

theorem ensures_push {ok : Unit → Machine → Prop} (w : Int) : Ensures (push w) m ok stop ↔
      if c.stack.length + 1 + heapWords X.package c.heap ≤ X.size then
        ok () ((m.poke m.st w).withST (m.st + 1))
      else stop (.failure (.noRoom 1 m.st m.ht)) m := by
  have hst := h.st
  have hht := h.ht
  have hle := h.st_le
  refine (ensures_bind _ _).trans ((ensures_checkSpace h 1).trans ?_)
  split
  · have hin : 0 ≤ m.st ∧ m.st < m.hb := by omega
    simp [hin]
  · rfl

theorem Shows.operands (above : List Cell) (hs : c.stack = above ++ rest) :
    m.st - above.length = rest.length ∧ above.length ≤ m.st ∧ m.st ≤ m.hb := by
  have hst := h.st
  have hle := h.st_le
  rw [hs, length_append] at hst
  omega

theorem ensures_pop {x : Cell} (hs : c.stack = x :: rest) :
    Ensures pop m ok stop ↔ ok (X.word c.heap x) (m.withST rest.length) := by
  obtain ⟨hst, hin⟩ := h.operands [x] hs
  rw [Exec.ensures_pop hin, h.peek_top hs]
  exact hst ▸ Iff.rfl

theorem ensures_setTop {ok : Unit → Machine → Prop} {x : Cell}
    (hs : c.stack = x :: rest) (w : Int) :
    Ensures (setTop w) m ok stop ↔ ok () (m.poke rest.length w) := by
  obtain ⟨hst, hin⟩ := h.operands [x] hs
  rw [Exec.ensures_setTop hin]
  exact hst ▸ Iff.rfl

theorem ensures_top1 {x : Cell}
    (hs : c.stack = x :: rest) : Ensures top1 m ok stop ↔ ok (X.word c.heap x) m := by
  rw [Exec.ensures_top1 (h.operands [x] hs).2, h.peek_top hs]

theorem ensures_top2 {ok : Int × Int → Machine → Prop} {x y : Cell}
    (hs : c.stack = y :: x :: rest) :
    Ensures top2 m ok stop ↔ ok (X.word c.heap x, X.word c.heap y) m := by
  have hx := h.peek_under [y] hs
  rw [show m.st - 1 - ([y].length : Int) = m.st - 2 by simp; omega] at hx
  rw [Exec.ensures_top2 (h.operands [y, x] hs).2, h.peek_top hs, hx]

theorem ensures_top3 {ok : Int × Int × Int → Machine → Prop} {x y z : Cell}
    (hs : c.stack = z :: y :: x :: rest) :
    Ensures top3 m ok stop ↔ ok (X.word c.heap x, X.word c.heap y, X.word c.heap z) m := by
  have hx := h.peek_under [z, y] hs
  have hy := h.peek_under [z] hs
  rw [show m.st - 1 - ([z, y].length : Int) = m.st - 3 by simp; omega] at hx
  rw [show m.st - 1 - ([z].length : Int) = m.st - 2 by simp; omega] at hy
  rw [Exec.ensures_top3 (h.operands [z, y, x] hs).2, h.peek_top hs, hx, hy]

end

/-- An address of the data store that holds a cell. -/
structure Reads (X : Target) (m : Machine) (heap : List Block) (x : Int) (cell : Cell) : Prop where
  nonneg : 0 ≤ x
  lt : x < X.size
  good : cell.Good heap
  peek : m.peek x = X.word heap cell

theorem Reads.mem (h : Reads X m heap x cell) : minInt64 ≤ x ∧ x ≤ maxInt64 := by
  have hsize := X.size_le
  have hnon := h.nonneg
  have hlt := h.lt
  simp only [maxWord, minInt64, maxInt64] at *
  omega

theorem Shows.reads_stack (h : Shows X m c) (above below : List Cell)
    (hstk : c.stack = above ++ cell :: below) (hx : x = below.length) :
    Reads X m c.heap x cell := by
  have hroom := h.room
  rw [hstk, length_append, length_cons] at hroom
  obtain ⟨hgood, hpeek⟩ := h.holds_at above hstk
  exact ⟨by omega, by omega, hgood, hx ▸ hpeek⟩

theorem Shows.reads_block (h : Shows X m c) (hb : c.heap[a]? = some b) {k : Nat} (hk : (cells X.package b)[k]? = some cell)
    (hx : x = X.base c.heap a + k) : Reads X m c.heap x cell := by
  have hbase := X.base_nonneg h.heapWords_le a
  have htop := X.base_add_span hb
  have hlt := (List.getElem?_eq_some_iff.1 hk).1
  rw [length_cells] at hlt
  obtain ⟨hgood, hpeek⟩ := h.blocks a b hb k cell hk
  exact ⟨by omega, by omega, hgood, hx ▸ hpeek⟩

theorem Shows.reads_value (hm : Shows X m c) {k : Nat} (hb : c.heap[a]? = some b)
    (hk : (values X.package b)[k]? = some v) (hx : x = X.encode c.heap (.ref a) + k) :
    Reads X m c.heap x (.val v) := by
  refine hm.reads_block hb (k := k + 2) (by simp [cells, hk]) ?_
  rw [hx]
  simp only [Target.encode, headerWords]
  omega

theorem Shows.reads_size (hm : Shows X m c) (hb : c.heap[a]? = some b) :
    Reads X m c.heap (X.encode c.heap (.ref a) + headerSize)
      (.raw (values X.package b).length) := by
  refine hm.reads_block hb (k := 1) (by simp [cells]) ?_
  simp only [Target.encode, headerWords, headerSize]
  omega

theorem Shows.reads_tag (hm : Shows X m c) (hb : c.heap[a]? = some b) :
    Reads X m c.heap (X.encode c.heap (.ref a) + headerClass) (.raw (tag X.package b)) := by
  refine hm.reads_block hb (k := 0) (by simp [cells]) ?_
  simp only [Target.encode, headerWords, headerClass]
  omega

theorem ensures_heapRef {ok : Unit → Machine → Prop} (h : Shows X m c) (ha : a < c.heap.length) :
    Ensures (heapRef (X.encode c.heap (.ref a))) m ok stop ↔ ok () m := by
  have hpos := X.encode_ref_pos h.heapWords_le a
  have hbase := X.base_nonneg h.heapWords_le a
  have htop := X.base_add_span (getElem?_eq_getElem ha)
  have hsize := h.size
  have hht := h.ht
  have hne : (X.encode c.heap (.ref a) != 0) = true := by
    simpa using Int.ne_of_gt hpos
  have hin : m.ht + headerWords ≤ X.encode c.heap (.ref a) ∧ X.encode c.heap (.ref a) ≤ m.hb := by
    simp only [Target.encode, headerWords, span] at *
    omega
  simp [heapRef, ensures_bind, ensures_require, hne, ensures_get, hin]

theorem ensures_heapRef_null {ok : Unit → Machine → Prop} :
    Ensures (heapRef (X.word heap (.val .null))) m ok stop ↔ stop (.failure .nullReference) m := by
  have hnull : (X.word heap (.val .null) != 0) = false := rfl
  simp [heapRef, ensures_bind, ensures_require, hnull]

theorem ensures_wordOf (hsize : m.hb = X.size) (h : Reads X m heap x cell) :
    Ensures (Exec.word x) m ok stop ↔ ok (X.word heap cell) m := by
  have hin : 0 ≤ x ∧ x < m.hb := ⟨h.nonneg, hsize ▸ h.lt⟩
  rw [ensures_word, if_pos hin, h.peek]

end

/-! ### Instructions -/

section

variable {cp lb : Nat} {this : Value} {stack rest : List Cell} {heap : List Block}
  {printed : List Int} {n : Int}

variable {d : Int} {cell : Cell} {r : Reg} {above below : List Cell} {addr slot : Nat} {m : Machine}
  {o : Value} {stop : Machine.Stop → Machine → Prop}

theorem grows_literal (hi : X.InstrAt cp (.make .loadl n .zr d))
    (hcell : cell.Good heap) (hd : d = X.word heap cell) :
    Grows X (stack.length + 1) ⟨cp, lb, this, stack, heap, printed⟩
      ⟨cp + 1, lb, this, cell :: stack, heap, printed⟩ := by
  refine grows_of_operation hi.get hi.lt fun m hm => ?_
  simp only [operation, ensures_bind, ensures_push hm, ensures_pure]
  split
  · exact ⟨rfl, (hm.push hcell hd rfl ‹_›).withCP rfl⟩
  · exact ⟨⟨_, rfl⟩, ‹_›⟩

theorem grows_low (hi : X.InstrAt cp (.make .loadl n .zr d)) :
    Grows X (stack.length + 1) ⟨cp, lb, this, stack, heap, printed⟩
      ⟨cp + 1, lb, this, .low d :: stack, heap, printed⟩ := by
  refine grows_of_operation hi.get hi.lt fun m hm => ?_
  have hpoke : m.poke m.st d = m.poke m.st (X.word heap (.low d)) := by
    simp only [poke, Target.word, Cell.low, Int32.ofInt_toInt]
  have hd : (make .loadl n .zr d).d = d := rfl
  simp only [operation, ensures_bind, ensures_push hm, ensures_pure, hd, hpoke]
  split
  · exact ⟨rfl, (hm.push (Cell.good_low heap d) rfl rfl ‹_›).withCP rfl⟩
  · exact ⟨⟨_, rfl⟩, ‹_›⟩

theorem grows_loada (hi : X.InstrAt cp (.make .loada n r d))
    (hd : ∀ m, Shows X m ⟨cp, lb, this, stack, heap, printed⟩ →
      cell.Good heap ∧ m.reg r + d = X.word heap cell) :
    Grows X (stack.length + 1) ⟨cp, lb, this, stack, heap, printed⟩
      ⟨cp + 1, lb, this, cell :: stack, heap, printed⟩ := by
  refine grows_of_operation hi.get hi.lt fun m hm => ?_
  obtain ⟨hc, hd⟩ := hd m hm
  have hmem := X.word_mem hm.heapWords_le hc
  have hmem' : minInt64 ≤ X.word heap cell ∧ X.word heap cell ≤ maxInt64 := by
    simp only [minWord, maxWord, minInt64, maxInt64] at *
    omega
  simp only [operation, ensures_bind, ensures_effective hd hmem', ensures_push hm, ensures_pure]
  split
  · exact ⟨rfl, (hm.push hc rfl rfl ‹_›).withCP rfl⟩
  · exact ⟨⟨_, rfl⟩, ‹_›⟩

theorem grows_load (hi : X.InstrAt cp (.make .load n r d))
    (hd : ∀ m, Shows X m ⟨cp, lb, this, stack, heap, printed⟩ → Reads X m heap (m.reg r + d) cell) :
    Grows X (stack.length + 1) ⟨cp, lb, this, stack, heap, printed⟩
      ⟨cp + 1, lb, this, cell :: stack, heap, printed⟩ := by
  refine grows_of_operation hi.get hi.lt fun m hm => ?_
  have hr := hd m hm
  have hin : 0 ≤ m.reg r + d ∧ m.reg r + d < m.hb := ⟨hr.nonneg, hm.size ▸ hr.lt⟩
  simp only [operation, ensures_bind, ensures_effective rfl hr.mem, ensures_read hin,
    ensures_push hm, ensures_pure]
  split
  · exact ⟨rfl, (hm.push hr.good hr.peek rfl ‹_›).withCP rfl⟩
  · exact ⟨⟨_, rfl⟩, ‹_›⟩

theorem steps_loadi {addr : Cell} (hi : X.InstrAt cp (.make .loadi n .zr 0))
    (hd : ∀ m, Shows X m ⟨cp, lb, this, addr :: stack, heap, printed⟩ →
      Reads X m heap (X.word heap addr) cell) :
    Steps X ⟨cp, lb, this, addr :: stack, heap, printed⟩
      ⟨cp + 1, lb, this, cell :: stack, heap, printed⟩ := by
  refine steps_of_operation hi.get hi.lt fun m hm => ?_
  have hr := hd m hm
  have hm' := hm.drop [addr] rfl rfl
  have hroom : stack.length + 1 + heapWords X.package heap ≤ X.size := hm.room
  have hin : 0 ≤ X.word heap addr ∧ X.word heap addr < (m.withST stack.length).hb :=
    ⟨hr.nonneg, hm.size ▸ hr.lt⟩
  simp only [operation, ensures_bind, ensures_pop hm rfl, ensures_read hin, ensures_push hm',
    if_pos hroom, ensures_pure]
  exact ⟨rfl, (hm'.push hr.good hr.peek rfl hroom).withCP rfl⟩

theorem refused_loadi (hi : X.InstrAt cp (.make .loadi n .zr 0)) {addr : Cell}
    (ha : X.word heap addr = nullWord + headerSize) :
    Refused X ⟨cp, lb, this, addr :: stack, heap, printed⟩ := by
  refine ⟨.length, fun m hm => ?_⟩
  have hfet := hm.instrAt? hi.get
  have hst : m.st = stack.length + 1 := hm.st
  have hpop : m.st - 1 = stack.length := by omega
  have htop := (hm.peek_top rfl).trans ha
  have hin : ¬ 0 ≤ nullWord + headerSize := by decide
  refine ⟨⟨hm.state, by rw [hfet]; rfl, ?_⟩, .inl (step_eq_fail hm.state hfet ?_)⟩
  · rw [reference, htop]
    decide
  · rw [hpop]
    simp only [operation, ensures_bind, ensures_pop hm rfl, ha, Exec.read, checkAddress,
      ensures_get, ensures_require, hin, decide_false, Bool.false_and, Bool.false_eq_true,
      ↓reduceIte]
    exact ⟨rfl, trivial⟩

theorem steps_store {x : Int} {stack' : List Cell} {heap' : List Block}
    (hi : X.InstrAt cp (.make .store n r d))
    (hx : ∀ m, Shows X m ⟨cp, lb, this, cell :: stack, heap, printed⟩ →
      m.reg r + d = x ∧ 0 ≤ x ∧ x < X.size)
    (hd : ∀ m, Shows X m ⟨cp, lb, this, cell :: stack, heap, printed⟩ →
      Shows X ((m.withST stack.length).poke x (X.word heap cell))
        ⟨cp, lb, this, stack', heap', printed⟩) :
    Steps X ⟨cp, lb, this, cell :: stack, heap, printed⟩
      ⟨cp + 1, lb, this, stack', heap', printed⟩ := by
  refine steps_of_operation hi.get hi.lt fun m hm => ?_
  obtain ⟨hreg, hnon, hlt⟩ := hx m hm
  have hsize := X.size_le
  have hmem : minInt64 ≤ x ∧ x ≤ maxInt64 := by
    simp only [maxWord, minInt64, maxInt64] at *
    omega
  have hin : 0 ≤ x ∧ x < (m.withST stack.length).hb := ⟨hnon, hm.size ▸ hlt⟩
  simp only [operation, ensures_bind, ensures_effective hreg hmem, ensures_pop hm rfl,
    ensures_write hin, ensures_pure]
  exact ⟨rfl, (hd m hm).withCP rfl⟩

theorem steps_storeStack (hi : X.InstrAt cp (.make .store n r d))
    (hx : ∀ m, Shows X m ⟨cp, lb, this, cell :: (above ++ old :: below), heap, printed⟩ →
      m.reg r + d = below.length) :
    Steps X ⟨cp, lb, this, cell :: (above ++ old :: below), heap, printed⟩
      ⟨cp + 1, lb, this, above ++ cell :: below, heap, printed⟩ := by
  refine steps_store hi (fun m hm => ⟨hx m hm, ?_, ?_⟩) fun m hm => ?_
  · exact Int.natCast_nonneg _
  · exact (hm.reads_stack (cell :: above) below rfl rfl).lt
  · have hcell : cell.Good heap := (hm.holds_at [] rfl).1
    exact (hm.drop [cell] rfl rfl).setStack above rfl hcell rfl rfl

theorem steps_pop (gone : List Cell) (hi : X.InstrAt cp (.make .pop n .zr gone.length)) :
    Steps X ⟨cp, lb, this, gone ++ stack, heap, printed⟩
      ⟨cp + 1, lb, this, stack, heap, printed⟩ := by
  refine steps_of_operation hi.get hi.lt fun m hm => ?_
  have hst := hm.st
  simp only [length_append] at hst
  have hle : (gone.length : Int) ≤ m.st := by omega
  have hst' : m.st - gone.length = stack.length := by omega
  simp only [operation, make, ensures_bind, ensures_get, ensures_require, ensures_drop,
    ensures_pure, hle, hst', Int.natCast_nonneg, decide_true, Bool.and_self, ↓reduceIte]
  exact ⟨rfl, (hm.drop gone rfl rfl).withCP rfl⟩

theorem arrives_popWords {line : Int} {n : Nat} (hc : X.CodeAt cp (Code.popWords line n))
    (hn : gone.length = n) :
    Arrives X ⟨cp, lb, this, gone ++ stack, heap, printed⟩
      ⟨cp + (Code.popWords line n).size, lb, this, stack, heap, printed⟩ := by
  subst hn
  cases gone with
  | nil => exact .refl _
  | cons cell gone =>
    have hpop : Code.popWords line (cell :: gone).length =
        .one line .pop 0 .zr (cell :: gone).length := rfl
    exact (steps_pop (cell :: gone) hc.one).arrives

theorem Target.addr_mem (X : Target) (h : addr < X.assembly.program.size) :
    (minInt64 ≤ (addr : Int) ∧ (addr : Int) ≤ maxInt64) ∧
      minWord ≤ (addr : Int) ∧ (addr : Int) ≤ maxWord := by
  have := X.short
  simp only [minWord, maxWord, minInt64, maxInt64] at *
  omega

theorem steps_jump {target : Nat} (hi : X.InstrAt cp (.make .jump n .cb target))
    (htgt : target < X.assembly.program.size) :
    Steps X ⟨cp, lb, this, stack, heap, printed⟩ ⟨target, lb, this, stack, heap, printed⟩ := by
  refine steps_of_operation hi.get htgt fun m hm => ?_
  have hreg : m.reg .cb + (target : Int) = target := Int.zero_add _
  exact (ensures_effective hreg (X.addr_mem htgt).1).2 ⟨rfl, hm.withCP rfl⟩

theorem steps_jumpif {target : Nat} (hi : X.InstrAt cp (.make .jumpif n .cb target))
    (htgt : target < X.assembly.program.size) :
    Steps X ⟨cp, lb, this, cell :: stack, heap, printed⟩
      ⟨if X.word heap cell = n then target else cp + 1, lb, this, stack, heap, printed⟩ := by
  have hlt : (if X.word heap cell = n then target else cp + 1) < X.assembly.program.size := by
    split
    · exact htgt
    · exact hi.lt
  refine steps_of_operation hi.get hlt fun m hm => ?_
  have hreg : (m.withST stack.length).reg .cb + (target : Int) = target := Int.zero_add _
  have hm' := hm.drop [cell] rfl rfl
  have hn : (make .jumpif n .cb target).n = n := rfl
  simp only [operation, ensures_bind, ensures_pop hm rfl, hn, ensures_ite,
    ensures_effective hreg (X.addr_mem htgt).1, ensures_pure]
  by_cases hw : X.word heap cell = n
  · rw [if_pos hw, if_pos hw]
    exact ⟨rfl, hm'.withCP rfl⟩
  · rw [if_neg hw, if_neg hw]
    exact ⟨rfl, hm'.withCP rfl⟩

/-! ### Calls -/

theorem grows_call (hi : X.InstrAt cp (.make .call n .cb addr))
    (ha : addr < X.assembly.program.size) (hlb : lb ≤ stack.length) :
    Grows X (stack.length + 3) ⟨cp, lb, this, stack, heap, printed⟩ ⟨addr, stack.length, .null,
      .raw (cp + 1) :: .raw lb :: .val this :: stack, heap, printed⟩ := by
  refine grows_of_operation hi.get ha fun m hm => ?_
  have hreg : m.reg .cb + (addr : Int) = addr := Int.zero_add _
  have hprim : ¬ (m.pb ≤ (addr : Int) ∧ (addr : Int) < m.pt) := by
    have := X.fits
    simp only [pb, hm.capacity]
    omega
  have hlink : linkWords = (3 : Nat) := rfl
  simp only [operation, Exec.call, ensures_bind, ensures_effective hreg (X.addr_mem ha).1,
    ensures_get, if_neg hprim, ensures_pure, hlink, ensures_checkSpace hm]
  split
  · have hroom : stack.length + 3 + heapWords X.package heap ≤ X.size := ‹_›
    have hst : m.st = stack.length := hm.st
    have hsize := hm.size
    have hfr : 0 ≤ m.st ∧ m.st + linkWords ≤ m.hb := by
      omega
    have hnull : Live heap .null := trivial
    have hcp : cp < X.assembly.program.size := Nat.lt_of_succ_lt hi.lt
    have hlb' : lb ≤ X.size := by omega
    rw [ensures_pushFrame 0 hfr]
    exact ⟨trivial, (hm.framed hnull rfl hlb' hcp hroom).withCP rfl⟩
  · exact ⟨⟨_, rfl⟩, ‹_›⟩

theorem ensures_enter
    (hm : Shows X m ⟨cp, lb, this, .val o :: stack, heap, printed⟩) (hlb : lb ≤ stack.length)
    (hcp : cp < X.assembly.program.size)
    (hroom : stack.length + 3 + heapWords X.package heap ≤ X.size) :
    Ensures (pushFrame (m.st - 1) (X.encode heap o)) m (fun _ m' => Shows X (m'.withCP addr)
      ⟨addr, stack.length, o, .raw (cp + 1) :: .raw lb :: .val this :: stack, heap, printed⟩)
      stop := by
  have hst : m.st = (stack.length + 1 : Nat) := hm.st
  have hsize := hm.size
  have hst' : m.st - 1 = stack.length := by omega
  have hfr : 0 ≤ m.st - 1 ∧ m.st - 1 + linkWords ≤ m.hb := by
    simp only [linkWords]
    omega
  have ho : Live heap o := (hm.holds_at [] rfl).1
  have hlb' : lb ≤ X.size := by omega
  rw [ensures_pushFrame _ hfr]
  exact ((hm.drop [.val o] rfl hst').framed ho rfl hlb' hcp hroom).withCP rfl

theorem ensures_callInstance {ok : Int → Machine → Prop}
    (hm : Shows X m ⟨cp, lb, this, .val o :: stack, heap, printed⟩)
    (haddr : addr < X.assembly.program.size) :
    Ensures (callInstance addr) m ok stop ↔
      if stack.length + 3 + heapWords X.package heap ≤ X.size then
        Ensures (pushFrame (m.st - 1) (X.encode heap o)) m (fun _ m' => ok addr m') stop
      else stop (.failure (.noRoom (2 : Nat) m.st m.ht)) m := by
  have hct : m.ct = X.assembly.program.size := congrArg (fun p : Program => (p.size : Int)) hm.program
  have hin : (addr : Int) < m.ct := by omega
  have hlink : linkWords - 1 = (2 : Nat) := rfl
  simp only [callInstance, ensures_bind, ensures_get, ensures_require, hin, Int.natCast_nonneg,
    decide_true, Bool.and_self, ↓reduceIte, ensures_top1 hm rfl, hlink, ensures_checkSpace hm,
    ensures_pure]
  rfl

theorem ensures_callDynamic {a desc count : Nat} {b : Block}
    {above' below' : List Cell} {ok : Int → Machine → Prop}
    (hm : Shows X m ⟨cp, lb, this, .val (.ref a) :: stack, heap, printed⟩)
    (hb : heap[a]? = some b) (htag : tag X.package b = desc)
    (hcnt : stack = above ++ .raw count :: below) (hbel : below.length = desc + 2)
    (hs : stack = above' ++ .raw addr :: below') (hbel' : below'.length = desc + 3 + slot)
    (hlt : slot < count) :
    Ensures (callDynamic slot) m ok stop ↔
      if stack.length + 3 + heapWords X.package heap ≤ X.size then
        Ensures (pushFrame (m.st - 1) (X.encode heap (.ref a))) m (fun _ m' => ok addr m') stop
      else stop (.failure (.noRoom (2 : Nat) m.st m.ht)) m := by
  have hlive : a < heap.length := (List.getElem?_eq_some_iff.1 hb).1
  have hst : m.st = (stack.length + 1 : Nat) := hm.st
  have hlen : desc + 3 + slot < stack.length := by
    rw [hs, length_append, length_cons]
    omega
  -- The class word of the instance is the address of the descriptor.
  have hcls : Reads X m heap (X.encode heap (.ref a) + headerClass) (.raw desc) := by
    rw [← htag]
    exact hm.reads_tag hb
  have hr : Reads X m heap (desc + descriptorCount) (.raw count) :=
    hm.reads_stack (.val (.ref a) :: above) below (congrArg (.val (.ref a) :: ·) hcnt)
      (by simp only [descriptorCount]; omega)
  have hr' : Reads X m heap (desc + descriptorMethods + slot) (.raw addr) :=
    hm.reads_stack (.val (.ref a) :: above') below' (congrArg (.val (.ref a) :: ·) hs)
      (by simp only [descriptorMethods]; omega)
  have hdesc : (desc : Int) + descriptorMethods ≤ m.st := by
    simp only [descriptorMethods]
    omega
  have hidx : (desc : Int) + descriptorMethods + slot < m.st := by
    simp only [descriptorMethods]
    omega
  have hlt' : (slot : Int) < count := by omega
  have hword : ∀ n : Nat, X.word heap (.raw n) = n := fun n => rfl
  have href : X.word heap (.val (.ref a)) = X.encode heap (.ref a) := rfl
  have hlink : linkWords - 1 = (2 : Nat) := rfl
  simp only [callDynamic, ensures_bind, ensures_top1 hm rfl, href, ensures_heapRef hm hlive,
    ensures_wordOf hm.size hcls, hword, ensures_get, ensures_require, Int.natCast_nonneg, hdesc,
    hidx, hlt', decide_true, Bool.and_self, ↓reduceIte, ensures_wordOf hm.size hr, hlink,
    ensures_checkSpace hm, ensures_wordOf hm.size hr', ensures_pure]
  rfl

theorem grows_calli (hi : X.InstrAt cp (.make .calli n .cb addr))
    (ha : addr < X.assembly.program.size) (hlb : lb ≤ stack.length) :
    Grows X (stack.length + 3) ⟨cp, lb, this, .val o :: stack, heap, printed⟩ ⟨addr, stack.length, o,
      .raw (cp + 1) :: .raw lb :: .val this :: stack, heap, printed⟩ := by
  refine grows_of_operation hi.get ha fun m hm => ?_
  have hreg : m.reg .cb + (addr : Int) = addr := Int.zero_add _
  simp only [operation, ensures_bind, ensures_effective hreg (X.addr_mem ha).1,
    ensures_callInstance hm ha]
  split
  · exact (ensures_enter hm hlb (Nat.lt_of_succ_lt hi.lt) ‹_›).mono (fun _ _ h => ⟨trivial, h⟩)
      fun _ _ => id
  · exact ⟨⟨_, rfl⟩, ‹_›⟩

theorem grows_calld {a desc count : Nat} {b : Block} (hi : X.InstrAt cp (.make .calld n .zr slot))
    (hb : heap[a]? = some b) (htag : tag X.package b = desc)
    (hcnt : stack = above ++ .raw count :: below) (hbel : below.length = desc + 2)
    (hslot : stack = above' ++ .raw addr :: below') (hbel' : below'.length = desc + 3 + slot)
    (hlt : slot < count) (haddr : addr < X.assembly.program.size) (hlb : lb ≤ stack.length) :
    Grows X (stack.length + 3) ⟨cp, lb, this, .val (.ref a) :: stack, heap, printed⟩
      ⟨addr, stack.length, .ref a, .raw (cp + 1) :: .raw lb :: .val this :: stack, heap,
        printed⟩ := by
  refine grows_of_operation hi.get haddr fun m hm => ?_
  have hop : operation .calld (.make .calld n .zr slot) (cp + 1) = callDynamic slot := rfl
  rw [hop, ensures_callDynamic hm hb htag hcnt hbel hslot hbel' hlt]
  split
  · exact (ensures_enter hm hlb (Nat.lt_of_succ_lt hi.lt) ‹_›).mono (fun _ _ h => ⟨rfl, h⟩)
      fun _ _ => id
  · exact ⟨⟨_, rfl⟩, ‹_›⟩

theorem Shows.meets_call {a : Access}
    (hm : Shows X m ⟨cp, lb, this, .val .null :: stack, heap, printed⟩) (hi : X.InstrAt cp i)
    (hop : i.access? = some a) (ha : a = .call ∨ a = .dispatch) : m.Meets a := by
  have htop : m.peek (m.st - 1) = nullWord := hm.peek_top rfl
  refine ⟨hm.state, by rw [hm.instrAt? hi.get]; exact hop, ?_⟩
  rcases ha with rfl | rfl <;> exact htop

theorem refused_calld (hi : X.InstrAt cp (.make .calld n .zr slot)) :
    Refused X ⟨cp, lb, this, .val .null :: stack, heap, printed⟩ := by
  refine ⟨.dispatch, fun m hm => ⟨hm.meets_call hi rfl (.inr rfl), .inl ?_⟩⟩
  refine step_eq_fail hm.state (hm.instrAt? hi.get) ?_
  simp [operation, callDynamic, ensures_bind, ensures_top1 hm rfl, ensures_heapRef_null]

theorem steps_return {result junk args : List Cell} {ra lb' : Nat} {this' : Value}
    (hi : X.InstrAt cp (.make .ret n .zr d)) (hn : n = result.length)
    (hres : result.length ≤ 1) (hd : d = args.length) (hra : ra < X.assembly.program.size)
    (hlb : lb = (args ++ stack).length) :
    Steps X ⟨cp, lb, this,
        result ++ junk ++ .raw ra :: .raw lb' :: .val this' :: (args ++ stack), heap, printed⟩
      ⟨ra, lb', this', result ++ stack, heap, printed⟩ := by
  refine steps_of_operation hi.get hra fun m hm => ?_
  have hle := hm.st_le
  have hst := hm.st
  have hlb : m.lb = ((args ++ stack).length : Nat) := hlb ▸ hm.lb
  simp only [length_append, length_cons] at hst hlb
  have hsize := X.size_le
  have hbd := hm.size
  have haddr : m.lb - d = stack.length := by omega
  have hw : wrap64 (m.lb - d) = stack.length := by
    rw [haddr]
    refine wrap64_of_mem ?_
    simp only [maxWord, minInt64, maxInt64] at *
    omega
  have hret : m.Returns n d := by
    simp only [Machine.Returns, hw, linkWords]
    omega
  -- The link words of the frame.
  have ht : Reads X m heap m.lb (.val this') :=
    hm.reads_stack (result ++ junk ++ [.raw ra, .raw lb']) (args ++ stack)
      (by simp) (by simpa using hlb)
  have hlink : Reads X m heap (m.lb + 1) (.raw lb') :=
    hm.reads_stack (result ++ junk ++ [.raw ra]) (.val this' :: (args ++ stack))
      (by simp) (by simp [hlb])
  have hnext : Reads X m heap (m.lb + 2) (.raw ra) :=
    hm.reads_stack (result ++ junk) (.raw lb' :: .val this' :: (args ++ stack))
      (by simp) (by simp [hlb]; omega)
  have hop : operation .ret (.make .ret n .zr d) (cp + 1) = ret n d := rfl
  rw [hop, ensures_ret ⟨hle.1, hle.2.1, hle.2.2⟩ hret]
  refine ⟨hnext.peek, ?_⟩
  unfold returned
  rw [hw, ht.peek, hlink.peek, hn]
  obtain _ | ⟨r, _ | ⟨_, _⟩⟩ := result
  · have hrest : [] ++ junk ++ Cell.raw ra :: .raw lb' :: .val this' :: (args ++ stack) =
        (junk ++ .raw ra :: .raw lb' :: .val this' :: args) ++ stack := by simp
    have h₁ := hm.drop _ hrest (Int.add_zero _)
    exact (h₁.withFrame ht.good rfl rfl).withCP rfl
  · obtain ⟨above, old, hlast⟩ : ∃ above old,
        Cell.raw ra :: .raw lb' :: .val this' :: args = above ++ [old] :=
      ⟨_, _, (dropLast_append_getLast (cons_ne_nil _ _)).symm⟩
    have hr : Reads X m heap (m.st - 1) r :=
      hm.reads_stack [] (junk ++ .raw ra :: .raw lb' :: .val this' :: (args ++ stack)) rfl
        (by simp [hst]; omega)
    have hrest : [r] ++ junk ++ Cell.raw ra :: .raw lb' :: .val this' :: (args ++ stack) =
        (r :: junk ++ above) ++ old :: stack := by
      simp only [← cons_append, hlast]
      simp
    have h₁ := hm.setStack _ hrest hr.good rfl hr.peek
    have h₂ := h₁.drop (r :: junk ++ above) rfl rfl
    exact (h₂.withFrame ht.good rfl rfl).withCP rfl
  · simp at hres

end

end Simulation

end MiniJam
