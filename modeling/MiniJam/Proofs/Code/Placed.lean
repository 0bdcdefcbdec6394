import MiniJam.Proofs.Code.Sealed

/-!
# Code in its place

`Assembly.CodeAt a pc code` says that a piece of code stands at the address `pc` of a program.  The
pieces of a piece stand one behind the other, and so the code of every method stands at the address
of its body (`Assembly.codeAt_body`).
-/

namespace MiniJam

open List Code

namespace Assembly

/-- The code stands at an address of the program, and is not the last of it. -/
structure CodeAt (a : Assembly) (pc : Nat) (code : Code) : Prop where
  items : ∀ (k : Nat) (item : Item), code.items[k]? = some item → a.code.items[pc + k]? = some item
  lt : pc + code.size < a.program.size

/-- The instruction stands at an address of the program, and is not the last one. -/
structure InstrAt (a : Assembly) (pc : Nat) (i : Instr) : Prop where
  get : a.program[pc]? = some i
  lt : pc + 1 < a.program.size

theorem getElem?_program (a : Assembly) (k : Nat) :
    a.program[k]? = a.code.items[k]?.map a.link := by
  simp [program]

section

variable {a : Assembly} {pc : Nat} {c c' : Code}

theorem CodeAt.getElem? (h : a.CodeAt pc c) (hk : c.items[k]? = some item) :
    a.program[pc + k]? = some (a.link item) := by
  rw [getElem?_program, h.items k item hk]
  rfl

theorem CodeAt.left (h : a.CodeAt pc (c ++ c')) : a.CodeAt pc c where
  items k item hk := h.items k item (by
    rw [items_append, getElem?_append_left (List.getElem?_eq_some_iff.1 hk).1, hk])
  lt := by
    have := h.lt
    simp only [size_append] at this
    omega

theorem CodeAt.right (h : a.CodeAt pc (c ++ c')) : a.CodeAt (pc + c.size) c' where
  items k item hk := by
    have hk' := h.items (c.size + k) item (by
      rw [items_append, size, getElem?_append_right (by omega)]
      simpa using hk)
    rwa [← Nat.add_assoc] at hk'
  lt := by
    have := h.lt
    simp only [size_append] at this
    omega

theorem codeAt_append : a.CodeAt pc (c ++ c') ↔ a.CodeAt pc c ∧ a.CodeAt (pc + c.size) c' := by
  refine ⟨fun h => ⟨h.left, h.right⟩, fun ⟨hc, hc'⟩ => ⟨fun k item hk => ?_, ?_⟩⟩
  · rw [items_append, getElem?_append] at hk
    split at hk
    · exact hc.items k item hk
    · have hget := hc'.items (k - c.items.length) item hk
      rwa [size, show pc + c.items.length + (k - c.items.length) = pc + k by omega] at hget
  · have := hc'.lt
    simp only [size_append]
    omega

variable {line n d : Int} {op : Opcode} {r : Reg}

theorem CodeAt.one (h : a.CodeAt pc (.one line op n r d)) : a.InstrAt pc (.make op n r d) :=
  ⟨h.getElem? (k := 0) rfl, h.lt⟩

theorem CodeAt.prim (h : a.CodeAt pc (.prim line q)) : a.InstrAt pc (.ofPrim q) :=
  ⟨h.getElem? (k := 0) rfl, h.lt⟩

theorem CodeAt.callOf {id : MemberId} (h : a.CodeAt pc (.callOf line op id)) {b : Code.Body}
    (hb : a.body? id = some b) : a.InstrAt pc (.make op 0 .cb b.addr) := by
  have hlink := h.getElem? (k := 0) rfl
  exact ⟨by simpa [link, Instr.make, hb] using hlink, h.lt⟩

/-! ### Methods and classes -/

variable {p : Package} {dynamic : Bool}

theorem codeAt_bodies (h : a.CodeAt pc (.join ((bodies p dynamic pc ms).map (·.code)))) :
    ∀ b ∈ bodies p dynamic pc ms, a.CodeAt b.addr b.code := by
  induction ms generalizing pc with
  | nil => exact nofun
  | cons m ms ih =>
    intro b hb
    obtain rfl | hb := mem_cons.1 hb
    · exact CodeAt.left h
    · exact ih (CodeAt.right h) b hb

theorem codeAt_parts {cls : Nat}
    (h : a.CodeAt pc (.join ((Code.parts p dynamic cls pc cs).map (·.code)))) :
    ∀ part ∈ Code.parts p dynamic cls pc cs, a.CodeAt part.start part.code := by
  induction cs generalizing cls pc with
  | nil => exact nofun
  | cons c cs ih =>
    intro part hp
    obtain rfl | hp := mem_cons.1 hp
    · exact CodeAt.left h
    · exact ih (CodeAt.right h) part hp

end

/-! ### Packages -/

section

variable (p : Package) (dynamic : Bool) (entry : MemberId)

def startLine : Int := ((p.method? entry).map (·.span.line)).getD 0

/-- The code of a package without its last instruction. -/
def startCode : Code :=
  .one 0 .push 0 .zr (Layout.staticSize p) ++
    .join ((ofPackage p dynamic entry).parts.map (·.code)) ++
    (.literal (startLine p entry) Machine.nullWord ++ .callOf (startLine p entry) .call entry)

theorem items_ofPackage : (ofPackage p dynamic entry).code.items =
    (startCode p dynamic entry).items ++ (one (startLine p entry) .halt 0 .zr 0).items := by
  simp [ofPackage, startCode, startLine, items_append]

theorem size_ofPackage : (ofPackage p dynamic entry).program.size =
    (startCode p dynamic entry).size + 1 := by
  simp [program, items_ofPackage, size, one]

theorem codeAt_start : (ofPackage p dynamic entry).CodeAt 0 (startCode p dynamic entry) where
  items k item hk := by
    rw [items_ofPackage, Nat.zero_add, getElem?_append_left (List.getElem?_eq_some_iff.1 hk).1, hk]
  lt := by
    rw [size_ofPackage]
    omega

theorem halt_start : (ofPackage p dynamic entry).program[(startCode p dynamic entry).size]? =
    some (.make .halt 0 .zr 0) := by
  rw [getElem?_program, items_ofPackage, size, getElem?_append_right (Nat.le_refl _),
    Nat.sub_self]
  rfl

variable {p dynamic entry}

theorem codeAt_part (h : part ∈ (ofPackage p dynamic entry).parts) :
    (ofPackage p dynamic entry).CodeAt part.start part.code :=
  codeAt_parts (codeAt_start p dynamic entry).left.right part h

theorem codeAt_of_mem_bodies (hp : part ∈ (ofPackage p dynamic entry).parts) {b : Code.Body}
    (hb : b ∈ part.bodies) : (ofPackage p dynamic entry).CodeAt b.addr b.code := by
  obtain ⟨x, -, -, -, hbod⟩ :=
    exists_of_forall₂_mem (forall₂_parts p dynamic 0 _ p.classes).flip hp
  have hc := (codeAt_part hp).left.right
  rw [Code.Part.methodCode, hbod] at hc
  exact codeAt_bodies hc b (hbod ▸ hb)

theorem codeAt_body {id : MemberId} {b : Code.Body}
    (h : (ofPackage p dynamic entry).body? id = some b) :
    (ofPackage p dynamic entry).CodeAt b.addr b.code := by
  obtain ⟨part, hpart, hb⟩ := Option.bind_eq_some_iff.1 h
  exact codeAt_of_mem_bodies (mem_of_getElem? hpart) (mem_of_getElem? hb)

end

end Assembly

end MiniJam
