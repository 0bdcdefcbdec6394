import MiniJam.Code.Entities
import MiniJam.Proofs.Code.Descriptors
import MiniJam.Proofs.Code.Heights

/-!
# Jumps and calls

Where the jumps and the calls of a program lead to.  The methods of a class and the classes of a
package stand one behind the other (`Code.Laid`), so that every address belongs to one of them and
those of different methods are different.  A jump in a method leads to an instruction of that method,
the jump in front of a class leads to the code that pushes its descriptor, and a call that the source
makes of a method leads to the first instruction of its body: `Assembly.Resolved` collects this, and
`Compiler.targets_resolved` says it of every compiled source.
-/

namespace MiniJam

open List Option Layout

namespace Code

/-! ### Pieces one behind the other -/

/-- Pieces of code, with their addresses, stand one behind the other from an address on. -/
inductive Laid : Nat → List (Nat × Code) → Prop
  | nil (pc : Nat) : Laid pc []
  | cons {pc : Nat} {code : Code} {rest : List (Nat × Code)} (h : Laid (pc + code.size) rest) :
    Laid pc ((pc, code) :: rest)

section

variable {pc : Nat} {pieces : List (Nat × Code)}

theorem Laid.within (h : Laid pc pieces) (hx : x ∈ pieces) :
    pc ≤ x.1 ∧ x.1 + x.2.size ≤ pc + (join (pieces.map (·.2))).size := by
  induction h with
  | nil => cases hx
  | cons _ ih =>
    rename_i pc code rest _
    have hsize : (join (((pc, code) :: rest).map (·.2))).size =
        code.size + (join (rest.map (·.2))).size := size_append _ _
    rw [hsize]
    obtain rfl | hx := mem_cons.1 hx
    · exact ⟨Nat.le_refl _, by rw [← Nat.add_assoc]; exact Nat.le_add_right _ _⟩
    · have hwin := ih hx
      omega

theorem Laid.pairwise (h : Laid pc pieces) : pieces.Pairwise fun x y => x.1 + x.2.size ≤ y.1 := by
  induction h with
  | nil => exact .nil
  | cons hrest ih => exact .cons (fun _ hy => (hrest.within hy).1) ih

theorem Laid.end_le {α : Type} {l : List α} {f : α → Nat × Code} (h : Laid pc (l.map f)) {i j : Nat}
    {x y : α} (hx : l[i]? = some x) (hy : l[j]? = some y) (hij : i < j) :
    (f x).1 + (f x).2.size ≤ (f y).1 := by
  obtain ⟨hi, rfl⟩ := List.getElem?_eq_some_iff.1 hx
  obtain ⟨hj, rfl⟩ := List.getElem?_eq_some_iff.1 hy
  exact pairwise_iff_getElem.1 (pairwise_map.1 h.pairwise) i j hi hj hij

theorem Laid.exists_piece (h : Laid pc pieces)
    (hk : (join (pieces.map (·.2))).items[k]? = some item) :
    ∃ (i : Nat) (x : Nat × Code) (n : Nat), pieces[i]? = some x ∧ pc + k = x.1 + n ∧
      x.2.items[n]? = some item := by
  induction h generalizing k with
  | nil => cases hk
  | cons _ ih =>
    rename_i pc code rest _
    have hk : (code.items ++ (join (rest.map (·.2))).items)[k]? = some item := hk
    by_cases hlt : k < code.items.length
    · rw [getElem?_append_left hlt] at hk
      exact ⟨0, (pc, code), k, rfl, rfl, hk⟩
    · rw [getElem?_append_right (Nat.le_of_not_lt hlt)] at hk
      obtain ⟨i, x, n, hi, hn, hitem⟩ := ih hk
      refine ⟨i + 1, x, n, hi, ?_, hitem⟩
      rw [size] at hn
      omega

end

theorem items_join_literals (line : Int) (ds : List Int) :
    (join (ds.map (literal line))).items = ds.map fun d => ⟨.make .loadl 0 .zr d, line, none⟩ := by
  induction ds with
  | nil => rfl
  | cons d ds ih => exact congrArg (_ :: ·) ih

variable (p : Package) (dynamic : Bool)

theorem laid_bodies (pc : Nat) (ms : List MethodDecl) :
    Laid pc ((bodies p dynamic pc ms).map fun b => (b.addr, b.code)) := by
  induction ms generalizing pc with
  | nil => exact .nil pc
  | cons m ms ih => exact .cons (ih _)

theorem laid_parts (cls pc : Nat) (cs : List ClassDecl) :
    Laid pc ((parts p dynamic cls pc cs).map fun part => (part.start, part.code)) := by
  induction cs generalizing cls pc with
  | nil => exact .nil pc
  | cons c cs ih => exact .cons (ih _ _)

theorem Part.descriptorStart_le (part : Part) : part.descriptorStart ≤ part.start + part.code.size := by
  simp only [Part.descriptorStart, Part.code, size_append, size_one]
  omega

end Code

namespace Assembly

open Code

variable {p : Package} {dynamic : Bool} {entry : MemberId}

/-! ### Methods and classes in their places -/

variable {part : Part}

theorem laid_part {cls : Nat} (h : (ofPackage p dynamic entry).parts[cls]? = some part) :
    Laid (part.start + 1) (part.bodies.map fun b => (b.addr, b.code)) := by
  obtain ⟨x, -, -, -, hbod⟩ := getElem?_of_forall₂ forall₂_parts h
  rw [hbod]
  exact laid_bodies p dynamic _ _

theorem laid_ofPackage :
    Laid 1 ((ofPackage p dynamic entry).parts.map fun part => (part.start, part.code)) :=
  laid_parts p dynamic 0 1 p.classes

theorem join_methods (part : Part) :
    join ((part.bodies.map fun b => (b.addr, b.code)).map (·.2)) = part.methodCode := by
  rw [List.map_map]
  rfl

/-- A method stands behind the jump over the methods of its class and in front of the code that pushes
the descriptor. -/
theorem body_within {cls index : Nat} {b : Body}
    (hpart : (ofPackage p dynamic entry).parts[cls]? = some part)
    (hb : part.bodies[index]? = some b) :
    part.start < b.addr ∧ b.addr + b.code.size ≤ part.descriptorStart := by
  have hmem : (b.addr, b.code) ∈ part.bodies.map fun b => (b.addr, b.code) :=
    List.mem_map_of_mem (mem_of_getElem? hb)
  obtain ⟨hlo, hhi⟩ := (laid_part hpart).within hmem
  rw [join_methods] at hhi
  exact ⟨hlo, hhi⟩

theorem bodies_disjoint {id id' : MemberId} {b b' : Body}
    (hb : (ofPackage p dynamic entry).body? id = some b)
    (hb' : (ofPackage p dynamic entry).body? id' = some b') (hne : id ≠ id') :
    b.addr + b.code.size ≤ b'.addr ∨ b'.addr + b'.code.size ≤ b.addr := by
  obtain ⟨part, hp, hb⟩ := bind_eq_some_iff.1 hb
  obtain ⟨part', hp', hb'⟩ := bind_eq_some_iff.1 hb'
  obtain ⟨hsta, hend⟩ := body_within hp hb
  obtain ⟨hsta', hend'⟩ := body_within hp' hb'
  have hcode := part.descriptorStart_le
  have hcode' := part'.descriptorStart_le
  -- The one in front is that of the class in front, or that in front in their class.
  rcases Nat.lt_trichotomy id.cls id'.cls with hcls | hcls | hcls
  · have hlt : part.start + part.code.size ≤ part'.start := laid_ofPackage.end_le hp hp' hcls
    omega
  · rw [← hcls, hp] at hp'
    cases hp'
    rcases Nat.lt_trichotomy id.index id'.index with hidx | hidx | hidx
    · exact .inl ((laid_part hp).end_le hb hb' hidx)
    · cases id
      cases id'
      cases hcls
      cases hidx
      exact absurd rfl hne
    · exact .inr ((laid_part hp).end_le hb' hb hidx)
  · have hlt : part'.start + part'.code.size ≤ part.start := laid_ofPackage.end_le hp' hp hcls
    omega

/-- What an instruction is for, by its address. -/
inductive Place (p : Package) (dynamic : Bool) (entry : MemberId) (x : Nat) (item : Item) : Prop
  /-- It is one of a method. -/
  | method {id : MemberId} {b : Body} {n : Nat} (hb : (ofPackage p dynamic entry).body? id = some b)
    (hx : x = b.addr + n) (hitem : b.code.items[n]? = some item)
  /-- It jumps over the methods of a class. -/
  | opens {cls : Nat} {part : Part} (hpart : (ofPackage p dynamic entry).parts[cls]? = some part)
    (hx : x = part.start)
    (hitem : item = ⟨.make .jump 0 .cb part.descriptorStart, part.decl.span.line, none⟩)
  /-- It calls the method where the program starts. -/
  | start (hx : x + 2 = (ofPackage p dynamic entry).program.size) {line : Int}
    (hitem : item = ⟨.make .call 0 .cb 0, line, some entry⟩)
  /-- It is there for the data of the program. -/
  | data {op : Opcode} (hop : op ∈ [.push, .loadl, .halt]) {d line : Int}
    (hitem : item = ⟨.make op 0 .zr d, line, none⟩)

theorem place_part {cls : Nat} (hp : (ofPackage p dynamic entry).parts[cls]? = some part)
    {n : Nat} (hn : part.code.items[n]? = some item) :
    Place p dynamic entry (part.start + n) item := by
  have hn : ((one part.decl.span.line .jump 0 .cb part.descriptorStart).items ++
      (part.methodCode.items ++ part.descriptorCode.items))[n]? = some item := by
    rw [← append_assoc]
    exact hn
  cases n with
  | zero => exact .opens hp rfl (Option.some.inj hn).symm
  | succ n =>
    have hn : (part.methodCode.items ++ part.descriptorCode.items)[n]? = some item := hn
    by_cases hlt : n < part.methodCode.items.length
    · rw [getElem?_append_left hlt, ← join_methods] at hn
      obtain ⟨i, x, k, hx, hk, hitem⟩ := (laid_part hp).exists_piece hn
      rw [getElem?_map] at hx
      obtain ⟨b, hb, rfl⟩ := map_eq_some_iff.1 hx
      have hbody : (ofPackage p dynamic entry).body? ⟨cls, i⟩ = some b := by
        rw [body?, hp]
        exact hb
      exact .method hbody (by rw [← hk]; omega) hitem
    · rw [getElem?_append_right (Nat.le_of_not_lt hlt), part.descriptorCode_eq,
        items_join_literals, getElem?_map] at hn
      obtain ⟨d, -, rfl⟩ := map_eq_some_iff.1 hn
      exact .data (by decide) rfl

/-- Every instruction of a package is one of a method, a jump over methods, the first call or one for
the data of the program. -/
theorem place_ofPackage (hx : (ofPackage p dynamic entry).code.items[x]? = some item) :
    Place p dynamic entry x item := by
  let classes := join ((ofPackage p dynamic entry).parts.map (·.code))
  let line := startLine p entry
  have hits : (ofPackage p dynamic entry).code.items =
      ⟨.make .push 0 .zr (staticSize p), 0, none⟩ :: (classes.items ++
        [⟨.make .loadl 0 .zr Machine.nullWord, line, none⟩, ⟨.make .call 0 .cb 0, line, some entry⟩,
          ⟨.make .halt 0 .zr 0, line, none⟩]) := rfl
  have hsize : (ofPackage p dynamic entry).program.size = classes.items.length + 4 := by
    rw [size_program, Code.size, hits]
    simp
  rw [hits] at hx
  cases x with
  | zero => exact .data (by decide) (Option.some.inj hx).symm
  | succ x =>
    rw [getElem?_cons_succ] at hx
    by_cases hlt : x < classes.items.length
    · rw [getElem?_append_left hlt] at hx
      have hcls : classes = join (((ofPackage p dynamic entry).parts.map fun part =>
          (part.start, part.code)).map (·.2)) := by
        rw [List.map_map]
        rfl
      rw [hcls] at hx
      obtain ⟨i, y, n, hy, hn, hitem⟩ := laid_ofPackage.exists_piece hx
      rw [getElem?_map] at hy
      obtain ⟨part, hpart, rfl⟩ := map_eq_some_iff.1 hy
      rw [show x + 1 = part.start + n by rw [← hn, Nat.add_comm]]
      exact place_part hpart hitem
    · obtain ⟨k, rfl⟩ := Nat.exists_eq_add_of_le (Nat.le_of_not_lt hlt)
      rw [getElem?_append_right (Nat.le_add_right _ _), Nat.add_sub_cancel_left] at hx
      rcases k with _ | _ | _ | k
      · exact .data (by decide) (Option.some.inj hx).symm
      · exact .start (by rw [hsize]) (Option.some.inj hx).symm
      · exact .data (by decide) (Option.some.inj hx).symm
      · cases hx

end Assembly

/-! ### Where jumps and calls lead to -/

def Instr.IsJump (i : Instr) : Prop := i.op = Opcode.jump.code ∨ i.op = Opcode.jumpif.code

/-- The instruction calls what stands at an address of the program. -/
def Instr.IsCall (i : Instr) : Prop :=
  (i.op = Opcode.call.code ∨ i.op = Opcode.calli.code) ∧ i.r = Reg.cb.code

namespace Code

variable {p : Package} {P : MemberId → Int → Prop} {lo hi : Nat} {item : Item}

theorem Form.jump_target (h : Form jumps p P lo hi item) (hj : item.instr.IsJump) :
    item.callee = none ∧ item.instr.r = Reg.cb.code ∧
      ∃ y : Nat, item.instr.d = y ∧ lo ≤ y ∧ y ≤ hi := by
  have hcode : ∀ {op : Opcode} {ops : List Opcode}, op ∈ ops →
      (∀ op ∈ ops, ¬ (op.code = Opcode.jump.code ∨ op.code = Opcode.jumpif.code)) →
      ¬ (op.code = Opcode.jump.code ∨ op.code = Opcode.jumpif.code) := fun h hops => hops _ h
  cases h with
  | jump _ hy => exact ⟨rfl, rfl, _, rfl, hy⟩
  | stack hop | access hop | call hop => exact absurd hj (hcode hop (by decide))
  | prim => exact absurd hj (show ¬ (Opcode.call.code = _ ∨ Opcode.call.code = _) by decide)

theorem Form.exists_callee (h : Form jumps p P lo hi item) (hc : item.instr.IsCall) :
    ∃ id, item.callee = some id := by
  have hcode : ∀ {op : Opcode} {ops : List Opcode}, op ∈ ops →
      (∀ op ∈ ops, ¬ (op.code = Opcode.call.code ∨ op.code = Opcode.calli.code)) →
      ¬ (op.code = Opcode.call.code ∨ op.code = Opcode.calli.code) := fun h hops => hops _ h
  cases h with
  | call => exact ⟨_, rfl⟩
  | stack hop | access hop | jump hop => exact absurd hc.1 (hcode hop (by decide))
  | prim => exact absurd hc.2 (show ¬ Reg.pb.code = Reg.cb.code by decide)

end Code

namespace Assembly

open Code

/-- The jumps and calls of a program, which starts at the method `entry`, lead to where they are meant
to. -/
structure Resolved (a : Assembly) (dynamic : Bool) (entry : MemberId) : Prop where
  /-- All of them lead to an address of the program. -/
  target : ∀ (x : Nat) (i : Instr), a.program[x]? = some i →
    i.IsJump ∧ i.r = Reg.cb.code ∨ i.IsCall → 0 ≤ i.d ∧ i.d < a.program.size
  /-- The code of a method stands at the address of its entity, from its first instruction to the one
  that returns. -/
  method : ∀ id m, a.package.method? id = some m → ∃ b last words,
    a.body? id = some b ∧ b.decl = m ∧
    ⟨.methodDecl, m.name, m.type, some (methodEntity m id.cls a.package b.addr)⟩ ∈
      a.package.placements (some a) ∧
    b.code = (ofMethod ⟨a.package, dynamic, m.params⟩ .start b.addr m).1 ∧
    a.CodeAt b.addr b.code ∧ b.code.size = last + 1 ∧
    a.program[b.addr + last]? = some (.make .ret words .zr (paramWords m))
  /-- Different methods have no instruction in common. -/
  disjoint : ∀ id id' b b', a.body? id = some b → a.body? id' = some b' → id ≠ id' →
    ∀ x, b.Spans x → ¬ b'.Spans x
  /-- A jump in a method leads to an instruction of that method. -/
  inside : ∀ (id : MemberId) (b : Body) (x : Nat) (i : Instr), a.body? id = some b → b.Spans x →
    a.program[x]? = some i → i.IsJump → i.r = Reg.cb.code ∧ ∃ y : Nat, i.d = y ∧ b.Spans y
  /-- A class starts with a jump to the first of the instructions that push its descriptor. -/
  opens : ∀ cls c, a.package.class? cls = some c → ∃ part, a.parts[cls]? = some part ∧
    part.decl = c ∧ a.program[part.start]? = some (.make .jump 0 .cb part.descriptorStart) ∧
    ∀ (k : Nat) (d : Int), part.descriptor[k]? = some d →
      a.program[part.descriptorStart + k]? = some (.make .loadl 0 .zr d)
  /-- There are no other jumps. -/
  jump : ∀ (x : Nat) (i : Instr), a.program[x]? = some i → i.IsJump →
    (∃ id b, a.body? id = some b ∧ b.Spans x) ∨ ∃ part ∈ a.parts, x = part.start
  /-- A call leads to the first instruction of the method that the source calls there, or of the one
  where the program starts. -/
  call : ∀ (x : Nat) (i : Instr), a.program[x]? = some i → i.IsCall →
    ∃ id b, a.body? id = some b ∧ i.d = b.addr ∧ (id = entry ∧ x + 2 = a.program.size ∨
        ∃ id' b', a.body? id' = some b' ∧ b'.Spans x ∧ ∃ c ∈ b'.decl.calls, c.bound = some id ∧
            a.code.items[x]?.map (·.line) = some c.span.line)

variable {p : Package} {dynamic : Bool} {entry : MemberId}

variable {id : MemberId} {b : Body} {a : Assembly} {item : Item} {x : Nat} {i : Instr}

theorem method_of_body (h : (ofPackage p dynamic entry).body? id = some b) :
    p.method? id = some b.decl ∧
      b.code = (ofMethod ⟨p, dynamic, b.decl.params⟩ .start b.addr b.decl).1 := by
  obtain ⟨part, hpart, hb⟩ := bind_eq_some_iff.1 h
  obtain ⟨hcls, -, hdec⟩ := part_decl hpart
  have hm : part.decl.methods[id.index]? = some b.decl := by
    rw [← hdec, getElem?_map, hb]
    rfl
  have hmeth : p.method? id = some b.decl := by
    rw [Package.method?, hcls]
    exact hm
  obtain ⟨b', hb', hdecl, hcode⟩ := exists_body dynamic entry hmeth
  cases h.symm.trans hb'
  exact ⟨hmeth, congrArg Prod.fst hcode⟩

theorem mem_placements (hm : p.method? id = some m) (hb : a.body? id = some b) :
    ⟨.methodDecl, m.name, m.type, some (methodEntity m id.cls p b.addr)⟩ ∈
      p.placements (some a) := by
  obtain ⟨c, hc, hm⟩ := bind_eq_some_iff.1 hm
  obtain ⟨part, hpart, hb⟩ := bind_eq_some_iff.1 hb
  refine mem_flatMap.2 ⟨(c, id.cls), mk_mem_zipIdx_iff_getElem?.2 hc, ?_⟩
  refine mem_append_right _ (mem_flatMap.2 ⟨(m, id.index), mk_mem_zipIdx_iff_getElem?.2 hm, ?_⟩)
  dsimp only
  rw [bind_some, hpart, bind_some, hb]
  exact mem_append_left _ (mem_cons_self ..)

theorem jump_of_body (hp : p.Typed) (hb : (ofPackage p dynamic entry).body? id = some b)
    (hitem : item ∈ b.code.items) (hjump : item.instr.IsJump) :
    item.callee = none ∧ item.instr.r = Reg.cb.code ∧ ∃ y : Nat, item.instr.d = y ∧ b.Spans y := by
  obtain ⟨hm, hcode⟩ := method_of_body hb
  obtain ⟨last, words, hsize, -, hemit⟩ :=
    emits_ofMethod dynamic (hp.methods id b.decl hm) b.addr (allows_all _)
  rw [← hcode] at hsize hemit
  obtain ⟨hcal, hr, y, hy, hlo, hhi⟩ := (hemit.forms item hitem).jump_target hjump
  exact ⟨hcal, hr, y, hy, hlo, by omega⟩

theorem call_of_body (hp : p.Typed) (hb : (ofPackage p dynamic entry).body? id = some b)
    (hitem : item ∈ b.code.items) (hid : item.callee = some id') :
    ∃ c ∈ b.decl.calls, c.bound = some id' ∧ item.line = c.span.line := by
  obtain ⟨hm, hcode⟩ := method_of_body hb
  rw [hcode] at hitem
  -- The calls that the code may make are those of the declaration.
  have hall : Allows (fun id line => ∃ c ∈ b.decl.calls, c.bound = some id ∧ line = c.span.line)
      b.decl.calls := fun c hc id hid => ⟨c, hc, hid, rfl⟩
  obtain ⟨last, words, -, -, hemit⟩ :=
    emits_ofMethod dynamic (hp.methods id b.decl hm) b.addr hall
  exact ((hemit.forms item hitem).callee hid).1

theorem codeAt_descriptor {cls : Nat} (h : (ofPackage p dynamic entry).parts[cls]? = some part) :
    (ofPackage p dynamic entry).CodeAt part.descriptorStart part.descriptorCode := by
  have hcode := (codeAt_part (mem_of_getElem? h)).right
  rwa [size_append, size_one, ← Nat.add_assoc] at hcode

theorem Place.jump (h : Place p dynamic entry x item) (hj : item.instr.IsJump) :
    (∃ id b n, (ofPackage p dynamic entry).body? id = some b ∧ x = b.addr + n ∧
        b.code.items[n]? = some item) ∨
      ∃ (cls : Nat) (part : Part), (ofPackage p dynamic entry).parts[cls]? = some part ∧
        x = part.start ∧
        item = ⟨.make .jump 0 .cb part.descriptorStart, part.decl.span.line, none⟩ := by
  cases h with
  | method hb hx hitem => exact .inl ⟨_, _, _, hb, hx, hitem⟩
  | opens hpart hx hitem => exact .inr ⟨_, _, hpart, hx, hitem⟩
  | start _ hitem =>
    rw [hitem] at hj
    exact absurd hj (show ¬ (Opcode.call.code = _ ∨ Opcode.call.code = _) by decide)
  | data hop hitem =>
    rw [hitem] at hj
    have hops : ∀ op ∈ [Opcode.push, .loadl, .halt],
        ¬ (op.code = Opcode.jump.code ∨ op.code = Opcode.jumpif.code) := by decide
    exact absurd hj (hops _ hop)

theorem spans_of_getElem? {n : Nat} (h : b.code.items[n]? = some item) : b.Spans (b.addr + n) :=
  ⟨Nat.le_add_right _ _, Nat.add_lt_add_left (List.getElem?_eq_some_iff.1 h).1 _⟩

theorem link_of_callee (hid : item.callee = some id) (hb : a.body? id = some b) :
    a.link item = { item.instr with d := b.addr } := by
  rw [link, hid, bind_some, hb]

theorem link_of_none (h : item.callee = none) : a.link item = item.instr := by
  rw [link, h]
  rfl

theorem link_op (a : Assembly) (item : Item) :
    (a.link item).op = item.instr.op ∧ (a.link item).r = item.instr.r := by
  unfold link
  split <;> exact ⟨rfl, rfl⟩

/-- An instruction of the program is that of an item of the code, which does the same operation. -/
theorem exists_item (h : a.program[x]? = some i) :
    ∃ item, a.code.items[x]? = some item ∧ i = a.link item ∧
      (i.IsJump ↔ item.instr.IsJump) ∧ (i.IsCall ↔ item.instr.IsCall) := by
  rw [getElem?_program] at h
  obtain ⟨item, hitem, rfl⟩ := map_eq_some_iff.1 h
  obtain ⟨hop, hr⟩ := link_op a item
  refine ⟨item, hitem, rfl, ?_, ?_⟩
  · rw [Instr.IsJump, hop, Instr.IsJump]
  · rw [Instr.IsCall, hop, hr, Instr.IsCall]

theorem inside_body (hp : p.Typed)
    (hb : (ofPackage p dynamic entry).body? id = some b) (hx : b.Spans x)
    (hi : (ofPackage p dynamic entry).program[x]? = some i) (hj : i.IsJump) :
    i.r = Reg.cb.code ∧ ∃ y : Nat, i.d = y ∧ b.Spans y := by
  obtain ⟨n, rfl⟩ := Nat.exists_eq_add_of_le hx.1
  have hlt : n < b.code.items.length := Nat.lt_of_add_lt_add_left hx.2
  have hn : b.code.items[n]? = some b.code.items[n] := getElem?_eq_getElem hlt
  -- The instruction at the address is the one in the code of the method.
  obtain ⟨item, hitem, rfl, hj', -⟩ := exists_item hi
  have hplac := (codeAt_body hb).items n _ hn
  cases hitem.symm.trans hplac
  obtain ⟨hcal, hr, y, hy⟩ := jump_of_body hp hb (getElem_mem hlt) (hj'.1 hj)
  rw [link_of_none hcal]
  exact ⟨hr, y, hy⟩

theorem jump_resolved (hp : p.Typed) (hi : (ofPackage p dynamic entry).program[x]? = some i)
    (hj : i.IsJump) :
    (∃ id b, (ofPackage p dynamic entry).body? id = some b ∧ b.Spans x ∧
        ∃ y : Nat, i.d = y ∧ b.Spans y) ∨
      ∃ (cls : Nat) (part : Part), (ofPackage p dynamic entry).parts[cls]? = some part ∧
        x = part.start ∧ i.d = part.descriptorStart := by
  obtain ⟨item, hitem, hlink, hj', -⟩ := exists_item hi
  rcases (place_ofPackage hitem).jump (hj'.1 hj) with
    ⟨id, b, n, hb, rfl, hn⟩ | ⟨cls, part, hpart, hx, rfl⟩
  · have hspan := spans_of_getElem? hn
    exact .inl ⟨id, b, hb, hspan, (inside_body hp hb hspan hi hj).2⟩
  · exact .inr ⟨cls, part, hpart, hx, by rw [hlink]; rfl⟩

theorem call_resolved (hp : p.Typed) (hent : p.entry = some entry)
    (hi : (ofPackage p dynamic entry).program[x]? = some i) (hcall : i.IsCall) :
    ∃ id b, (ofPackage p dynamic entry).body? id = some b ∧ i.d = b.addr ∧
      (id = entry ∧ x + 2 = (ofPackage p dynamic entry).program.size ∨
        ∃ id' b', (ofPackage p dynamic entry).body? id' = some b' ∧ b'.Spans x ∧
          ∃ c ∈ b'.decl.calls, c.bound = some id ∧
            (ofPackage p dynamic entry).code.items[x]?.map (·.line) = some c.span.line) := by
  obtain ⟨item, hitem, hlink, -, hcall'⟩ := exists_item hi
  have hmem := mem_of_getElem? hitem
  have hf := (sealed_ofPackage dynamic hp hent).forms item hmem
  obtain ⟨id, hid⟩ := hf.exists_callee (hcall'.1 hcall)
  -- The method that is called is one of the package, and so it has a body.
  obtain ⟨-, m, op, hm, -⟩ := hf.callee hid
  obtain ⟨b, hb, -⟩ := exists_body dynamic entry hm
  refine ⟨id, b, hb, by rw [hlink, link_of_callee hid hb], ?_⟩
  cases place_ofPackage hitem with
  | @method id' b' n hb' hx hn =>
    obtain ⟨c, hc, hbd, hline⟩ := call_of_body hp hb' (mem_of_getElem? hn) hid
    exact .inr ⟨id', b', hb', hx ▸ spans_of_getElem? hn, c, hc, hbd,
      by rw [hitem, map_some, hline]⟩
  | start hx hsta =>
    rw [hsta] at hid
    exact .inl ⟨(Option.some.inj hid).symm, hx⟩
  | opens _ _ hplai | data _ hplai =>
    rw [hplai] at hid
    cases hid

theorem resolved_ofPackage (hp : p.Typed) (hent : p.entry = some entry) (dynamic : Bool) :
    (ofPackage p dynamic entry).Resolved dynamic entry where
  target x i hi htgt := by
    -- A method is not the last of the program, and neither is the code that pushes a descriptor.
    rcases htgt with ⟨hj, -⟩ | hcall
    · rcases jump_resolved hp hi hj with ⟨id, b, hb, -, y, hy, hspan⟩ | ⟨cls, part, hpart, -, hd⟩
      · have hlt := (codeAt_body hb).lt
        have hspan := hspan.2
        omega
      · have hlt := (codeAt_descriptor hpart).lt
        omega
    · obtain ⟨id, b, hb, hd, -⟩ := call_resolved hp hent hi hcall
      have hlt := (codeAt_body hb).lt
      omega
  method id m hm := by
    have hm : p.method? id = some m := hm
    obtain ⟨b, hb, rfl, -⟩ := exists_body dynamic entry hm
    obtain ⟨-, hcode⟩ := method_of_body hb
    obtain ⟨last, words, hs, hl, -⟩ :=
      emits_ofMethod dynamic (hp.methods id b.decl hm) b.addr (allows_all _)
    rw [← hcode] at hs hl
    exact ⟨b, last, words, hb, rfl, mem_placements hm hb, hcode, codeAt_body hb, hs,
      (codeAt_body hb).getElem? hl⟩
  disjoint id id' b b' hb hb' hne x hx hx' := by
    have hdis := bodies_disjoint hb hb' hne
    have hlt := hx.2
    have hlt' := hx'.2
    have hle := hx.1
    have hle' := hx'.1
    omega
  inside id b x i := inside_body hp
  opens cls c hc := by
    obtain ⟨part, hpart, hdecl⟩ := exists_part dynamic entry hc
    have hcode := codeAt_part (mem_of_getElem? hpart)
    refine ⟨part, hpart, hdecl, hcode.left.left.one.get, fun k d hk => ?_⟩
    have hitem : part.descriptorCode.items[k]? =
        some ⟨.make .loadl 0 .zr d, part.decl.span.line, none⟩ := by
      rw [part.descriptorCode_eq, items_join_literals, getElem?_map, hk]
      rfl
    exact (codeAt_descriptor hpart).getElem? hitem
  jump x i hi hj := by
    rcases jump_resolved hp hi hj with ⟨id, b, hb, hspan, -⟩ | ⟨cls, part, hpart, hx, -⟩
    · exact .inl ⟨id, b, hb, hspan⟩
    · exact .inr ⟨part, mem_of_getElem? hpart, hx⟩
  call x i := call_resolved hp hent

end Assembly

/-- The jumps and calls of a compiled source are resolved, whichever way the methods of instances are
called. -/
theorem Compiler.targets_resolved {c : Compiler} {name : String} {source : List UInt8}
    {object : Object} (h : c.compile name source = .ok object) :
    ∃ p entry, Package.checked? (Path.base name) source = some p ∧ p.entry = some entry ∧
      object.program = (Assembly.ofPackage p c.dynamic entry).program ∧
      ∀ dynamic, (Assembly.ofPackage p dynamic entry).Resolved dynamic entry := by
  obtain ⟨p, entry, hp, htyped, hentry, hprogram, -⟩ := Compiler.exists_checked h
  exact ⟨p, entry, hp, hentry, hprogram, Assembly.resolved_ofPackage htyped hentry⟩

/-- The call of a method by its address leads to that method. -/
theorem Compiler.targets_resolved_callsMethod : ∃ object p entry b,
    Compiler.compile ⟨false, 1024⟩ "M" callsMethod = .ok object ∧
    object.program[(23 : Nat)]? = some (.make .calli 0 .cb 16) ∧
    (Assembly.ofPackage p false entry).program = object.program ∧
    (Assembly.ofPackage p false entry).Resolved false entry ∧
    ∃ id, (Assembly.ofPackage p false entry).body? id = some b ∧ b.addr = 16 := by
  obtain ⟨p, object, m, hp, -, hobject, -, -, -, hcode⟩ := callsMethod_evaluated false
  have hcompile := (Compiler.compile_of_checked "M" hp).trans hobject
  obtain ⟨q, entry, hq, -, hprogram, hresolved⟩ := Compiler.targets_resolved hcompile
  have hget : object.program[(23 : Nat)]? = some (.make .calli 0 .cb 16) := by
    rw [← Array.getElem?_toList, hcode]
    rfl
  have hcall : (Instr.make .calli 0 .cb 16).IsCall := ⟨.inr rfl, rfl⟩
  obtain ⟨id, b, hb, haddr, -⟩ := (hresolved false).call 23 _ (hprogram ▸ hget) hcall
  exact ⟨object, q, entry, b, hcompile, hget, hprogram.symm, hresolved false, id, hb,
    (Int.ofNat.inj haddr).symm⟩

end MiniJam
