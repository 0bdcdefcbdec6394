import MiniJam.Proofs.Code.Placed

/-!
# Descriptors

The code of a class pushes the words of its descriptor one after the other (`Part.descriptor`): a
number for the missing parent, the size of an instance, and the addresses of the methods of
instances, with their number in front of them.  `Assembly.Pushes` follows the code of a program that
jumps over the methods and pushes numbers, and counts its steps; `Assembly.pushes_parts` says that the
descriptors of all classes come to lie on the stack.
-/

namespace MiniJam

open List Layout

namespace Code

theorem size_join_literals (line : Int) (ds : List Int) :
    (join (ds.map (literal line))).size = ds.length := by
  induction ds with
  | nil => rfl
  | cons d ds ih =>
    show (literal line d ++ join (ds.map (literal line))).size = _
    rw [size_append, ih, size_literal, length_cons, Nat.add_comm]

namespace Part

def instanceBodies (c : Part) : List Body := c.bodies.filter (!·.decl.isStatic)

def descriptor (c : Part) : List Int :=
  Machine.noParent :: instanceWords c.decl :: c.instanceBodies.length ::
    c.instanceBodies.map fun b => (b.addr : Int)

theorem descriptorCode_eq (c : Part) :
    c.descriptorCode = join (c.descriptor.map (literal c.decl.span.line)) := by
  simp only [descriptor, map_cons, map_map]
  rfl

theorem length_instanceBodies {c : Part} (h : c.bodies.map (·.decl) = c.decl.methods) :
    c.instanceBodies.length = c.decl.instanceMethods.length := by
  rw [ClassDecl.instanceMethods, ← h, filter_map, length_map]
  rfl

theorem length_descriptor {c : Part} (h : c.bodies.map (·.decl) = c.decl.methods) :
    c.descriptor.length = descriptorWords c.decl := by
  simp only [descriptor, length_cons, length_map, length_instanceBodies h,
    descriptorWords, Machine.descriptorMethods]
  omega

end Part

theorem map_decl_bodies (p : Package) (dynamic : Bool) (pc : Nat) (ms : List MethodDecl) :
    (bodies p dynamic pc ms).map (·.decl) = ms := by
  have h := map_eq_of_forall₂ (f := id) (g := Body.decl) (fun _ _ h => h.1)
    (forall₂_bodies p dynamic pc ms)
  rwa [map_id] at h

end Code

namespace Assembly

variable {p : Package} {dynamic : Bool} {entry : MemberId} {cls : Nat} {part : Code.Part}

theorem forall₂_parts : List.Forall₂ (fun x part => part.decl = x.1 ∧ part.cls = x.2 ∧
      part.bodies = Code.bodies p dynamic (part.start + 1) x.1.methods)
    p.classes.zipIdx (ofPackage p dynamic entry).parts :=
  Code.forall₂_parts _ _ _ _ _

theorem part_decl (h : (ofPackage p dynamic entry).parts[cls]? = some part) :
    p.class? cls = some part.decl ∧ part.cls = cls ∧
      part.bodies.map (·.decl) = part.decl.methods := by
  obtain ⟨⟨c, k⟩, hx, hd, hcls, hbod⟩ := getElem?_of_forall₂ forall₂_parts h
  obtain ⟨hc, rfl⟩ : p.classes[cls]? = some c ∧ cls = k := by
    simpa [getElem?_zipIdx] using hx
  refine ⟨hd ▸ hc, hcls, ?_⟩
  rw [hbod, Code.map_decl_bodies, hd]

theorem exists_part (dynamic : Bool) (entry : MemberId) {c : ClassDecl} (h : p.class? cls = some c) :
    ∃ part, (ofPackage p dynamic entry).parts[cls]? = some part ∧ part.decl = c := by
  have hc : p.classes.zipIdx[cls]? = some (c, cls) := by
    have h : p.classes[cls]? = some c := h
    simp [getElem?_zipIdx, h]
  obtain ⟨part, hpart, hdecl, -⟩ := getElem?_of_forall₂ forall₂_parts.flip hc
  exact ⟨part, hpart, hdecl⟩

theorem getElem?_instanceBodies {id : MemberId} {b : Code.Body}
    (hp : (ofPackage p dynamic entry).parts[id.cls]? = some part)
    (hb : (ofPackage p dynamic entry).body? id = some b) (hstat : b.decl.isStatic = false) :
    part.instanceBodies[methodSlot part.decl id.index]? = some b := by
  obtain ⟨part', hp', hb⟩ := Option.bind_eq_some_iff.1 hb
  cases hp.symm.trans hp'
  have hslot := getElem?_filter (f := Code.Body.decl) (P := fun m => !m.isStatic) hb
    (by simp [hstat])
  rwa [(part_decl hp).2.2] at hslot

theorem map_length_descriptor (p : Package) (dynamic : Bool) (entry : MemberId) :
    ((ofPackage p dynamic entry).parts.map fun part => part.descriptor.length) =
      p.classes.map descriptorWords := by
  rw [← map_zipIdx_fst descriptorWords]
  refine map_eq_of_forall₂ ?_ forall₂_parts
  rintro x part ⟨hd, -, hbod⟩
  rw [← hd]
  refine Code.Part.length_descriptor ?_
  rw [hbod, Code.map_decl_bodies, hd]

/-! ### Code that pushes numbers -/

/-- The code from one address to another one pushes numbers, in so many steps. -/
inductive Pushes (a : Assembly) : (steps pc : Nat) → List Int → (pc' : Nat) → Prop
  | done (pc : Nat) : Pushes a 0 pc [] pc
  | literal {n pc pc' : Nat} {d : Int} {ds : List Int} (hi : a.InstrAt pc (.make .loadl 0 .zr d))
    (hrest : Pushes a n (pc + 1) ds pc') : Pushes a (n + 1) pc (d :: ds) pc'
  | jump {n pc pc' target : Nat} {ds : List Int} (hi : a.InstrAt pc (.make .jump 0 .cb target))
    (htarget : target < a.program.size) (hrest : Pushes a n target ds pc') :
    Pushes a (n + 1) pc ds pc'

variable {a : Assembly}

theorem Pushes.trans {n n' pc pc' pc'' : Nat} (h : a.Pushes n pc ds pc')
    (h' : a.Pushes n' pc' ds' pc'') : a.Pushes (n + n') pc (ds ++ ds') pc'' := by
  induction h with
  | done => rwa [Nat.zero_add]
  | literal hi _ ih =>
    rw [Nat.add_right_comm]
    exact .literal hi (ih h')
  | jump hi htgt _ ih =>
    rw [Nat.add_right_comm]
    exact .jump hi htgt (ih h')

theorem pushes_literals {line : Int} {ds : List Int}
    (h : a.CodeAt pc (.join (ds.map (.literal line)))) :
    a.Pushes ds.length pc ds (pc + ds.length) := by
  induction ds generalizing pc with
  | nil => exact .done pc
  | cons d ds ih =>
    have h := h
    have hr := ih h.right
    rw [Code.size_literal, Nat.add_assoc, Nat.add_comm 1] at hr
    exact .literal h.left.one hr

theorem pushes_part (h : a.CodeAt part.start part.code) :
    a.Pushes (part.descriptor.length + 1) part.start part.descriptor
      (part.start + part.code.size) := by
  have hsta : part.start + (Code.one part.decl.span.line .jump 0 .cb part.descriptorStart ++
      part.methodCode).size = part.descriptorStart := by
    rw [Code.size_append, Code.size_one, Code.Part.descriptorStart, Nat.add_assoc]
  have hp := h.right
  rw [hsta, part.descriptorCode_eq] at hp
  have hend : part.start + part.code.size = part.descriptorStart + part.descriptor.length := by
    rw [Code.Part.code, Code.size_append, ← Nat.add_assoc, hsta, part.descriptorCode_eq,
      Code.size_join_literals]
  rw [hend]
  exact .jump h.left.left.one (Nat.lt_of_le_of_lt (Nat.le_add_right _ _) hp.lt)
    (pushes_literals hp)

theorem pushes_join (h : a.CodeAt pc (.join ((Code.parts p dynamic cls pc cs).map (·.code)))) :
    a.Pushes (total ((Code.parts p dynamic cls pc cs).map fun part => part.descriptor.length + 1)) pc
      ((Code.parts p dynamic cls pc cs).flatMap Code.Part.descriptor)
      (pc + (Code.join ((Code.parts p dynamic cls pc cs).map (·.code))).size) := by
  induction cs generalizing cls pc with
  | nil => exact .done pc
  | cons c cs ih =>
    let part : Code.Part := ⟨cls, c, pc, Code.bodies p dynamic (pc + 1) c.methods⟩
    let rest := Code.parts p dynamic (cls + 1) (pc + part.code.size) cs
    have h := h
    have hpart : a.Pushes _ part.start _ _ := pushes_part h.left
    show a.Pushes (part.descriptor.length + 1 + total (rest.map fun part => part.descriptor.length + 1))
      pc (part.descriptor ++ rest.flatMap Code.Part.descriptor)
      (pc + (part.code ++ .join (rest.map (·.code))).size)
    rw [Code.size_append, ← Nat.add_assoc]
    exact hpart.trans (ih h.right)

theorem pushes_parts (p : Package) (dynamic : Bool) (entry : MemberId) :
    (ofPackage p dynamic entry).Pushes
      (total ((ofPackage p dynamic entry).parts.map fun part => part.descriptor.length + 1)) 1
      ((ofPackage p dynamic entry).parts.flatMap Code.Part.descriptor)
      (1 + (Code.join ((ofPackage p dynamic entry).parts.map (·.code))).size) :=
  pushes_join (codeAt_start p dynamic entry).left.right

end Assembly

end MiniJam
